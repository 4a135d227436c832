import TinLang.Compile.Expression
import TinLang.Compile.Declarations

/-!
# Code of statements

The code of a statement leaves the operand stack as it was; a declaration moves the stack pointer
by the size of its variable, and the end of its block moves it back. Statements after a jump out
of their block are not generated.
-/
namespace TinLang.Generate

/-- Evaluate a condition into register A. A problem leaves zero there. -/
def condition (test : Expr) : Generate Unit := do
  match ← expr test with
  | none => setNumber .a 0
  | some type =>
    if (← environment).leavesOf (some type) ≠ 1 then
      report test.span (.conditionType type)
      discard (some type)
      setNumber .a 0
    else pop .a

/-- Fill the variable at an offset of the frame with zeros. -/
def clearLocal (offset : Int) (size : Nat) : Generate Unit := do
  emit .move .b .basePointer
  increase .b offset
  setNumber .a size
  emit .memzero .b .a

/-- Declare a variable and give it its value, or zeros. -/
def declareVariable (span : Span) (name : Text) (written : TypeExpr) (value : Option Expr) :
    Generate Unit := do
  match ← writtenType written with
  | none => return ()
  | some type =>
    if type.isVoid then report span (.voidVariable name)
    else
      let size := alignUp ((← environment).structs.sizeOf type) wordSize
      increase .stackPointer (-(size : Int))
      modify fun generator => { generator with frame := generator.frame - size }
      let offset := (← get).frame
      match value with
      | none => clearLocal offset size
      | some value =>
        let given ← coerce (← expr value) (some type)
        if ← fits value.span (some type) given (.variableValue name) then
          popTo .basePointer offset (some type)
        else discard given
      declare span name (.variable (some type) offset)

/-- Declare a local constant. -/
def declareConstant (declaration : ConstDecl) : Generate Unit := do
  match (← environment).constantOf declaration with
  | .ok constant => declare declaration.span declaration.name (.constant constant)
  | .error (span, cause) => report span cause

/-- Jump out of the innermost loop, or to its condition; says whether there is a loop. -/
def jumpOut (span : Span) (leaves : Bool) : Generate Bool := do
  match (← get).loops with
  | [] =>
    report span (if leaves then .leaveOutside else .againOutside)
    return false
  | loop :: outer =>
    release loop.depth
    if leaves then
      let cell ← jump .jump .unused
      modify fun generator =>
        { generator with loops := { loop with exits := loop.exits ++ [cell] } :: outer }
    else change (·.emitJumpBack .jump .unused loop.start)
    moveDepth ((← get).frame - loop.depth)
    return true

/-- Pop the words of a result into the return slot, which lies above the argument block. -/
def popResult (block : Nat) : List Nat → Generate Unit
  | [] => return ()
  | index :: indices => do
    pop .a
    emitNumber .storeAt .basePointer .a wordSize.toUInt8 (16 + block + wordSize * index)
    popResult block indices

/-- Evaluate the value of a return into the return slot, or into register A in main. -/
def returnValue (value : Expr) : Generate Unit := do
  let function := (← read).function
  let wanted := some function.result
  let given ← coerce (← expr value) wanted
  if ← fits value.span wanted given .returnValue then
    if function.name = "main" then pop .a
    else popResult function.block (List.range ((← environment).leavesOf wanted))
  else discard given

/-- Return from the function; the depth tracked afterwards is that before the statement. -/
def returnFrom (span : Span) (value : Option Expr) : Generate Unit := do
  let function := (← read).function
  let depth := (← get).piece.depth
  match value with
  | none =>
    if !function.result.isVoid then report span (.returnsValue function.name function.result)
  | some value =>
    if function.result.isVoid then
      report span (.returnsNothing function.name)
      discard (← expr value)
    else returnValue value
  release 0
  let generator ← get
  if generator.errors = 0 ∧ generator.piece.depth ≠ 0 then
    report span (.unbalancedReturn generator.piece.depth)
  emit .giveBack .unused .unused
  change fun piece => { piece with depth }

/-- Check that a statement left no words on the operand stack. -/
def checkDepth (span : Span) : Generate Unit := do
  let generator ← get
  if generator.errors = 0 ∧ generator.piece.depth ≠ wrapSigned generator.frame then
    report span (.unbalanced generator.piece.depth (wrapSigned generator.frame))

/-- Leave the statements of a block: give back its locals, unless it was left by a jump. -/
def endStatements (depth : Int) (terminated : Bool) : Generate Unit := do
  if terminated then moveDepth (depth - (← get).frame) else release depth
  modify fun generator => { generator with frame := depth }

/-- Enter a loop whose condition starts at the end of the code, and return its label. -/
def startLoop : Generate Nat :=
  modifyGet fun generator =>
    let (piece, start) := generator.piece.label
    (start, { generator with piece })

/-- Let the body of a loop follow. -/
def enterLoop (start : Nat) : Generate Unit :=
  modify fun generator =>
    { generator with loops := { start, depth := generator.frame } :: generator.loops }

/-- Leave the innermost loop, and return the jumps out of it. -/
def leaveLoop : Generate (List Nat) :=
  modifyGet fun generator =>
    ((generator.loops.head?.map LoopFrame.exits).getD [],
      { generator with loops := generator.loops.tail })

mutual

/-- Generate a statement; says whether it jumps away. -/
def statement : Stmt → Generate Bool
  | .declare span name type value => do
    declareVariable span name type value
    return false
  | .constant declaration => do
    declareConstant declaration
    return false
  | .evaluate _ value => do
    discard (← expr value)
    return false
  | .branch _ test body otherwise => do
    condition test
    let skip ← jump .jumpZero .a
    let terminated ← block body
    alternative skip terminated otherwise
    return false
  | .loop _ test body => do
    let start ← startLoop
    condition test
    let exit ← jump .jumpZero .a
    enterLoop start
    let _ ← block body
    let exits ← leaveLoop
    change (·.emitJumpBack .jump .unused start)
    land exit
    exits.forM land
    return false
  | .leave span => jumpOut span true
  | .again span => jumpOut span false
  | .result span value => do
    returnFrom span value
    return true
  | .block body => block body

/-- Generate what follows the body of a choice; the jump over the body lands before it. -/
def alternative (skip : Nat) (terminated : Bool) : Option Stmt → Generate Unit
  | none => land skip
  | some other => do
    let finish ← if terminated then pure none else some <$> jump .jump .unused
    land skip
    match other with
    | .block body => let _ ← block body
    | .branch span test body otherwise =>
      setLine span.start.line
      let _ ← statement (.branch span test body otherwise)
    | _ => pure ()
    match finish with
    | some cell => land cell
    | none => return ()

/-- Generate a block in a scope of its own. -/
def block : Block → Generate Bool
  | .mk _ body => do
    openScope
    let depth := (← get).frame
    let terminated ← statements body
    endStatements depth terminated
    closeScope
    return terminated

/-- Generate statements up to the first that jumps away; says whether there is one. -/
def statements : List Stmt → Generate Bool
  | [] => return false
  | first :: rest => do
    setLine first.span.start.line
    let terminated ← statement first
    checkDepth first.span
    if terminated then return true else statements rest

end

end TinLang.Generate
