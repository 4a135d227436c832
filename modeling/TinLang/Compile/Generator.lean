import TinLang.Compile.Environment
import TinLang.Compile.Task

/-!
# Generating code

The state in which the code of one function is generated, and the instructions that every
construct is made of. Values live on the operand stack as words of eight bytes, one for each
scalar; the first scalar of a struct lies deepest. Register A carries values and B addresses, C
and D are free for the use of a single construct.
-/
namespace TinLang

/-- The size of a word on the operand stack. -/
def wordSize : Nat := 8

/-- What a name inside a function stands for. -/
inductive LocalMeaning where
  /-- A variable or parameter at an offset from the base pointer. -/
  | variable (type : Option ValueType) (offset : Int)
  /-- A constant. -/
  | constant (value : Constant)
  deriving Repr

/-- The names declared in one scope. -/
abbrev Scope := List (Text × LocalMeaning)

/-- What jumps inside a loop need. -/
structure LoopFrame where
  /-- The label of the condition. -/
  start : Nat
  /-- The depth of the frame outside the body. -/
  depth : Int
  /-- The jumps out of the loop, to be fixed at its end. -/
  exits : List Nat := []
  deriving Repr

/-- What the code of a function depends on. -/
structure FunctionContext where
  /-- The declarations of the program. -/
  environment : Environment
  /-- The function. -/
  function : Function

/-- The state of generating one function. -/
structure Generator where
  /-- The code so far. -/
  piece : Piece
  /-- The file that problems are reported in. -/
  file : SourceFile
  /-- The scopes, innermost first. -/
  scopes : List Scope := []
  /-- The loops around, innermost first. -/
  loops : List LoopFrame := []
  /-- The depth of the local frame, zero or negative; only its lowest 64 bits count. -/
  frame : Int := 0
  /-- The cell that the latest fixed jump leads to. -/
  landing : Nat := 0
  /-- How many problems this function has. -/
  errors : Nat := 0

/-- A step of generating a function. -/
abbrev Generate := ReaderT FunctionContext (StateT Generator Task)

namespace Generate

/-- Report a problem at a node of the current file. -/
def report (span : Span) (cause : ProblemCause) : Generate Unit := fun _ generator =>
  .report (Problem.diagnostic ⟨generator.file.name, span.start, cause⟩)
    (.done ((), { generator with errors := generator.errors + 1 }))

/-- The offset of a string in the data segment. -/
def stringOffset (text : Text) : Generate Int := fun _ generator =>
  .intern text fun offset => .done (offset, generator)

/-- Report a problem; there is no value. -/
def refuse (span : Span) (cause : ProblemCause) : Generate (Option ValueType) := do
  report span cause
  return none

/-- The declarations of the program. -/
def environment : Generate Environment := return (← read).environment

/-- Change the piece. -/
def change (step : Piece → Piece) : Generate Unit :=
  modify fun generator => { generator with piece := step generator.piece }

/-- Attribute the code that follows to a line of the current file. -/
def setLine (number : Nat) : Generate Unit :=
  modify fun generator => { generator with
    piece := generator.piece.setLine number (generator.file.line number) }

/-- Emit a register instruction. -/
def emit (op : Opcode) (first second : Register) (modifier : UInt8 := 0) : Generate Unit :=
  change fun piece => (piece.emit ⟨op, first, second, modifier⟩).1

/-- Emit an instruction with an immediate, which keeps the low 32 bits of a number. -/
def emitNumber (op : Opcode) (first second : Register) (modifier : UInt8) (number : Int) :
    Generate Unit :=
  change fun piece => (piece.emitImmediate ⟨op, first, second, modifier⟩ (.ofInt 32 number)).1

/-- Push a register. -/
def push (register : Register) : Generate Unit := change (·.emitPush register)

/-- Pop into a register. -/
def pop (register : Register) : Generate Unit := change (·.emitPop register)

/-- Add a number to a register. -/
def increase (register : Register) (number : Int) : Generate Unit :=
  emitNumber .increase register .unused 0 number

/-- Set a register to a number. -/
def setNumber (register : Register) (number : Int) : Generate Unit :=
  emitNumber .loadImmediate register .unused 0 number

/-- Set a register to an address in the data segment. -/
def setDataAddress (register : Register) (offset : Int) : Generate Unit :=
  emitNumber .dataPointer register .unused 0 offset

/-- Push a number. -/
def pushNumber (number : Int) : Generate Unit := do
  setNumber .a number
  push .a

/-- Emit a jump whose end is not known yet, and return the cell to fix. -/
def jump (op : Opcode) (register : Register) : Generate Nat :=
  modifyGet fun generator =>
    let (piece, cell) := generator.piece.emitJump op register
    (cell, { generator with piece })

/-- Let a jump lead to the end of the code. -/
def land (cell : Nat) : Generate Unit :=
  modify fun generator => { generator with
    piece := (generator.piece.fixJump cell).1, landing := generator.piece.size }

/-- Move the tracked depth of the stack without code. -/
def moveDepth (distance : Int) : Generate Unit :=
  change fun piece => { piece with depth := piece.depth + wrapSigned distance }

/-- Give back the locals down to a depth of the frame; the tracked frame stays. -/
def release (depth : Int) : Generate Unit := do
  let distance := wrapSigned (depth - (← get).frame)
  if distance ≠ 0 then increase .stackPointer distance

/-- Enter a scope. -/
def openScope : Generate Unit :=
  modify fun generator => { generator with scopes := [] :: generator.scopes }

/-- Leave the innermost scope. -/
def closeScope : Generate Unit :=
  modify fun generator => { generator with scopes := generator.scopes.tail }

/-- Declare a name in the innermost scope. -/
def declare (span : Span) (name : Text) (meaning : LocalMeaning) : Generate Unit := do
  match (← get).scopes with
  | [] => return ()
  | scope :: outer =>
    if (scope.lookup name).isSome then report span (.declaredInScope name)
    else modify fun generator => { generator with scopes := ((name, meaning) :: scope) :: outer }

/-- What a name stands for. -/
inductive Meaning where
  | variable (type : Option ValueType) (offset : Int)
  | global (place : Global)
  | constant (value : Constant)
  | undefined

/-- What a name stands for: a local of the innermost scope that has one, a global variable or a
constant of the program. -/
def meaning (name : Text) : Generate Meaning := do
  match (← get).scopes.findSome? fun (scope : Scope) => scope.lookup name with
  | some (.variable type offset) => return .variable type offset
  | some (.constant value) => return .constant value
  | none =>
    let environment ← environment
    match environment.global? name, environment.constant? name with
    | some place, _ => return .global place
    | none, some value => return .constant value
    | none, none => return .undefined

/-- Push the scalars at some places relative to an address in a register. -/
def pushSlots (base : Register) : List Slot → Generate Unit
  | [] => return ()
  | slot :: slots => do
    emitNumber .loadAt .a base slot.size.toUInt8 slot.offset
    push .a
    pushSlots base slots

/-- Pop scalars to some places relative to an address in a register. -/
def popSlots (base : Register) : List Slot → Generate Unit
  | [] => return ()
  | slot :: slots => do
    pop .a
    emitNumber .storeAt base .a slot.size.toUInt8 slot.offset
    popSlots base slots

/-- Push the value at an offset from an address in a register. -/
def pushFrom (base : Register) (offset : Int) (type : Option ValueType) : Generate Unit := do
  pushSlots base (((← environment).shapeOf type).slots offset)

/-- Pop a value to an offset from an address in a register. -/
def popTo (base : Register) (offset : Int) (type : Option ValueType) : Generate Unit := do
  popSlots base (((← environment).shapeOf type).slots offset).reverse

/-- Drop a value. -/
def discard (type : Option ValueType) : Generate Unit := do
  match (← environment).leavesOf type with
  | 0 => return ()
  | 1 => pop .a
  | count => increase .stackPointer (wordSize * count)

/-- Drop one word. -/
def discardWord : Generate Unit := pop .a

/-- Replace the number in a register by its conversion. -/
def convert (conversion : Conversion) (register : Register) : Generate Unit :=
  emit .cast register .unused conversion.code

/-- Convert the integer on top of the stack when a floating-point number is wanted. -/
def coerce (given wanted : Option ValueType) : Generate (Option ValueType) := do
  if given = some .int ∧ wanted = some .float then
    pop .a
    convert .intToSingle .a
    push .a
    return some .float
  else return given

/-- Check that a value fits a place; a value or place of unknown type does not. -/
def fits (span : Span) (wanted given : Option ValueType) (use : Use) : Generate Bool := do
  match wanted, given with
  | some place, some value =>
    if place.accepts value then return true
    else
      report span (.mismatch value place use)
      return false
  | _, _ => return false

end Generate

end TinLang
