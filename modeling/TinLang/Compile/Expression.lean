import TinLang.Compile.Generator

/-!
# Code of expressions

The code of an expression pushes its value. `Generate.expr` returns the type of the value; on a
problem it reports it, pushes nothing and returns none. `Generate.address` does the same with the
address of a place in memory and returns the type of what is stored there.
-/
namespace TinLang.Generate

/-- Push a literal, with a minus that belongs to it. -/
def literal : Expr → Generate (Option ValueType)
  | .int _ value => do
    pushNumber value
    return some .int
  | .float _ bits => do
    pushNumber bits.toInt
    return some .float
  | .string _ value => do
    setDataAddress .a (← stringOffset value)
    push .a
    return some .charPointer
  | .character _ value => do
    pushNumber (BitVec.ofNat 8 value.toNat).toInt
    return some .char
  | .bool _ value => do
    pushNumber (if value then 1 else 0)
    return some .bool
  | .null _ => do
    pushNumber 0
    return some .voidPointer
  | .unary _ .negate (.int _ value) => do
    pushNumber (-(value : Int))
    return some .int
  | .unary _ .negate (.float _ bits) => do
    pushNumber (bits ^^^ 0x80000000).toInt
    return some .float
  | _ => return none

/-- Push the value of a constant. -/
def constantValue (constant : Constant) : Generate (Option ValueType) := do
  coerce (← literal constant.value) (some constant.type)

/-- Push the value that a name stands for. -/
def nameValue (span : Span) (name : Text) : Generate (Option ValueType) := do
  match ← meaning name with
  | .constant value => constantValue value
  | .variable type offset =>
    pushFrom .basePointer offset type
    return type
  | .global place =>
    setDataAddress .b place.offset
    pushFrom .b 0 (some place.type)
    return some place.type
  | .undefined => refuse span (.undefinedName name)

/-- Push the address of the place that a name stands for. -/
def nameAddress (span : Span) (name : Text) : Generate (Option ValueType) := do
  match ← meaning name with
  | .constant _ => refuse span (.constantAddress name)
  | .variable type offset =>
    emit .move .b .basePointer
    increase .b offset
    push .b
    return type
  | .global place =>
    setDataAddress .b place.offset
    push .b
    return some place.type
  | .undefined => refuse span (.undefinedName name)

/-- An expression names a place in memory. -/
def addressable : Expr → Generate Bool
  | .name _ name => do
    match ← meaning name with
    | .constant _ => return false
    | _ => return true
  | .member _ object _ => addressable object
  | .index .. => return true
  | .unary _ .deref _ => return true
  | _ => return false

/-- Replace the address on the stack by the value at it. -/
def loadValue (type : Option ValueType) : Generate (Option ValueType) := do
  if type.isSome then
    pop .b
    pushFrom .b 0 type
  return type

/-- Replace the address of a struct on the stack by the address of a member. -/
def memberAddress (span : Span) (name : Text) (object : Option ValueType) :
    Generate (Option ValueType) := do
  match object with
  | none => return none
  | some type =>
    match type.structName? with
    | none =>
      report span (.noMembers type)
      discardWord
      return none
    | some struct =>
      match ((← environment).structs.get struct).member? name with
      | none =>
        report span (.noMember type name)
        discardWord
        return none
      | some member =>
        if member.offset ≠ 0 then
          pop .b
          increase .b member.offset
          push .b
        return some member.type

/-- Replace the address of a place by the address of a member of what is stored there; a stored
pointer to a struct is followed. -/
def memberOfPlace (span : Span) (name : Text) (object : Option ValueType) :
    Generate (Option ValueType) := do
  match object.bind ValueType.pointedStruct? with
  | some struct =>
    pop .b
    emitNumber .loadAt .b .b wordSize.toUInt8 0
    push .b
    memberAddress span name (some ⟨.struct struct, 0⟩)
  | none => memberAddress span name object

/-- Replace a value on the stack by the address of a member; only a pointer to a struct has
one. -/
def memberOfPointer (span : Span) (name : Text) (object : Option ValueType) :
    Generate (Option ValueType) := do
  match object with
  | none => return none
  | some type =>
    match type.pointedStruct?, type.structName? with
    | some struct, _ => memberAddress span name (some ⟨.struct struct, 0⟩)
    | none, some _ =>
      report span (.temporaryMember type)
      discard object
      return none
    | none, none =>
      report span (.noMembers type)
      discard object
      return none

/-- Copy the words of a member inside a struct value on the stack upwards, the first first, so
that no word is overwritten before it is read. Word `i` of `n` is at `8 * (n - 1 - i)`. -/
def copyLeaves (total first : Nat) : List Nat → Generate Unit
  | [] => return ()
  | index :: indices => do
    if first ≠ 0 then
      let source := wordSize * (total - 1 - first - index)
      let target := wordSize * (total - 1 - index)
      emitNumber .loadAt .a .stackPointer wordSize.toUInt8 source
      emitNumber .storeAt .stackPointer .a wordSize.toUInt8 target
    copyLeaves total first indices

/-- Replace a struct value on the stack by the value of a member. -/
def extractMember (struct : StructType) (member : Member) : Generate Unit := do
  let total := struct.shape.leaves
  let count := member.shape.leaves
  copyLeaves total (struct.leavesBefore member.name) (List.range count)
  if count < total then increase .stackPointer (wordSize * (total - count))

/-- Replace a struct, or a pointer to one, on the stack by the value of a member. -/
def memberOfValue (span : Span) (name : Text) (object : Option ValueType) :
    Generate (Option ValueType) := do
  let structs := (← environment).structs
  match object with
  | none => return none
  | some type =>
    match type.pointedStruct?, type.structName? with
    | some struct, _ =>
      match (structs.get struct).member? name with
      | none =>
        report span (.noMember ⟨.struct struct, 0⟩ name)
        discardWord
        return none
      | some member =>
        pop .b
        pushFrom .b member.offset (some member.type)
        return some member.type
    | none, some struct =>
      match (structs.get struct).member? name with
      | none =>
        report span (.noMember type name)
        discard object
        return none
      | some member =>
        extractMember (structs.get struct) member
        return some member.type
    | none, none =>
      report span (.noMembers type)
      discard object
      return none

/-- Replace a pointer and an index on the stack by the address of the element. -/
def elementAddress (objectSpan indexSpan : Span) (object index : Option ValueType) :
    Generate (Option ValueType) := do
  match object, index with
  | some pointer, some position =>
    if !pointer.isPointer || decide (pointer = .voidPointer) then
      report objectSpan (.notIndexable pointer)
      discard index
      discard object
      return none
    else if !position.isIntegral then
      report indexSpan (.indexType position)
      discard index
      discard object
      return none
    else
      pop .a
      pop .b
      setNumber .c ((← environment).structs.sizeOf pointer.element)
      emit .mul .a .c
      emit .add .b .a
      push .b
      return some pointer.element
  | _, _ =>
    discard object
    discard index
    return none

/-- The type that the pointer on the stack points to. -/
def pointed (span : Span) (pointer : Option ValueType) : Generate (Option ValueType) := do
  match pointer with
  | none => return none
  | some type =>
    if !type.isPointer || decide (type = .voidPointer) then
      report span (.notDereferenceable type)
      discard pointer
      return none
    else return some type.element

/-- Store the value on the stack at the address below it, and keep the value. -/
def storeValue (span : Span) (place value : Option ValueType) : Generate (Option ValueType) := do
  match place, value with
  | some type, some _ =>
    if ← fits span place value .assignment then
      match type.structName? with
      | none =>
        pop .a
        pop .b
        emit .store .b .a ((← environment).structs.sizeOf type).toUInt8
        push .a
      | some _ =>
        emitNumber .loadAt .b .stackPointer wordSize.toUInt8
          (wordSize * (← environment).leavesOf place)
        popTo .b 0 place
        pop .b
        pushFrom .b 0 place
      return place
    else
      discard value
      discardWord
      return none
  | _, _ =>
    discard value
    if place.isSome then discardWord
    return none

/-- Who is called, and how. -/
structure Callee where
  /-- The types of the parameters. -/
  params : List (Option ValueType)
  /-- The offsets of the parameters in the argument block. -/
  offsets : List Nat
  /-- The type of the result. -/
  result : Option ValueType
  /-- The size of the argument block. -/
  block : Nat
  /-- The native, or the place of the function among the functions. -/
  target : Native ⊕ Nat

/-- The native or function of a name, unless it cannot be called. -/
def callee? (span : Span) (name : Text) : Generate (Option Callee) := do
  match Native.ofName? name, (← environment).function? name with
  | some native, _ =>
    return some ⟨native.params.map ValueType.ofText?, native.layout.offsets,
      ValueType.ofText? native.result, native.layout.block, .inl native⟩
  | none, some (index, function) =>
    if function.name = "main" then
      report span .mainCalled
      return none
    else
      return some ⟨function.params.map Parameter.type, function.params.map Parameter.offset,
        some function.result, function.block, .inr index⟩
  | none, none =>
    report span (.undefinedFunction name)
    return none

/-- Pop arguments into the block whose last byte is some distance above register B. -/
def popArguments (distance : Int) : List (Option ValueType × Nat) → Generate Unit
  | [] => return ()
  | (type, offset) :: arguments => do
    popTo .b (distance + offset) type
    popArguments distance arguments

/-- Reserve the return slot and the argument block of a call. -/
def reserveCall (callee : Callee) : Generate Unit := do
  let size := wordSize * (← environment).leavesOf callee.result + callee.block
  if 0 < size then increase .stackPointer (-(size : Int))

/-- Call, once the arguments are pushed: they are moved into the block, and the block is given
back after the call. -/
def finishCall (callee : Callee) (pushed : Nat) (fitting : Bool) :
    Generate (Option ValueType) := do
  if fitting then
    if 0 < pushed then
      emit .move .b .stackPointer
      popArguments pushed (callee.params.zip callee.offsets).reverse
    match callee.target with
    | .inl native => change (·.emitNativeCall native.id)
    | .inr index => change (·.emitCall (some index))
    if 0 < callee.block then increase .stackPointer callee.block
    return callee.result
  else
    let size := pushed + wordSize * (← environment).leavesOf callee.result + callee.block
    if 0 < size then increase .stackPointer size
    return none

/-- The instruction of an operator, and whether its result is a truth value. -/
def operation : BinaryOp → Opcode × Bool
  | .add => (.add, false)
  | .sub => (.sub, false)
  | .mul => (.mul, false)
  | .div => (.div, false)
  | .and => (.and, true)
  | .or => (.or, true)
  | .equal => (.equal, true)
  | .notEqual => (.notEqual, true)
  | .less => (.less, true)
  | .greater => (.greater, true)
  | .lessEqual => (.lessEqual, true)
  | .greaterEqual => (.greaterEqual, true)

/-- Combine registers A and D, one of which holds a pointer: pointers can be compared, and an
integer can be added to one or taken from it in units of what it points to. -/
def pointerOperation (span : Span) (op : BinaryOp) (left right : ValueType) :
    Generate (Option ValueType) := do
  let (opcode, _) := operation op
  if (op = .equal ∨ op = .notEqual) ∧ (left.accepts right ∨ right.accepts left) then
    emit opcode .a .d Control.word.code
    push .a
    return some .bool
  else if (op = .add ∨ op = .sub) ∧ left.isPointer ∧ right.isIntegral ∧ left ≠ .voidPointer then
    setNumber .c ((← environment).structs.sizeOf left.element)
    emit .mul .d .c
    emit opcode .a .d Control.word.code
    push .a
    return some left
  else refuse span (.operands left right op)

/-- Combine the numbers in registers A and D. If one is a floating-point number, so is the other
after conversion; two bytes are combined as bytes. -/
def numberOperation (op : BinaryOp) (left right : ValueType) : Generate (Option ValueType) := do
  let (opcode, compares) := operation op
  let (control, result) ←
    if left = .float ∨ right = .float then do
      if left ≠ .float then convert .intToSingle .a
      if right ≠ .float then convert .intToSingle .d
      pure (Control.single, ValueType.float)
    else if left.isByte && right.isByte then pure (Control.byte, left)
    else pure (Control.word, ValueType.int)
  emit opcode .a .d control.code
  push .a
  return some (if compares then .bool else result)

/-- Combine the two values on the stack. -/
def binaryOperation (span : Span) (op : BinaryOp) (left right : Option ValueType) :
    Generate (Option ValueType) := do
  match left, right with
  | some first, some second =>
    let structs := (← environment).structs
    if structs.leavesOf first ≠ 1 ∨ structs.leavesOf second ≠ 1 then
      report span (.operands first second op)
      discard right
      discard left
      return none
    else
      pop .d
      pop .a
      if first.isPointer || second.isPointer then pointerOperation span op first second
      else if first.isNumeric && second.isNumeric then numberOperation op first second
      else refuse span (.operands first second op)
  | _, _ =>
    discard right
    discard left
    return none

/-- Negate the number on the stack. -/
def negate (span : Span) (operand : Option ValueType) : Generate (Option ValueType) := do
  match operand with
  | none => return none
  | some type =>
    let control? := if type = .float then some Control.single
      else if type = .int then some Control.word
      else if type = .char then some Control.byte
      else none
    match control? with
    | none =>
      report span (.notNegatable type)
      discard operand
      return none
    | some control =>
      pop .d
      setNumber .a 0
      emit .sub .a .d control.code
      push .a
      return operand

/-- Replace the scalar on the stack by whether it is zero. -/
def invert (span : Span) (operand : Option ValueType) : Generate (Option ValueType) := do
  match operand with
  | none => return none
  | some type =>
    if (← environment).leavesOf operand ≠ 1 ∨ type = .float then
      report span (.notInvertible type)
      discard operand
      return none
    else
      pop .a
      emit .not .a .a
      push .a
      return some .bool

/-- Change the integer or character at the address on the stack by one, and push its value from
before or, when `early`, after the change. -/
def stepPlace (span : Span) (op : StepOp) (early : Bool) (place : Option ValueType) :
    Generate (Option ValueType) := do
  match place with
  | none => return none
  | some type =>
    if type = .int ∨ type = .char then
      let size := ((← environment).structs.sizeOf type).toUInt8
      pop .b
      emit .load .a .b size
      if !early then push .a
      increase .a (match op with
        | .increment => 1
        | .decrement => -1)
      emit .store .b .a size
      if early then push .a
      return place
    else
      report span (.stepOperand type op)
      discardWord
      return none

/-- Convert the value on the stack to a type. -/
def castValue (span : Span) (type : ValueType) (value : Option ValueType) :
    Generate (Option ValueType) := do
  match value with
  | none => return none
  | some source =>
    if source = type then return some type
    else if source.isPointer && type.isPointer then return some type
    else if source.isIntegral && type.isIntegral then
      if type = .bool then
        pop .a
        emit .not .a .a
        emit .not .a .a
        push .a
      return some type
    else if source = .int ∧ type = .float then
      pop .a
      convert .intToSingle .a
      push .a
      return some type
    else if source = .float ∧ type = .int then
      pop .a
      convert .singleToInt .a
      push .a
      return some type
    else
      report span (.noConversion source type)
      discard value
      return none

/-- The type that a written type names; an unknown name is reported. -/
def writtenType (type : TypeExpr) : Generate (Option ValueType) := do
  match (← environment).resolve? type with
  | some found => return some found
  | none => refuse type.span (.unknownType type)

mutual

/-- Push the value of an expression, and return its type. -/
def expr : Expr → Generate (Option ValueType)
  | .name span name => nameValue span name
  | .call span name arguments => do
    match ← callee? span name with
    | none => return none
    | some callee =>
      if arguments.length ≠ callee.params.length then
        refuse span (.argumentCount name callee.params.length arguments.length)
      else
        reserveCall callee
        let (pushed, fitting) ← callArguments name arguments callee.params
        finishCall callee pushed fitting
  | .binary span op left right => do
    let first ← expr left
    let second ← expr right
    binaryOperation span op first second
  | .unary span .negate operand =>
    match operand with
    | .int .. | .float .. => literal (.unary span .negate operand)
    | _ => do negate span (← expr operand)
  | .unary span .not operand => do invert span (← expr operand)
  | .unary _ .address operand => do return (← address operand).map ValueType.pointerTo
  | .unary span .deref operand => do loadValue (← pointed span (← expr operand))
  | .step span op early operand => do stepPlace span op early (← address operand)
  | .assign _ target value => do
    let place ← address target
    let given ← coerce (← expr value) place
    storeValue value.span place given
  | .member span object name => do
    if ← addressable object then loadValue (← memberOfPlace span name (← address object))
    else memberOfValue span name (← expr object)
  | .index _ object index => do
    let pointer ← expr object
    let position ← expr index
    loadValue (← elementAddress object.span index.span pointer position)
  | .cast span type value => do
    match ← writtenType type with
    | none =>
      discard (← expr value)
      return none
    | some found => castValue span found (← expr value)
  | .sizeof _ type => do
    match ← writtenType type with
    | none => return none
    | some found =>
      pushNumber ((← environment).structs.sizeOf found)
      return some .int
  | .int span value => literal (.int span value)
  | .float span bits => literal (.float span bits)
  | .string span value => literal (.string span value)
  | .character span value => literal (.character span value)
  | .bool span value => literal (.bool span value)
  | .null span => literal (.null span)

/-- Push the arguments of a call; returns how many bytes were pushed and whether all fit their
parameters. -/
def callArguments (name : Text) : List Expr → List (Option ValueType) → Generate (Nat × Bool)
  | argument :: arguments, type :: types => do
    let given ← coerce (← expr argument) type
    let size := wordSize * (← environment).leavesOf given
    let fitting ← fits argument.span type given (.argument name)
    let (pushed, others) ← callArguments name arguments types
    return (size + pushed, fitting && others)
  | _, _ => return (0, true)

/-- Push the address of the place that an expression names, and return the type of what is stored
there. -/
def address : Expr → Generate (Option ValueType)
  | .name span name => nameAddress span name
  | .member span object name => do
    if ← addressable object then memberOfPlace span name (← address object)
    else memberOfPointer span name (← expr object)
  | .index _ object index => do
    let pointer ← expr object
    let position ← expr index
    elementAddress object.span index.span pointer position
  | .unary span .deref operand => do pointed span (← expr operand)
  | other => refuse other.span .notAddressable

end

end TinLang.Generate
