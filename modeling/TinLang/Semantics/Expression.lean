import TinLang.Semantics.Store

/-!
# Meaning of expressions

The evaluation of the expressions of programs without pointers. Operands and arguments are
evaluated from left to right, both operands of every operator. How a function is called is a
parameter.
-/
namespace TinLang

/-- Calls of functions by their places among the functions of a program. -/
abbrev Caller := Nat → List Value → Eval Value

/-- The expression names a variable or a part of one. -/
def Expr.isPlace : Expr → Bool
  | .name _ _ => true
  | .member _ object _ => object.isPlace
  | _ => false

/-- The place of a member of what is at a place. -/
def Place.member (structs : StructTable) (place : Place) (name : Text) : Except Stop Place :=
  match place.type.structName? with
  | none => .error .stuck
  | some struct =>
    match (structs.get struct).member? name with
    | none => .error .stuck
    | some member =>
      .ok ⟨place.name, place.first + (structs.get struct).leavesBefore name, member.type⟩

/-- The place that an expression names. -/
def Expr.place (structs : StructTable) : Expr → Eval Place
  | .name _ text => do
    match ← Eval.find text with
    | .variable value => return ⟨text, 0, value.type⟩
    | .constant _ => throw .stuck
  | .member _ object field => do Eval.lift ((← object.place structs).member structs field)
  | _ => throw .stuck

/-- The value of a member of a struct value. -/
def Value.member (structs : StructTable) (value : Value) (name : Text) : Except Stop Value :=
  match value.type.structName? with
  | none => .error .stuck
  | some struct =>
    match (structs.get struct).member? name with
    | none => .error .stuck
    | some member =>
      .ok ⟨member.type, (value.words.drop ((structs.get struct).leavesBefore name)).take
        (structs.leavesOf member.type)⟩

/-- Add a number to that at a place; the value of this is the number before the change or, when
`early`, after it. -/
def Eval.increase (structs : StructTable) (distance : Word) (early : Bool) (place : Place) :
    Eval Value := do
  let before ← read structs place
  match before.words with
  | [word] =>
    let after : Value := ⟨place.type, [word + distance]⟩
    assign structs place after
    return if early then after else before
  | _ => throw .stuck

/-- What a step adds to a number. -/
def StepOp.distance : StepOp → Word
  | .increment => 1
  | .decrement => -1

/-- Give a place a value. The value of this is the value given, and for a struct what the place
then holds. -/
def Eval.store (structs : StructTable) (place : Place) (value : Value) : Eval Value := do
  assign structs place value
  if place.type.structName?.isSome then read structs place else return value

/-- Call a native with its arguments. -/
def Eval.native (structs : StructTable) (called : Native) (arguments : List Value) :
    Eval Value := do
  let words := (arguments.map fun argument => structs.narrowed argument.type argument.words).flatten
  match called.effect? words, ValueType.ofText? called.result with
  | some (text, result), some type =>
    print text
    return ⟨type, result.toList⟩
  | _, _ => throw .stuck

mutual

/-- Evaluate an expression. -/
def Expr.eval (environment : Environment) (call : Caller) : Expr → Eval Value
  | .name _ text => do return (← Eval.find text).value
  | .call _ callee arguments => do
    match Native.ofName? callee, environment.function? callee with
    | some native, _ => do
      Eval.native environment.structs native
        (← evalArguments environment call arguments (native.params.map ValueType.ofText?))
    | none, some (index, function) => do
      call index (← evalArguments environment call arguments (function.params.map Parameter.type))
    | none, none => throw .stuck
  | .binary _ op left right => do
    let first ← left.eval environment call
    let second ← right.eval environment call
    Eval.lift (Value.combine op first second)
  | .unary span .negate operand =>
    match Value.ofLiteral? (.unary span .negate operand) with
    | some value => return value
    | none => do Eval.lift (← operand.eval environment call).negate
  | .unary _ .not operand => do Eval.lift (← operand.eval environment call).invert
  | .step _ op early operand => do
    Eval.increase environment.structs op.distance early (← operand.place environment.structs)
  | .assign _ target value => do
    let place ← target.place environment.structs
    let given ← value.eval environment call
    Eval.store environment.structs place (given.coerce place.type)
  | .member span object field =>
    if object.isPlace then do
      Eval.read environment.structs (← Expr.place environment.structs (.member span object field))
    else do Eval.lift ((← object.eval environment call).member environment.structs field)
  | .cast _ type value => do
    match environment.resolve? type with
    | none => throw .stuck
    | some type => do Eval.lift ((← value.eval environment call).cast type)
  | .sizeof _ type =>
    match environment.resolve? type with
    | none => throw .stuck
    | some type => return ⟨.int, [Value.literalWord (environment.structs.sizeOf type)]⟩
  | literal =>
    match Value.ofLiteral? literal with
    | some value => return value
    | none => throw .stuck

/-- Evaluate the arguments of a call and convert them to the types of the parameters. -/
def evalArguments (environment : Environment) (call : Caller) :
    List Expr → List (Option ValueType) → Eval (List Value)
  | argument :: arguments, some type :: types => do
    let given ← argument.eval environment call
    let others ← evalArguments environment call arguments types
    return given.coerce type :: others
  | _, _ => return []

end

end TinLang
