import TinLang.Compile.Declarations
import TinLang.Semantics.Expression

/-!
# Meaning of statements and programs

The execution of the statements of programs without pointers. Nothing says how often a loop goes
round or how deep calls nest, so an execution has a bound on both, and is unfinished when it needs
more.
-/
namespace TinLang

/-- How a statement ends. -/
inductive Flow where
  /-- The next statement follows. -/
  | next
  /-- The innermost loop ends. -/
  | leave
  /-- The innermost loop goes on with its condition. -/
  | again
  /-- The function returns a value. -/
  | result (value : Value)

namespace Eval

/-- The truth of a condition. -/
def test (condition : Value) : Eval Bool :=
  match condition.words with
  | [word] => return word != 0
  | _ => throw .stuck

/-- Repeat rounds until one says how the loop ends, at most some number of times. -/
def repeated (round : Eval (Option Flow)) : Nat → Eval Flow
  | 0 => throw .unfinished
  | bound + 1 => do
    match ← round with
    | some flow => return flow
    | none => repeated round bound

end Eval

/-- What the end of the body of a loop means for the loop. -/
def Flow.ofRound : Flow → Option Flow
  | .next | .again => none
  | .leave => some .next
  | .result value => some (.result value)

/-- The value of a constant. -/
def Constant.meaning (constant : Constant) : Value :=
  match Value.ofLiteral? constant.value with
  | some value => value.coerce constant.type
  | none => ⟨constant.type, []⟩

section

variable (environment : Environment) (call : Caller) (bound : Nat) (result : ValueType)

/-- Declare a variable with a value, or with zeros. -/
def execDeclare (name : Text) (written : TypeExpr) (value : Option Expr) : Eval Unit := do
  match environment.resolve? written with
  | none => throw .stuck
  | some type =>
    match value with
    | none => Eval.declare name (.variable (environment.structs.zero type))
    | some value =>
      let given ← value.eval environment call
      let words := environment.structs.narrowed type (given.coerce type).words
      Eval.declare name (.variable ⟨type, words⟩)

/-- Return from the function, with a value converted to the type of its result. -/
def execResult (value : Option Expr) : Eval Flow := do
  match value with
  | none => return .result .void
  | some value => return .result ((← value.eval environment call).coerce result)

mutual

/-- Execute a statement. -/
def Stmt.exec : Stmt → Eval Flow
  | .declare _ name written value => do
    execDeclare environment call name written value
    return .next
  | .constant declaration => do
    match environment.constantOf declaration with
    | .ok constant =>
      Eval.declare declaration.name (.constant constant.meaning)
      return .next
    | .error _ => throw .stuck
  | .evaluate _ value => do
    let _ ← value.eval environment call
    return .next
  | .branch _ condition body otherwise => do
    if ← Eval.test (← condition.eval environment call) then body.exec
    else execAlternative otherwise
  | .loop _ condition body =>
    Eval.repeated (do
      if ← Eval.test (← condition.eval environment call) then return (← body.exec).ofRound
      else return some .next) bound
  | .leave _ => return .leave
  | .again _ => return .again
  | .result _ value => execResult environment call result value
  | .block body => body.exec

/-- Execute what follows the body of a choice that is not made. -/
def execAlternative : Option Stmt → Eval Flow
  | none => return .next
  | some other => other.exec

/-- Execute a block in a scope of its own. -/
def Block.exec : Block → Eval Flow
  | .mk _ body => Eval.inScope (execAll body)

/-- Execute statements up to the first that jumps away. -/
def execAll : List Stmt → Eval Flow
  | [] => return .next
  | first :: rest => do
    match ← first.exec with
    | .next => execAll rest
    | flow => return flow

end

end

/-- The names of parameters bound to what they keep of some arguments, the last first. -/
def Function.bindings (structs : StructTable) (function : Function) (arguments : List Value) :
    Bindings :=
  ((function.params.zip arguments).map fun (parameter, argument) =>
    (parameter.name, .variable ⟨argument.type,
      structs.narrowed argument.type argument.words⟩)).reverse

/-- What the end of the body of a function means for its caller. -/
def Flow.returned (function : Function) : Flow → Eval Value
  | .result value => return value
  | .next => if function.result.isVoid then return .void else throw .stuck
  | _ => throw .stuck

/-- Call a function; calls nest and loops go round at most some number of times. -/
def Environment.callWithin (environment : Environment) : Nat → Caller
  | 0, _, _ => throw .unfinished
  | bound + 1, index, arguments => do
    match environment.functions[index]? with
    | none => throw .stuck
    | some function =>
      let outer := (← getThe Store).locals
      modify fun store =>
        { store with locals := function.bindings environment.structs arguments }
      let flow ← execAll environment (environment.callWithin bound) bound function.result
        function.declaration.body.statements
      modify fun store => { store with locals := outer }
      flow.returned function

/-- Give global variables their initial values in order; those without one stay zero. -/
def execGlobals (environment : Environment) (call : Caller) : List Global → Eval Unit
  | [] => return ()
  | place :: places => do
    match place.declaration.value with
    | none => pure ()
    | some value =>
      let given ← value.eval environment call
      Eval.assign environment.structs ⟨place.name, 0, place.type⟩ (given.coerce place.type)
    execGlobals environment call places

/-- What a program knows before it starts. -/
def Environment.store (environment : Environment) : Store where
  globals :=
    environment.globals.map (fun place =>
      (place.name, .variable (environment.structs.zero place.type))) ++
    environment.constants.map fun constant => (constant.name, .constant constant.meaning)

/-- Run a program from its main function: global variables get their initial values, then the body
is executed. -/
def Environment.execMain (environment : Environment) (main : Function) (bound : Nat) :
    Eval Value := do
  execGlobals environment (environment.callWithin bound) environment.globals
  let flow ← execAll environment (environment.callWithin bound) bound main.result
    main.declaration.body.statements
  flow.returned main

/-- What running a program comes to within a bound, and what is known then. -/
def Environment.outcome (environment : Environment) (main : Function) (bound : Nat) :
    Except Stop Value × Store :=
  (environment.execMain main bound).run.run environment.store

/-- How a program ends, and what was printed until then. -/
inductive Ending where
  /-- Main returns a value with some words. -/
  | returned (words : List Word) (output : Array UInt8)
  /-- An integer is divided by zero. -/
  | divided (output : Array UInt8)
  deriving DecidableEq, Repr

/-- Running a program within a bound ends so. -/
def Environment.EndsWithin (environment : Environment) (main : Function) (bound : Nat) :
    Ending → Prop
  | .returned words output => ∃ value store,
      environment.outcome main bound = (.ok value, store) ∧ value.words = words ∧
        store.output = output
  | .divided output => ∃ store,
      environment.outcome main bound = (.error .divided, store) ∧ store.output = output

/-- Running a program ends so. -/
def Environment.Ends (environment : Environment) (main : Function) (ending : Ending) : Prop :=
  ∃ bound, environment.EndsWithin main bound ending

end TinLang
