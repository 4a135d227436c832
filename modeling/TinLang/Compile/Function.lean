import TinLang.Compile.Statement

/-!
# Code of functions

The code of a function is its body, in one scope with its parameters. Main first gives the global
variables their initial values. Every path ends in a return.
-/
namespace TinLang.Generate

/-- Declare the parameters, which lie above the saved registers of the caller. -/
def declareParameters (function : Function) : List Parameter → Generate Unit
  | [] => return ()
  | parameter :: parameters => do
    declare function.declaration.span parameter.name
      (.variable parameter.type (16 + parameter.offset))
    declareParameters function parameters

/-- Store the initial value of a global variable. -/
def initialGlobal (place : Global) (value : Expr) : Generate Unit := do
  setLine place.declaration.span.start.line
  let given ← coerce (← expr value) (some place.type)
  if ← fits value.span (some place.type) given (.globalValue place.name) then
    setDataAddress .b place.offset
    popTo .b 0 (some place.type)
  else discard given

/-- Store the initial values of global variables in the order of declaration. Those without one
stay zero. -/
def initialGlobals : List Global → Generate Unit
  | [] => return ()
  | place :: places => do
    match place.declaration.value with
    | none => pure ()
    | some value =>
      let outer := (← get).file
      modify fun generator => { generator with file := place.file }
      initialGlobal place value
      modify fun generator => { generator with file := outer }
    initialGlobals places

/-- The code so far does not end in a return, or a jump lands behind it. -/
def needsReturn : Generate Bool := do
  let generator ← get
  return decide (generator.piece.lastOp? ≠ some .giveBack) ||
    decide (generator.landing = generator.piece.size)

/-- Generate a function. -/
def function : Generate Unit := do
  let function := (← read).function
  let declaration := function.declaration
  openScope
  declareParameters function function.params
  setLine declaration.span.start.line
  if function.name = "main" then initialGlobals (← environment).globals
  let depth := (← get).frame
  let terminated ← statements declaration.body.statements
  endStatements depth terminated
  if ← needsReturn then
    if !function.result.isVoid then report declaration.span (.missingReturn function.name)
    setLine declaration.body.span.stop.line
    emit .giveBack .unused .unused
  closeScope

end TinLang.Generate

namespace TinLang

/-- The task of generating a function. -/
def Function.generate (function : Function) (environment : Environment) : Task Piece := do
  let start : Generator := { piece := { name := function.name }, file := function.file }
  let (_, finish) ← Generate.function ⟨environment, function⟩ start
  return finish.piece

end TinLang
