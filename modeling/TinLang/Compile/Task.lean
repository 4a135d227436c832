import TinLang.Compile.Problem
import TinLang.Program.Basic

/-!
# Tasks

The files of a program are read, and its functions generated, at the same time. A task is one such
part of a build, cut at the points where it touches what all parts share: it reports a diagnostic,
or it stores a string in the data segment and learns its offset. What it does between these points
concerns nobody else.
-/
namespace TinLang

/-- A part of a build that is worked on beside others. -/
inductive Task (α : Type) where
  /-- The part is finished. -/
  | done (result : α)
  /-- Report a diagnostic and go on. -/
  | report (diagnostic : Diagnostic) (rest : Task α)
  /-- Store a string in the data segment and go on with its offset. -/
  | intern (text : Text) (rest : Int → Task α)

/-- What all tasks of a build share. -/
structure Shared where
  /-- The program, whose data segment holds the string literals. -/
  program : Program := {}
  /-- The diagnostics in the order they were reported. -/
  diagnostics : Array Diagnostic := #[]

namespace Task

variable {α β : Type}

/-- One task after another. -/
def andThen : Task α → (α → Task β) → Task β
  | .done result, next => next result
  | .report diagnostic rest, next => .report diagnostic (rest.andThen next)
  | .intern text rest, next => .intern text fun offset => (rest offset).andThen next

instance : Monad Task where
  pure := .done
  bind := andThen

/-- Report some diagnostics, then finish. -/
def reporting (result : α) : List Diagnostic → Task α
  | [] => .done result
  | diagnostic :: diagnostics => .report diagnostic (reporting result diagnostics)

/-- Work on a task to its end. -/
def run : Task α → Shared → α × Shared
  | .done result, shared => (result, shared)
  | .report diagnostic rest, shared =>
    rest.run { shared with diagnostics := shared.diagnostics.push diagnostic }
  | .intern text rest, shared =>
    let (program, offset) := shared.program.intern text
    (rest offset).run { shared with program }

/-- Work on tasks one after another, each to its end. -/
def runAll : List (Task α) → Shared → List α × Shared
  | [], shared => ([], shared)
  | task :: tasks, shared =>
    let (result, shared) := task.run shared
    let (results, shared) := runAll tasks shared
    (result :: results, shared)

end Task

end TinLang
