import TinLang.Machine.Profile
import TinLang.Machine.Run
import TinLang.Machine.Stepper

/-!
# Watched runs

The watchers that a run can have, all at once: a trace of every executed instruction, a profile,
a stepper, and a stop after a number of instructions. What the trace and the stepper write is kept
in one sequence, so that it can be shown together or apart.
-/
namespace TinLang

/-- Who wrote a note. -/
inductive NoteSource where
  | trace
  | stepper
  deriving DecidableEq, Repr

/-- What a run is watched with, and what was seen. -/
structure Session where
  /-- Every executed instruction is noted. -/
  tracing : Bool := false
  /-- The counts, if they are wanted. -/
  profile : Option Profile := none
  /-- The stepper, if there is one. -/
  stepper : Option Stepper := none
  /-- How many more steps are allowed, if they are counted. -/
  allowance : Option Nat := none
  /-- The notes so far. -/
  notes : Array (NoteSource × Text) := #[]

namespace Session

/-- The notes of one source, one after another. -/
def textOf (session : Session) (source : NoteSource) : Text :=
  session.notes.toList.flatMap fun (wrote, text) => if wrote = source then text else []

/-- All notes, one after another. -/
def text (session : Session) : Text := session.notes.toList.flatMap Prod.snd

/-- Look at the machine before a step. -/
def before (program : Program) (machine : Machine) (session : Session) :
    Session × Option Text :=
  match session.stepper, session.allowance with
  | some stepper, _ =>
    let (stepper, shown, error) := stepper.before program machine
    ({ session with
      stepper := some stepper, notes := session.notes.push (.stepper, shown) }, error)
  | none, some 0 => (session, some "stopped by hook")
  | none, some (left + 1) => ({ session with allowance := some left }, none)
  | none, none => (session, none)

/-- The name of the piece that an instruction calls. -/
def callee? (program : Program) (fetched : Fetched) : Option Text :=
  if fetched.instruction.op = .call ∧ 0 < fetched.immediate.toInt then
    (program.pieces[(fetched.immediate.toInt - 1).toNat]?).map Piece.name
  else none

/-- Count an executed instruction, and the call that it completed. -/
def count (program : Program) (fetched : Fetched) (completed : Bool) (profile : Profile) :
    Profile :=
  let counted := profile.countInstruction fetched.instruction.op
  match callee? program fetched with
  | some name => if completed then (counted.countCall name).1 else counted
  | none => counted

/-- Look at an executed instruction. -/
def executed (program : Program) (machine : Machine) (fetched : Fetched) (completed : Bool)
    (session : Session) : Session :=
  let notes := if session.tracing then
      session.notes.push (.trace, machine.traceLine program machine.counter)
    else session.notes
  { session with notes, profile := session.profile.map (count program fetched completed) }

/-- The watcher of a session. -/
def watcher (program : Program) : Watcher Session := ⟨before program, executed program⟩

/-- Run a program from its main piece, watched by the session. -/
def run (session : Session) (program : Program) (settings : Settings) (files : FileSystem) :
    Except StartError (Machine × Option StopReason × Session) := do
  let machine ← Machine.start? program settings files
  return machine.run program settings (watcher program) session

end Session

end TinLang
