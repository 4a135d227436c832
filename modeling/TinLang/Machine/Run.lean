import TinLang.Machine.Step

/-!
# Runs

A run executes a linked program from its main piece until the program ends, a step faults, the
step limit is reached or a watcher stops it. A watcher is told before every step and after every
executed instruction; it keeps a state of its own and cannot change the machine.
-/
namespace TinLang

/-- Why a program cannot be started. -/
inductive StartError where
  | notLinked
  | noMain
  | emptyMain
  deriving DecidableEq, Repr

/-- The message of a program that cannot be started. -/
def StartError.message : StartError → Text
  | .notLinked => "VM: program is not linked"
  | .noMain => "VM: main was not found"
  | .emptyMain => "VM: 'main' has no instructions"

/-- Why a run ended before the program did. -/
inductive StopReason where
  | fault (refusal : Fault)
  | stepLimit (limit : Nat)
  /-- The watcher stopped the run. -/
  | stopped (message : Text)
  /-- The bound of the execution function was used up. -/
  | unfinished
  deriving DecidableEq, Repr

/-- The message of a run that ended early. -/
def StopReason.message : StopReason → Text
  | .fault refusal => refusal.message
  | .stepLimit limit => "VM: step limit reached (" ++ Text.ofNat limit ++ ")"
  | .stopped message => message
  | .unfinished => "VM: run did not finish"

/-- Somebody who looks at a run. -/
structure Watcher (σ : Type) where
  /-- Look at the machine before a step; a message stops the run. -/
  before : Machine → σ → σ × Option Text
  /-- Look at an executed instruction: the machine before it, and whether it completed. -/
  executed : Machine → Fetched → (completed : Bool) → σ → σ

/-- Nobody looks. -/
def Watcher.none : Watcher Unit := ⟨fun _ _ => ((), .none), fun _ _ _ _ => ()⟩

namespace Machine

/-- The machine at the start of a piece. -/
def start (program : Program) (settings : Settings) (files : FileSystem) (main : Nat) : Machine :=
  let memory := Memory.initial settings.effectiveStackSize program.data
    { limit := settings.heapLimit }
  let top := BitVec.ofNat 64 memory.stackTop
  let registers := assign (assign (Vector.replicate 12 (0 : Word)) slotSP top) slotBP top
  ⟨registers, memory, main, true, 0, 0, #[], files⟩

/-- The machine at the start of a program's main piece. -/
def start? (program : Program) (settings : Settings) (files : FileSystem) :
    Except StartError Machine :=
  if program.linked then
    match program.lookup? "main" with
    | none => .error .noMain
    | some main =>
      if ((program.pieces[main]?).map Piece.size).getD 0 = 0 then .error .emptyMain
      else .ok (start program settings files main)
  else .error .notLinked

/-- Run the machine for at most `bound` rounds. -/
def runWithin {σ : Type} (program : Program) (settings : Settings) (watcher : Watcher σ) :
    (bound : Nat) → Machine → σ → Machine × Option StopReason × σ
  | 0, machine, seen => (machine, some .unfinished, seen)
  | bound + 1, machine, seen =>
    if machine.running then
      if 0 < settings.maxSteps ∧ settings.maxSteps ≤ machine.steps then
        (machine, some (.stepLimit settings.maxSteps), seen)
      else
        match watcher.before machine seen with
        | (seen, some message) => (machine, some (.stopped message), seen)
        | (seen, none) =>
          let (after, fault) := machine.step program settings
          let seen := match machine.fetch program with
            | (_, .ok fetched) => watcher.executed machine fetched fault.isNone seen
            | (_, .error _) => seen
          match fault with
          | some fault => ({ after with running := false }, some (.fault fault), seen)
          | none => runWithin program settings watcher bound after seen
    else (machine, none, seen)

/-- A bound on the rounds of a run that no host lives to see the end of. -/
def endless : Nat := 0x4000000000000000

/-- Run the machine to its end. A step limit bounds the rounds; without one, `endless` does. -/
def run {σ : Type} (program : Program) (settings : Settings) (watcher : Watcher σ)
    (machine : Machine) (seen : σ) : Machine × Option StopReason × σ :=
  let bound := if settings.maxSteps = 0 then endless else settings.maxSteps + 2
  machine.runWithin program settings watcher bound seen

end Machine

end TinLang
