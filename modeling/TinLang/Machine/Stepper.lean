import TinLang.Machine.Dump
import TinLang.Text.Lines

/-!
# Stepping

A stepper drives a run one instruction at a time from a text of commands. Before every step it
shows the instruction and reads commands until one lets the machine go on. When the commands are
used up, or one says so, it lets the machine run to its end.
-/
namespace TinLang

/-- The state of a stepper. -/
structure Stepper where
  /-- The commands not read yet. -/
  input : Text
  /-- The machine runs without stopping. -/
  going : Bool := false
  deriving Repr

/-- What a command asks for. -/
inductive StepCommand where
  | advance
  | showRegisters
  | showFrame
  | showStack
  | resume
  | help
  | unknown (text : Text)
  deriving DecidableEq, Repr

namespace StepCommand

/-- The command of a line. -/
def ofLine (line : Text) : StepCommand :=
  let text := line.trim
  if text = [] then .advance
  else if text = "l" then .showRegisters
  else if text = "f" then .showFrame
  else if text = "s" then .showStack
  else if text = "c" then .resume
  else if text = "help" then .help
  else .unknown text

/-- The list of commands. -/
def helpText : Text :=
  "commands:\n  (empty)  execute the next instruction\n  l        show the registers\n" ++
    "  f        show the current frame\n  s        show the stack\n" ++
    "  c        continue without stopping\n  help     show this list\n"

end StepCommand

namespace Stepper

/-- Read commands until one lets the machine go on, at most as many as the bound: the stepper
after them, what it showed, and the error of a line that is too long. -/
def converse (program : Program) (machine : Machine) : (bound : Nat) → Stepper →
    Stepper × Text × Option Text
  | 0, stepper => (stepper, [], none)
  | bound + 1, stepper =>
    match stepper.input.nextLine? with
    | .error long => ({ stepper with going := true }, "> \n", some long.message)
    | .ok none => ({ stepper with going := true }, "> \n", none)
    | .ok (some (line, rest)) =>
      let next := { stepper with input := rest }
      let goOn (shown : Text) : Stepper × Text × Option Text :=
        let (last, later, error) := converse program machine bound next
        (last, "> " ++ shown ++ later, error)
      match StepCommand.ofLine line with
      | .advance => (next, "> ", none)
      | .resume => ({ next with going := true }, "> ", none)
      | .showRegisters => goOn (machine.dumpRegisters program)
      | .showFrame => goOn (machine.dumpFrame 32 32)
      | .showStack => goOn machine.dumpStack
      | .help => goOn StepCommand.helpText
      | .unknown text => goOn ("unknown command " ++ text.quoted ++ ", try help\n")

/-- Look at the machine before a step: the stepper after it, what it showed, and an error that
stops the run. -/
def before (program : Program) (machine : Machine) (stepper : Stepper) :
    Stepper × Text × Option Text :=
  if stepper.going then (stepper, [], none)
  else
    let cell := machine.counter
    let shown : Text :=
      if cell < (machine.code program).size then machine.traceLine program cell else []
    let (last, session, error) := stepper.converse program machine (stepper.input.length + 1)
    (last, shown ++ session, error)

end Stepper

end TinLang
