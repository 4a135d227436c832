import TinLang.Listing
import TinLang.Machine.Step

/-!
# Dumps and traces

How a machine is shown: its registers, the words of its stack and of its current frame, and the
instruction at a cell together with its source line.
-/
namespace TinLang.Machine

/-- A word with all its hexadecimal digits. -/
def wordText (word : Word) : Text := Text.zeroFill 16 (Text.hex word.toNat)

/-- The line of a register. -/
def registerLine (registers : Vector Word 12) (register : Register) : Text :=
  match register.slot? with
  | some slot =>
    let word := registers.get slot
    Text.padRight 3 register.name ++ " = 0x" ++ wordText word ++ " (" ++ Text.ofInt word.toInt ++
      ")\n"
  | none => []

/-- The lines of all registers that programs may name. -/
def registerLines (registers : Vector Word 12) : Text :=
  Register.named.flatMap (registerLine registers)

/-- The registers and the piece being executed. -/
def dumpRegisters (program : Program) (machine : Machine) : Text :=
  let piece : Text := match program.pieces[machine.piece]? with
    | some piece => "piece = " ++ piece.name ++ " (" ++ Text.ofNat machine.piece ++ ")\n"
    | none => []
  registerLines machine.registers ++ piece

/-- What marks a word that a pointer points to. -/
def marker (machine : Machine) (address : Word) : Text :=
  let atStack := address = machine.registers.get slotSP
  let atBase := address = machine.registers.get slotBP
  if atStack ∧ atBase then " <- sp, bp" else if atStack then " <- sp" else if atBase then " <- bp"
  else []

/-- The words from an address on that end at or before another, at most as many as the bound, up
to the first that is not addressable. -/
def dumpWords (machine : Machine) : (bound : Nat) → (address : Word) → (stop : Nat) → Text
  | 0, _, _ => []
  | bound + 1, address, stop =>
    if stop < (address + 8).toNat then []
    else match machine.memory.load? address.toNat .eight with
      | none => []
      | some word =>
        "0x" ++ Text.zeroFill 8 (Text.hex address.toNat) ++ ": " ++ wordText word ++
          machine.marker address ++ "\n" ++ dumpWords machine bound (address + 8) stop

/-- A bound on the words that one region holds below the top of the stack. -/
def wordBound (machine : Machine) : Nat := machine.memory.stackSize / 8 + 2

/-- The stack from the stack pointer to the top. -/
def dumpStack (machine : Machine) : Text :=
  machine.dumpWords machine.wordBound (machine.registers.get slotSP) machine.memory.stackTop

/-- The frame: some bytes below the base pointer and some above, kept inside the stack. -/
def dumpFrame (machine : Machine) (below above : Int) : Text :=
  let base := machine.registers.get slotBP
  let low := base - BitVec.ofInt 64 below
  let low : Word :=
    if below < 0 ∨ base.toNat < low.toNat ∨ low.toNat < Memory.stackBase then
      BitVec.ofNat 64 Memory.stackBase
    else low
  let high := (base + BitVec.ofInt 64 above).toNat
  machine.dumpWords machine.wordBound low (min high machine.memory.stackTop)

/-- The instruction at a cell of the current piece, with its source line if it has one. -/
def traceLine (program : Program) (machine : Machine) (cell : Int) : Text :=
  match program.pieces[machine.piece]? with
  | none => []
  | some piece =>
    let shown := Listing.cellText (some program) program.targets piece cell
    match piece.line? cell with
    | some line =>
      Text.padRight 16 piece.name ++ " " ++ Text.padRight 40 shown ++ " ; " ++
        Text.ofInt line.number ++ ": " ++ line.text ++ "\n"
    | none => Text.padRight 16 piece.name ++ " " ++ shown ++ "\n"

end TinLang.Machine
