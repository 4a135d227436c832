import TinLang.FileSystem
import TinLang.Machine.Arithmetic
import TinLang.Program.Basic

/-!
# The machine

The state of a running program, and the primitive operations that instructions are made of. An
operation changes the state and may end in a fault; what it changed before the fault stays.
-/
namespace TinLang

/-- The limits of a run. -/
structure Settings where
  /-- The size of the stack; the default when it is not positive. -/
  stackSize : Int := 0
  /-- The most bytes that may be live on the heap; zero stands for the default. -/
  heapLimit : Int := 0
  /-- The number of instructions after which the run stops; zero stands for no limit. -/
  maxSteps : Nat := 0
  /-- Every executed instruction is traced. -/
  trace : Bool := false
  /-- Programs may not read or write files. -/
  noFiles : Bool := false
  deriving DecidableEq, Repr

/-- The stack size that applies. -/
def Settings.effectiveStackSize (settings : Settings) : Nat :=
  if settings.stackSize ≤ 0 then Memory.defaultStackSize
  else min settings.stackSize.toNat Memory.maxStackSize

/-- The state of a running program. -/
structure Machine where
  /-- The register file. -/
  registers : Vector Word 12
  /-- The guest memory. -/
  memory : Memory
  /-- The index of the piece being executed. -/
  piece : Nat
  /-- The program has not ended. -/
  running : Bool
  /-- How many instructions were executed. -/
  steps : Nat
  /-- How many native calls failed without a fault. -/
  softErrors : Nat
  /-- What the program has printed. -/
  output : Array UInt8
  /-- The files that the program can reach. -/
  files : FileSystem

/-- An operation of the machine. -/
abbrev Exec := ExceptT FaultCause (StateM Machine)

namespace Machine

/-- The slot of the register that carries results. -/
def slotA : Fin 12 := ⟨1, by decide⟩

/-- The slot of the stack pointer. -/
def slotSP : Fin 12 := ⟨7, by decide⟩

/-- The slot of the base pointer. -/
def slotBP : Fin 12 := ⟨8, by decide⟩

/-- The slot of the counter. -/
def slotPC : Fin 12 := ⟨9, by decide⟩

/-- The space that a call takes below the arguments: counter, piece and base pointer. -/
def frameHeader : Nat := 16

/-- The value of a register. -/
def get (slot : Fin 12) : Exec Word := do
  let machine ← getThe Machine
  return machine.registers.get slot

/-- Registers with another value in one slot. -/
def assign {size : Nat} (registers : Vector Word size) (slot : Fin size) (value : Word) :
    Vector Word size :=
  registers.set slot value

/-- Set a register. -/
def put (slot : Fin 12) (value : Word) : Exec Unit :=
  modify fun machine => { machine with registers := assign machine.registers slot value }

/-- Change the guest memory, or fault when the change is refused. -/
def changeMemory (change : Memory → Option Memory) (cause : FaultCause) : Exec Unit := do
  let machine ← getThe Machine
  match change machine.memory with
  | some memory => set { machine with memory }
  | none => throw cause

/-- The bytes of a range, or an access fault. -/
def readBytes (address : Word) (count : Int) : Exec Text := do
  let machine ← getThe Machine
  match machine.memory.read? address.toNat count with
  | some bytes => return bytes
  | none => throw (.access address.toNat count)

/-- Write bytes at an address, or an access fault. -/
def writeBytes (address : Word) (bytes : Text) : Exec Unit :=
  changeMemory (·.write? address.toNat bytes) (.access address.toNat bytes.length)

/-- The word of some size at an address. -/
def load (address : Word) (size : AccessSize) : Exec Word := do
  let machine ← getThe Machine
  match machine.memory.load? address.toNat size with
  | some word => return word
  | none => throw (.access address.toNat size.bytes)

/-- Store the low bytes of a word at an address. -/
def store (address : Word) (size : AccessSize) (value : Word) : Exec Unit :=
  changeMemory (·.store? address.toNat size value) (.access address.toNat size.bytes)

/-- The access size of a modifier, or a fault. -/
def accessSize (modifier : UInt8) : Exec AccessSize :=
  match AccessSize.ofCode? modifier with
  | some size => return size
  | none => throw (.undefinedSize modifier)

/-- The string at an address, which a zero has to end. -/
def loadString (address : Word) : Exec Text := do
  let machine ← getThe Machine
  match machine.memory.string address.toNat with
  | .ok text => return text
  | .error place => throw (.access place 1)

/-- Push a word on the stack. -/
def push (value : Word) : Exec Unit := do
  let pointer ← get slotSP
  let top := (← getThe Machine).memory.stackTop
  if pointer.toNat < Memory.stackBase + 8 ∨ top < pointer.toNat then throw .pushOverflow
  store (pointer - 8) .eight value
  put slotSP (pointer - 8)

/-- Pop a word from the stack. -/
def pop : Exec Word := do
  let pointer ← get slotSP
  let top := (← getThe Machine).memory.stackTop
  if pointer.toNat < Memory.stackBase ∨ top < (pointer + 8).toNat then throw .popUnderflow
  let value ← load pointer .eight
  put slotSP (pointer + 8)
  return value

/-- Fault when the stack pointer is outside the stack. -/
def checkPointer : Exec Unit := do
  let pointer := (← get slotSP).toInt
  let top := (← getThe Machine).memory.stackTop
  if pointer < Memory.stackBase then throw (.pointerBelow pointer)
  if (top : Int) < pointer then throw (.pointerAbove pointer)

/-- Set a register; the stack pointer has to stay in the stack. -/
def putChecked (slot : Fin 12) (value : Word) : Exec Unit := do
  put slot value
  if slot = slotSP then checkPointer

/-- Print bytes. -/
def print (text : Text) : Exec Unit :=
  modify fun machine => { machine with output := machine.output ++ text }

/-- Count a native call that failed without a fault. -/
def countSoftError : Exec Unit :=
  modify fun machine => { machine with softErrors := machine.softErrors + 1 }

end Machine

end TinLang
