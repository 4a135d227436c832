import TinLang.Machine.Natives

/-!
# Steps

One step fetches the instruction at the counter, moves the counter past it and its immediate, and
executes it. Fetching refuses a counter outside the piece, a missing immediate and registers that
do not exist, and a step counts as executed only when fetching succeeds.
-/
namespace TinLang

/-- An instruction ready to execute. -/
structure Fetched where
  /-- The instruction. -/
  instruction : Instruction
  /-- Its immediate, zero when it has none. -/
  immediate : BitVec 32
  /-- The slot of its first operand. -/
  first : Fin 12
  /-- The slot of its second operand. -/
  second : Fin 12
  deriving DecidableEq, Repr

namespace Machine

/-- The code of the piece being executed. -/
def code (program : Program) (machine : Machine) : Code :=
  ((program.pieces[machine.piece]?).map Piece.code).getD #[]

/-- The cell of the next instruction. -/
def counter (machine : Machine) : Int := (machine.registers.get slotPC).toInt

/-- How far the counter moves in a fetch, and the instruction or why there is none. -/
def fetch (program : Program) (machine : Machine) : Nat × Except FaultCause Fetched :=
  let code := machine.code program
  let counter := machine.counter
  match code.instruction? counter with
  | none => (0, .error (.noInstruction counter code.size))
  | some instruction =>
    let operand? : Option (BitVec 32) :=
      if instruction.op.hasImmediate then code.immediate? (counter + 1) else some 0
    match operand? with
    | none => (1, .error (.missingImmediate instruction.op))
    | some immediate =>
      let width := if instruction.op.hasImmediate then 2 else 1
      match instruction.first.slot?, instruction.second.slot? with
      | some first, some second => (width, .ok ⟨instruction, immediate, first, second⟩)
      | _, _ => (width, .error (.undefinedRegister instruction))

/-- Move the counter by a distance. -/
def jump (distance : Word) : Exec Unit := do put slotPC ((← get slotPC) + distance)

/-- Call the piece at an index: save the counter, the piece and the base pointer below the stack
pointer and start a frame there. -/
def callPiece (index : Nat) (callee : Piece) : Exec Unit := do
  let pointer ← get slotSP
  if pointer.toNat < Memory.stackBase + frameHeader then throw (.callOverflow callee.name)
  store (pointer - 4) .four (← get slotPC)
  store (pointer - 8) .four (BitVec.ofNat 64 (← getThe Machine).piece)
  store (pointer - 16) .eight (← get slotBP)
  put slotSP (pointer - 16)
  put slotBP (pointer - 16)
  put slotPC 0
  modify fun machine => { machine with piece := index }

/-- Call what an immediate names: a native below zero, a piece above. -/
def call (program : Program) (settings : Settings) (immediate : Int) : Exec Unit :=
  if immediate < 0 then
    match Native.ofId? immediate with
    | some native => callNative settings native
    | none => throw (.noNative immediate)
  else if immediate = 0 then throw (.noPiece immediate)
  else match program.pieces[(immediate - 1).toNat]? with
    | some callee => callPiece (immediate - 1).toNat callee
    | none => throw (.noPiece immediate)

/-- Return to the saved frame, or end the program from the outermost one. -/
def giveBack (program : Program) : Exec Unit := do
  let pointer ← get slotSP
  let base ← get slotBP
  if pointer ≠ base then throw (.unequalPointers pointer.toInt base.toInt)
  let top := (← getThe Machine).memory.stackTop
  if pointer.toNat = top then modify fun machine => { machine with running := false }
  else
    if top < (pointer + 16).toNat then throw .returnUnderflow
    let savedBase ← load pointer .eight
    let piece := (← load (pointer + 8) .four).toInt
    let counter ← load (pointer + 12) .four
    if piece < 0 ∨ (program.pieces.size : Int) ≤ piece then throw (.returnOutside piece)
    put slotBP savedBase
    put slotSP (pointer + 16)
    put slotPC counter
    modify fun machine => { machine with piece := piece.toNat }

/-- Execute a fetched instruction. -/
def execute (program : Program) (settings : Settings) (fetched : Fetched) : Exec Unit :=
  let modifier := fetched.instruction.modifier
  let immediate : Word := fetched.immediate.signExtend 64
  match fetched.instruction.op with
  | .halt => modify fun machine => { machine with running := false }
  | .nop => return ()
  | .cast => do
    match Conversion.ofCode? modifier with
    | some conversion => put fetched.first (Arithmetic.convert conversion (← get fetched.first))
    | none => throw (.undefinedConversion modifier)
  | .move => do putChecked fetched.first (← get fetched.second)
  | .store => do
    store (← get fetched.first) (← accessSize modifier) (← get fetched.second)
  | .load => do
    put fetched.first (← load (← get fetched.second) (← accessSize modifier))
  | .push => do push (← get fetched.first)
  | .pop => do put fetched.first (← pop)
  | .not => do put fetched.first (Arithmetic.ofBool ((← get fetched.second) == 0))
  | .giveBack => giveBack program
  | .memzero => do
    let address ← get fetched.first
    let count := (← get fetched.second).toInt
    changeMemory (·.clear? address.toNat count) (.access address.toNat count)
  | .loadImmediate => put fetched.first immediate
  | .jump => jump (immediate - 1)
  | .jumpZero => do if (← get fetched.first) = 0 then jump (immediate - 1)
  | .call => call program settings fetched.immediate.toInt
  | .storeAt => do
    store ((← get fetched.first) + immediate) (← accessSize modifier) (← get fetched.second)
  | .loadAt => do
    put fetched.first (← load ((← get fetched.second) + immediate) (← accessSize modifier))
  | .dataPointer => put fetched.first (BitVec.ofNat 64 Memory.dataBase + immediate)
  | .increase => do putChecked fetched.first ((← get fetched.first) + immediate)
  | .undefined excess => throw (.undefinedOpcode (.undefined excess))
  | op => do
    match Arithmetic.apply op modifier (← get fetched.first) (← get fetched.second) with
    | .ok word => put fetched.first word
    | .error cause => throw cause

/-- A cause at the place of the next instruction. -/
def faultAt (program : Program) (machine : Machine) (cause : FaultCause) : Fault :=
  match program.pieces[machine.piece]? with
  | some piece => ⟨cause, piece.name, machine.counter, piece.line? machine.counter⟩
  | none => ⟨cause, [], machine.counter, none⟩

/-- One step: the state after it, and the fault if it ends in one. -/
def step (program : Program) (settings : Settings) (machine : Machine) :
    Machine × Option Fault :=
  let (width, fetched) := machine.fetch program
  let counter := machine.registers.get slotPC + BitVec.ofNat 64 width
  let moved := { machine with registers := assign machine.registers slotPC counter }
  match fetched with
  | .error cause => (moved, some (machine.faultAt program cause))
  | .ok fetched =>
    match (execute program settings fetched).run.run { moved with steps := moved.steps + 1 } with
    | (.ok _, after) => (after, none)
    | (.error cause, after) => (after, some (machine.faultAt program cause))

end Machine

end TinLang
