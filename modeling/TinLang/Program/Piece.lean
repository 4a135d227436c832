import TinLang.Code.Cell

/-!
# Pieces

A piece is the code of one function together with what is known about it: which source line each
cell came from, which call immediates wait for the linker, and how far the code emitted so far
moves the stack pointer. A pop right after a push of the same register cancels it, unless a label
stands between them; `barrier` is the lowest cell that may be removed this way.
-/
namespace TinLang

/-- A line of source text that code came from. -/
structure SourceLine where
  /-- The line number. -/
  number : Int
  /-- The text of the line. -/
  text : Text
  deriving DecidableEq, Repr, Inhabited

/-- A call immediate that the linker fills in. -/
structure Relocation where
  /-- The index of the call target among the program's targets, if it has one. -/
  target : Option Nat
  /-- The cell of the immediate. -/
  cell : Nat
  deriving DecidableEq, Repr

/-- The code of one function. -/
structure Piece where
  /-- The name of the function. -/
  name : Text
  /-- Its cells. -/
  code : Code := #[]
  /-- The call immediates to fill in. -/
  relocations : List Relocation := []
  /-- The source lines that cells refer to. -/
  lines : Array SourceLine := #[]
  /-- For each cell the index of its line, if it has one. -/
  lineOf : Array (Option Nat) := #[]
  /-- The line of the cells emitted next. -/
  currentLine : Option Nat := none
  /-- How far the code moves the stack pointer. -/
  depth : Int := 0
  /-- The lowest cell that a cancelling pop may remove. -/
  barrier : Nat := 0
  deriving Repr

namespace Piece

/-- The number of cells. -/
def size (piece : Piece) : Nat := piece.code.size

/-- The piece whose next cells belong to a source line. A line with the number of the latest one
is the latest one. -/
def setLine (piece : Piece) (number : Int) (text : Text) : Piece :=
  match piece.lines.back? with
  | some latest =>
    if latest.number = number then { piece with currentLine := some (piece.lines.size - 1) }
    else { piece with
      lines := piece.lines.push ⟨number, text⟩, currentLine := some piece.lines.size }
  | none => { piece with lines := #[⟨number, text⟩], currentLine := some 0 }

/-- The source line of a cell, if it has one. -/
def line? (piece : Piece) (index : Int) : Option SourceLine := do
  if index < 0 then none else
    let line ← (← piece.lineOf[index.toNat]?)
    piece.lines[line]?

/-- The piece with one more cell. -/
def push (piece : Piece) (cell : Cell) : Piece :=
  { piece with code := piece.code.push cell, lineOf := piece.lineOf.push piece.currentLine }

/-- The piece with only its first cells. -/
def truncate (piece : Piece) (count : Nat) : Piece :=
  { piece with code := piece.code.take count, lineOf := piece.lineOf.take count }

/-- A pop of a register would cancel the last cell. -/
def cancels (piece : Piece) (register : Register) : Bool :=
  decide (piece.barrier < piece.size) &&
    match piece.code.back? with
    | some (.instruction last) => decide (last.op = .push ∧ last.first = register)
    | _ => false

/-- Cancelling the last cell would cut the line table past its end, which can only happen when
the code was replaced as a whole. -/
def cancelsPastLines (piece : Piece) (instruction : Instruction) : Bool :=
  decide (instruction.op = .pop) && piece.cancels instruction.first &&
    decide (piece.lineOf.size < piece.size - 1)

/-- The piece after a register instruction, and the cell of the instruction. -/
def emit (piece : Piece) (instruction : Instruction) : Piece × Nat :=
  match instruction.op with
  | .push => ({ piece with depth := piece.depth - 8 }.push (.instruction instruction), piece.size)
  | .pop =>
    let moved := { piece with depth := piece.depth + 8 }
    if piece.cancels instruction.first then (moved.truncate (piece.size - 1), piece.size - 1)
    else (moved.push (.instruction instruction), piece.size)
  | _ => (piece.push (.instruction instruction), piece.size)

/-- The piece after an instruction and its immediate, and the cell of the immediate. -/
def emitImmediate (piece : Piece) (instruction : Instruction) (value : BitVec 32) : Piece × Nat :=
  let moved := if instruction.op = .increase ∧ instruction.first = .stackPointer then
      { piece with depth := piece.depth + value.toInt }
    else piece
  ((moved.push (.instruction instruction)).push (.immediate value), piece.size + 1)

/-- The piece after a push of a register. -/
def emitPush (piece : Piece) (register : Register) : Piece :=
    (piece.emit ⟨.push, register, .unused, 0⟩).1

/-- The piece after a pop of a register. -/
def emitPop (piece : Piece) (register : Register) : Piece :=
    (piece.emit ⟨.pop, register, .unused, 0⟩).1

/-- The piece after a jump whose distance is not known yet, and the cell to fix later. -/
def emitJump (piece : Piece) (op : Opcode) (register : Register) : Piece × Nat :=
  piece.emitImmediate ⟨op, register, .unused, 0⟩ 0

/-- The piece with a label at its end; no earlier cell may be removed any more. -/
def label (piece : Piece) : Piece × Nat := ({ piece with barrier := piece.size }, piece.size)

/-- The piece whose jump at an immediate cell leads to the end of the code, and whether the cell
holds an immediate. The distance counts from the immediate. -/
def fixJump (piece : Piece) (cell : Int) : Piece × Bool :=
  let labelled := piece.label.1
  match piece.code.patch? cell (BitVec.ofInt 32 (piece.size - cell)) with
  | some code => ({ labelled with code }, true)
  | none => (labelled, false)

/-- The piece after a jump to an earlier label. -/
def emitJumpBack (piece : Piece) (op : Opcode) (register : Register) (target : Int) : Piece :=
  let jump := piece.push (.instruction ⟨op, register, .unused, 0⟩)
  jump.push (.immediate (BitVec.ofInt 32 (target - jump.size)))

/-- The piece after a call of a target that the linker resolves. -/
def emitCall (piece : Piece) (target : Option Nat) : Piece :=
  let (called, cell) := piece.emitImmediate ⟨.call, .unused, .unused, 0⟩ 0
  { called with relocations := called.relocations ++ [⟨target, cell⟩] }

/-- The piece after a call of a native. -/
def emitNativeCall (piece : Piece) (id : Int) : Piece :=
  (piece.emitImmediate ⟨.call, .unused, .unused, 0⟩ (BitVec.ofInt 32 id)).1

/-- The opcode of the last instruction, its immediate passed over. -/
def lastOp? (piece : Piece) : Option Opcode :=
  let last : Int := piece.size - 1
  let index := if (piece.code.immediate? last).isSome then last - 1 else last
  (piece.code.instruction? index).map Instruction.op

end Piece

end TinLang
