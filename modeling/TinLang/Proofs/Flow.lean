import TinLang.Code.Cell

/-!
# Control flow and the stack pointer

How control moves through the code of a function, and how far the stack pointer moves with it.
Pushes and pops move it by a word and additions of an immediate by the immediate; a call comes back
with the stack pointer it left with. Code is disciplined when every path from its start stays on
instructions and all paths to a cell move the stack pointer equally far.

A chart gives every cell the height at which it is reached. `Code.Charted` states what each
instruction asks of a chart, so that `Code.Charted.disciplined` needs only a look at every cell.
-/
namespace TinLang

/-- The instruction sets a register that it names as its destination, and does not check the
stack pointer. -/
def Opcode.setsFreely : Opcode → Bool
  | .cast | .load | .pop | .not | .loadImmediate | .loadAt | .dataPointer => true
  | op => op.isBinary

/-- The instruction may put the stack pointer anywhere. -/
def Instruction.strays (instr : Instruction) : Bool :=
  instr.op.setsFreely && decide (instr.first = .stackPointer)

/-- The instruction sets the stack pointer to something else than its sum with an immediate. -/
def Instruction.setsPointer (instr : Instruction) : Bool :=
  instr.strays || decide (instr.op = .move ∧ instr.first = .stackPointer)

/-- Control goes on behind the instruction. -/
def Opcode.falls : Opcode → Bool
  | .jump | .giveBack | .halt => false
  | _ => true

/-- Control may go to where the immediate leads. -/
def Opcode.leaps : Opcode → Bool
  | .jump | .jumpZero => true
  | _ => false

namespace Instruction

/-- The cells of the instruction and its immediate. -/
def width (instr : Instruction) : Nat := if instr.op.hasImmediate then 2 else 1

/-- How far the instruction with an immediate moves the stack pointer until control is behind
it. -/
def shift (instr : Instruction) (imm : BitVec 32) : Int :=
  match instr.op with
  | .push => -8
  | .pop => 8
  | .increase => if instr.first = .stackPointer then imm.toInt else 0
  | _ => 0

end Instruction

namespace Code

/-- An instruction stands at a cell, with its immediate behind it if it has one. -/
structure Stands (code : Code) (cell : Nat) (instr : Instruction) (imm : BitVec 32) :
    Prop where
  here : code[cell]? = some (.instruction instr)
  operand : instr.op.hasImmediate → code[cell + 1]? = some (.immediate imm)

/-- Control moves from a cell to another, and the stack pointer by a distance. -/
inductive Edge (code : Code) : Nat → Int → Int → Prop where
  | next {cell : Nat} {instr : Instruction} {imm : BitVec 32}
    (stands : code.Stands cell instr imm) (falls : instr.op.falls) :
    Edge code cell (cell + instr.width) (instr.shift imm)
  | leap {cell : Nat} {instr : Instruction} {imm : BitVec 32}
    (stands : code.Stands cell instr imm) (leaps : instr.op.leaps) :
    Edge code cell (cell + 1 + imm.toInt) 0

/-- A path from the start leads to a cell, and moves the stack pointer by a height. -/
inductive Reached (code : Code) : Int → Int → Prop where
  | start : Reached code 0 0
  | step {cell : Nat} {height next move : Int} (reached : Reached code cell height)
    (edge : code.Edge cell next move) : Reached code next (height + move)

/-- All paths from the start stay on instructions and agree on the stack pointer. -/
structure Disciplined (code : Code) : Prop where
  /-- A path leads to an instruction with its immediate, and so never past the last cell. -/
  inside : ∀ cell height, code.Reached cell height →
    ∃ (index : Nat) (instr : Instruction) (imm : BitVec 32),
      cell = index ∧ code.Stands index instr imm
  /-- A jump, reached or not, lands on an instruction. -/
  lands : ∀ (cell : Nat) instr imm, code.Stands cell instr imm →
    instr.op.leaps → ∃ (target : Nat) (other : Instruction),
      (target : Int) = cell + 1 + imm.toInt ∧ code[target]? = some (.instruction other)
  unique : ∀ cell height other, code.Reached cell height → code.Reached cell other →
    height = other
  below : ∀ cell height, code.Reached cell height → height ≤ 0
  /-- A return gives back all of the frame. -/
  returns : ∀ (cell : Nat) height instr, code.Reached cell height →
    code[cell]? = some (.instruction instr) → instr.op = .giveBack → height = 0
  /-- Only pushes, pops and additions set the stack pointer. -/
  pointer : ∀ (cell : Nat) instr, code[cell]? = some (.instruction instr) →
    instr.setsPointer = false

/-- The levels of the cells agree with every instruction of the code. -/
structure Charted (code : Code) (level : Nat → Int) : Prop where
  start : level 0 = 0
  first : ∃ instr, code[0]? = some (.instruction instr)
  operand : ∀ (cell : Nat) instr, code[cell]? = some (.instruction instr) →
    ∃ imm, code.Stands cell instr imm
  below : ∀ (cell : Nat) instr, code[cell]? = some (.instruction instr) →
    level cell ≤ 0
  next : ∀ (cell : Nat) instr imm, code.Stands cell instr imm →
    instr.op.falls →
      level (cell + instr.width) = level cell + instr.shift imm ∧
        ∃ other, code[cell + instr.width]? = some (.instruction other)
  leap : ∀ (cell : Nat) instr imm, code.Stands cell instr imm →
    instr.op.leaps → ∃ (target : Nat) (other : Instruction),
      (target : Int) = cell + 1 + imm.toInt ∧ level target = level cell ∧
        code[target]? = some (.instruction other)
  returns : ∀ (cell : Nat) instr, code[cell]? = some (.instruction instr) →
    instr.op = .giveBack → level cell = 0
  pointer : ∀ (cell : Nat) instr, code[cell]? = some (.instruction instr) →
    instr.setsPointer = false

variable {code : Code} {level : Nat → Int}

/-- A path leads to an instruction at the level of its cell. -/
theorem Charted.reached (charted : code.Charted level) {cell height : Int}
    (reached : code.Reached cell height) : ∃ (index : Nat) (instr : Instruction),
      cell = index ∧ height = level index ∧ code[index]? = some (.instruction instr) := by
  induction reached with
  | start =>
    obtain ⟨instr, found⟩ := charted.first
    exact ⟨0, instr, rfl, charted.start.symm, found⟩
  | @step cell height next move _ edge ih =>
    obtain ⟨index, -, same, rfl, -⟩ := ih
    obtain rfl : cell = index := by omega
    cases edge with
    | next stands falls =>
      obtain ⟨moved, other, found⟩ := charted.next _ _ _ stands falls
      exact ⟨_, other, by omega, moved.symm, found⟩
    | leap stands leaps =>
      obtain ⟨target, other, lands, same, found⟩ := charted.leap _ _ _ stands leaps
      exact ⟨target, other, lands.symm, by rw [same, Int.add_zero], found⟩

/-- Charted code is disciplined. -/
theorem Charted.disciplined (charted : code.Charted level) : code.Disciplined where
  inside cell height reached := by
    obtain ⟨index, instr, same, -, found⟩ := charted.reached reached
    obtain ⟨imm, stands⟩ := charted.operand index instr found
    exact ⟨index, instr, imm, same, stands⟩
  lands cell instr imm stands leaps := by
    obtain ⟨target, other, lands, -, found⟩ := charted.leap cell instr imm stands leaps
    exact ⟨target, other, lands, found⟩
  unique cell height other first second := by
    obtain ⟨index, -, same, rfl, -⟩ := charted.reached first
    obtain ⟨index', -, same', rfl, -⟩ := charted.reached second
    obtain rfl : index = index' := by omega
    rfl
  below cell height reached := by
    obtain ⟨index, instr, -, rfl, found⟩ := charted.reached reached
    exact charted.below index instr found
  returns cell height instr reached found giveBack := by
    obtain ⟨index, -, same, rfl, -⟩ := charted.reached reached
    obtain rfl : cell = index := by omega
    exact charted.returns cell instr found giveBack
  pointer := charted.pointer

/-- Code that differs only in the immediates of its calls has the same chart. -/
theorem Charted.congr {other : Code} (charted : code.Charted level)
    (instructions : ∀ (cell : Nat) instr, other[cell]? = some (.instruction instr) ↔
      code[cell]? = some (.instruction instr))
    (immediates : ∀ (cell : Nat) instr, code[cell]? = some (.instruction instr) →
      instr.op ≠ .call → other[cell + 1]? = code[cell + 1]?)
    (calls : ∀ (cell : Nat) instr, code[cell]? = some (.instruction instr) →
      instr.op = .call → ∃ imm, other[cell + 1]? = some (.immediate imm)) :
    other.Charted level := by
  have operand : ∀ (cell : Nat) instr, other[cell]? = some (.instruction instr) →
      ∃ imm, other.Stands cell instr imm := by
    intro cell instr found
    have before := (instructions cell instr).mp found
    by_cases call : instr.op = .call
    · obtain ⟨imm, next⟩ := calls cell instr before call
      exact ⟨imm, found, fun _ => next⟩
    · obtain ⟨imm, stands⟩ := charted.operand cell instr before
      exact ⟨imm, found, fun wide =>
        (immediates cell instr before call).trans (stands.operand wide)⟩
  have back : ∀ (cell : Nat) instr imm, other.Stands cell instr imm →
      ∃ before, code.Stands cell instr before ∧
        instr.shift before = instr.shift imm ∧
        (instr.op ≠ .call → before = imm) := by
    intro cell instr imm stands
    have here := (instructions cell instr).mp stands.here
    by_cases call : instr.op = .call
    · obtain ⟨before, found⟩ := charted.operand cell instr here
      refine ⟨before, found, ?_, fun other => absurd call other⟩
      simp only [Instruction.shift, call]
    · refine ⟨imm, ⟨here, fun wide => ?_⟩, rfl, fun _ => rfl⟩
      exact (immediates cell instr here call).symm.trans (stands.operand wide)
  refine ⟨charted.start, ?_, operand, ?_, ?_, ?_, ?_, ?_⟩
  · obtain ⟨instr, found⟩ := charted.first
    exact ⟨instr, (instructions 0 instr).mpr found⟩
  · exact fun cell instr found =>
      charted.below cell instr ((instructions cell instr).mp found)
  · intro cell instr imm stands falls
    obtain ⟨before, found, same, -⟩ := back cell instr imm stands
    obtain ⟨moved, next, there⟩ := charted.next cell instr before found falls
    exact ⟨same ▸ moved, next, (instructions _ next).mpr there⟩
  · intro cell instr imm stands leaps
    obtain ⟨before, found, -, same⟩ := back cell instr imm stands
    obtain rfl := same (by rintro call; rw [call] at leaps; contradiction)
    obtain ⟨target, next, lands, even, there⟩ := charted.leap cell instr before found leaps
    exact ⟨target, next, lands, even, (instructions _ next).mpr there⟩
  · exact fun cell instr found =>
      charted.returns cell instr ((instructions cell instr).mp found)
  · exact fun cell instr found =>
      charted.pointer cell instr ((instructions cell instr).mp found)

end Code

end TinLang
