import Mathlib.Algebra.Group.Nat.Defs
import TinLang.Proofs.Flow
import TinLang.Proofs.Generate.Completion

/-!
# Levels of a piece

While the code of a function is generated, every cell has a level: how far the stack pointer has
moved when control is there. The level of the end is the tracked depth of the piece. A jump whose
end is not known yet is a hole, and stands with the level that its end has to have.
-/
namespace TinLang

variable {cell : Nat}

theorem Instruction.length_cells (instr : Instruction) (imm : BitVec 32) :
    (instr.cells imm).length = instr.width := by
  unfold cells width
  split <;> rfl

/-- Only the immediate that an instruction has matters. -/
theorem Instruction.shift_congr {instr : Instruction} {imm other : BitVec 32}
    (same : instr.op.hasImmediate → imm = other) :
    instr.shift imm = instr.shift other := by
  unfold shift
  split
  · rfl
  · rfl
  · next increase =>
    rw [same (by rw [increase]; rfl)]
  · rfl

/-- What neither pushes nor pops nor increases moves the stack pointer by nothing. -/
theorem Instruction.shift_of_ne {instr : Instruction} (push : instr.op ≠ .push)
    (pop : instr.op ≠ .pop) (increase : instr.op ≠ .increase) (imm : BitVec 32) :
    instr.shift imm = 0 := by
  unfold shift
  split
  · next op => exact absurd op push
  · next op => exact absurd op pop
  · next op => exact absurd op increase
  · rfl

/-- A jump moves the stack pointer by nothing. -/
theorem Instruction.shift_of_leaps {instr : Instruction} (leaps : instr.op.leaps)
    (imm : BitVec 32) : instr.shift imm = 0 := by
  refine shift_of_ne ?_ ?_ ?_ imm <;> (intro op; rw [op] at leaps; contradiction)

theorem Opcode.hasImmediate_of_leaps {op : Opcode} (leaps : op.leaps) : op.hasImmediate := by
  cases op <;> first | rfl | contradiction

namespace Code

/-- In well-formed cells no immediate stands behind an instruction and its own immediate. -/
theorem formed_behind {pending : Bool} {cells : List Cell} {index : Nat} {instr : Instruction}
    (formed : Formed pending cells) (found : cells[index]? = some (.instruction instr)) :
    ∀ value, cells[index + instr.width]? ≠ some (.immediate value) := by
  intro value
  have rest := formed_drop formed found
  have ahead : ∀ distance, cells[index + 1 + distance]? = (cells.drop (index + 1))[distance]? :=
    fun _ => List.getElem?_drop.symm
  generalize cells.drop (index + 1) = others at rest ahead
  unfold Instruction.width
  cases wide : instr.op.hasImmediate with
  | false =>
    rw [wide] at rest
    refine (ahead 0).symm ▸ ?_
    cases others with
    | nil => simp
    | cons next others =>
      cases next with
      | instruction decoded => simp
      | immediate value => exact rest.elim
  | true =>
    rw [wide] at rest
    refine (ahead 1).symm ▸ ?_
    match others with
    | [] => exact rest.elim
    | .instruction _ :: _ => exact rest.elim
    | [.immediate _] => simp
    | .immediate _ :: .instruction _ :: _ => simp
    | .immediate _ :: .immediate _ :: _ => exact rest.elim

variable {code : Code}

/-- Well-formed code starts with an instruction. -/
theorem WellFormed.first (formed : code.WellFormed) (filled : 0 < code.size) :
    ∃ instr, code[0]? = some (.instruction instr) := by
  obtain ⟨cells⟩ := code
  match cells with
  | [] => exact absurd filled (Nat.lt_irrefl 0)
  | .instruction decoded :: _ => exact ⟨decoded, rfl⟩
  | .immediate _ :: _ => exact formed.elim

/-- In well-formed code an instruction stands with its immediate. -/
theorem WellFormed.stands (formed : code.WellFormed) {instr : Instruction}
    (found : code[cell]? = some (.instruction instr)) :
    ∃ imm, code.Stands cell instr imm := by
  cases wide : instr.op.hasImmediate with
  | false => exact ⟨0, found, fun other => absurd (wide.symm.trans other) (by simp)⟩
  | true =>
    obtain ⟨value, next⟩ := formed_next formed (by simpa using found) wide
    exact ⟨value, found, fun _ => by simpa using next⟩

/-- Behind an instruction of well-formed code is another, or the end. -/
theorem WellFormed.behind (formed : code.WellFormed) {instr : Instruction}
    (found : code[cell]? = some (.instruction instr))
    (inside : cell + instr.width < code.size) :
    ∃ other, code[cell + instr.width]? = some (.instruction other) := by
  have there := Array.getElem?_eq_getElem inside
  cases next : code[cell + instr.width] with
  | instruction other => exact ⟨other, by rw [there, next]⟩
  | immediate value =>
    rw [next] at there
    exact absurd (by simpa using there) (formed_behind formed (by simpa using found) value)

end Code

namespace Piece

/-- A cell is the end of the code or holds an instruction. -/
def Bounds (piece : Piece) (cell : Nat) : Prop :=
  cell = piece.size ∨ ∃ instr, piece.code[cell]? = some (.instruction instr)

/-- A jump leads to a label at a cell. -/
structure Aims (piece : Piece) (cell : Nat) (imm : BitVec 32) (target : Nat) : Prop where
  label : target ≤ piece.barrier
  bounds : piece.Bounds target
  distance : imm = BitVec.ofInt 32 ((target : Int) - (cell + 1))

/-- The levels of the cells agree with every instruction, except for the jumps that are holes. -/
structure Levelled (piece : Piece) (level : Nat → Int) (holes : List (Nat × Int)) : Prop where
  start : level 0 = 0
  depth : level piece.size = piece.depth
  formed : piece.code.WellFormed
  barrier : piece.barrier ≤ piece.size
  below : ∀ (cell : Nat) instr, piece.code[cell]? = some (.instruction instr) →
    level cell ≤ 0
  next : ∀ (cell : Nat) instr imm, piece.code.Stands cell instr imm →
    instr.op.falls →
      level (cell + instr.width) = level cell + instr.shift imm
  leap : ∀ (cell : Nat) instr imm, piece.code.Stands cell instr imm →
    instr.op.leaps → (cell + 1, level cell) ∈ holes ∨
      ∃ target, piece.Aims cell imm target ∧ level target = level cell
  returns : ∀ (cell : Nat) instr, piece.code[cell]? = some (.instruction instr) →
    instr.op = .giveBack → level cell = 0
  pointer : ∀ (cell : Nat) instr, piece.code[cell]? = some (.instruction instr) →
    instr.setsPointer = false
  /-- A hole is the immediate of a jump. -/
  hole : ∀ hole ∈ holes, ∃ (cell : Nat) (instr : Instruction) (imm : BitVec 32),
    hole = (cell + 1, level cell) ∧ piece.code.Stands cell instr imm ∧
      instr.op.leaps

variable {piece later : Piece} {level : Nat → Int} {holes more : List (Nat × Int)}

/-- An instruction and its immediate stand inside the code. -/
theorem stands_lt {instr : Instruction} {imm : BitVec 32}
    (stands : piece.code.Stands cell instr imm) :
    cell + instr.width ≤ piece.size := by
  unfold Instruction.width
  split
  · next wide => exact (Array.getElem?_eq_some_iff.mp (stands.operand wide)).1
  · exact (Array.getElem?_eq_some_iff.mp stands.here).1

theorem Bounds.le (bounds : piece.Bounds cell) : cell ≤ piece.size := by
  rcases bounds with rfl | ⟨instr, found⟩
  · exact Nat.le_refl _
  · exact Nat.le_of_lt (Array.getElem?_eq_some_iff.mp found).1

/-- The levels do not depend on anything but the code, the barrier and the depth. -/
theorem Levelled.congr (levelled : piece.Levelled level holes) (code : later.code = piece.code)
    (barrier : later.barrier = piece.barrier) (depth : later.depth = piece.depth) :
    later.Levelled level holes := by
  have size : later.size = piece.size := by rw [Piece.size, Piece.size, code]
  have aims : ∀ {cell imm target}, piece.Aims cell imm target →
      later.Aims cell imm target := fun aims =>
    ⟨barrier ▸ aims.label, by unfold Bounds; rw [size, code]; exact aims.bounds, aims.distance⟩
  obtain ⟨start, end', formed, inside, below, next, leap, returns, pointer, hole⟩ := levelled
  rw [← code] at formed below next leap returns pointer hole
  refine ⟨start, by rw [size, depth, end'], formed,
        by rw [barrier, size]; exact inside, below, next,
    ?_, returns, pointer, hole⟩
  intro cell instr imm stands leaps
  rcases leap cell instr imm stands leaps with open' | ⟨target, aimed, even⟩
  · exact .inl open'
  · exact .inr ⟨target, aims aimed, even⟩

section Extend

variable {instr : Instruction} {imm : BitVec 32} {relocations : List Relocation}
  {depth : Int}

theorem size_extend_cells : (piece.extend (instr.cells imm) relocations depth).size =
    piece.size + instr.width := by
  rw [← Instruction.length_cells instr imm]
  simp [extend, Piece.size]

/-- The instruction stands at the old end of the code. -/
theorem stands_extend : (piece.extend (instr.cells imm) relocations depth).code.Stands
    piece.size instr imm := by
  constructor
  · rw [getElem?_extend_cells, if_neg (Nat.lt_irrefl _), Nat.sub_self]
    unfold Instruction.cells
    split <;> rfl
  · exact immediate_extend

/-- What stood before still does. -/
theorem stands_extend_of {other : Instruction} {value : BitVec 32}
    (stands : piece.code.Stands cell other value) :
    (piece.extend (instr.cells imm) relocations depth).code.Stands cell other value :=
  ⟨getElem?_extend stands.here, fun wide => getElem?_extend (stands.operand wide)⟩

theorem stands_of_extend (formed : piece.code.WellFormed) {other : Instruction}
    {value : BitVec 32}
    (stands : (piece.extend (instr.cells imm) relocations depth).code.Stands
      cell other value) :
    (cell < piece.size ∧ piece.code.Stands cell other value) ∨
      (cell = piece.size ∧ other = instr ∧ other.shift value = instr.shift imm ∧
        (other.op.hasImmediate → value = imm)) := by
  rcases here_of_extend stands.here with ⟨inside, found⟩ | ⟨rfl, rfl⟩
  · refine .inl ⟨inside, found, fun wide => ?_⟩
    obtain ⟨before, stood⟩ := formed.stands found
    have same := (getElem?_extend (stood.operand wide)).symm.trans (stands.operand wide)
    rw [stood.operand wide, ← Option.some.inj same]
  · have same : other.op.hasImmediate → value = imm := fun wide => Cell.immediate.inj
      (Option.some.inj ((stands.operand wide).symm.trans (stands_extend.operand wide)))
    exact .inr ⟨rfl, rfl, Instruction.shift_congr same, same⟩

theorem bounds_extend (bounds : piece.Bounds cell) :
    (piece.extend (instr.cells imm) relocations depth).Bounds cell := by
  rcases bounds with rfl | ⟨other, found⟩
  · exact .inr ⟨instr, stands_extend.here⟩
  · exact .inr ⟨other, getElem?_extend found⟩

/-- One more instruction is put at the level of the end, where control falls to the new end. A
jump is a hole or leads to a label at its level. -/
theorem Levelled.extend (levelled : piece.Levelled level holes)
    (defined : instr.op.isDefined) (pointer : instr.setsPointer = false)
    (below : piece.depth ≤ 0)
    (next : instr.op.falls → depth = piece.depth + instr.shift imm)
    (returns : instr.op = .giveBack → piece.depth = 0)
    (leap : instr.op.leaps → (piece.size + 1, piece.depth) ∈ more ∨
      ∃ target, piece.Aims piece.size imm target ∧ level target = piece.depth)
    (kept : ∀ hole ∈ holes, hole ∈ more)
    (new : ∀ hole ∈ more, hole ∈ holes ∨
      (hole = (piece.size + 1, piece.depth) ∧ instr.op.leaps)) :
    ∃ level', (piece.extend (instr.cells imm) relocations depth).Levelled level' more ∧
      ∀ cell ≤ piece.size, level' cell = level cell := by
  obtain ⟨level', same, past⟩ : ∃ level' : Nat → Int,
      (∀ cell ≤ piece.size, level' cell = level cell) ∧
        ∀ cell, piece.size < cell → level' cell = depth :=
    ⟨fun cell => if cell ≤ piece.size then level cell else depth, fun _ inside => if_pos inside,
      fun _ outside => if_neg (Nat.not_le_of_lt outside)⟩
  have ends := (same piece.size (Nat.le_refl _)).trans levelled.depth
  have wide : 0 < instr.width := by unfold Instruction.width; split <;> decide
  have old : ∀ {cell : Nat} {other : Instruction},
      piece.code[cell]? = some (.instruction other) → cell ≤ piece.size :=
    fun found => Nat.le_of_lt (Array.getElem?_eq_some_iff.mp found).1
  refine ⟨level', ?_, same⟩
  refine ⟨(same 0 (Nat.zero_le _)).trans levelled.start, ?_, ?_, ?_, ?_, ?_, ?_, ?_, ?_, ?_⟩
  · rw [size_extend_cells]
    exact past _ (by omega)
  · have whole : Code.Formed false (instr.cells imm) := by
      unfold Instruction.cells
      cases wide : instr.op.hasImmediate <;> simp [Code.Formed, defined, wide]
    have formed := (Code.formed_append (instr.cells imm) levelled.formed).mpr whole
    simpa [Piece.extend, Code.WellFormed] using formed
  · rw [size_extend_cells]
    exact Nat.le_add_right_of_le levelled.barrier
  · intro cell other found
    rcases here_of_extend found with ⟨inside, before⟩ | ⟨rfl, rfl⟩
    · rw [same cell (Nat.le_of_lt inside)]
      exact levelled.below cell other before
    · rw [ends]
      exact below
  · intro cell other value stands falls
    rcases stands_of_extend levelled.formed stands with ⟨inside, before⟩ | ⟨rfl, rfl, shift, -⟩
    · rw [same cell (Nat.le_of_lt inside), same _ (stands_lt before)]
      exact levelled.next cell other value before falls
    · rw [shift, ends, past _ (by omega)]
      exact next falls
  · intro cell other value stands leaps
    have aims : ∀ {value target}, piece.Aims cell value target →
        (piece.extend (instr.cells imm) relocations depth).Aims cell value target :=
      fun aims => ⟨aims.label, bounds_extend aims.bounds, aims.distance⟩
    have reached : ∀ {value target}, piece.Aims cell value target →
        level' target = level target := fun aims => same _ aims.bounds.le
    rcases stands_of_extend levelled.formed stands with ⟨inside, before⟩ | ⟨rfl, rfl, -, value⟩
    · rw [same cell (Nat.le_of_lt inside)]
      rcases levelled.leap cell other value before leaps with hole | ⟨target, aimed, even⟩
      · exact .inl (kept _ hole)
      · exact .inr ⟨target, aims aimed, (reached aimed).trans even⟩
    · obtain rfl := value (Opcode.hasImmediate_of_leaps leaps)
      rw [ends]
      rcases leap leaps with hole | ⟨target, aimed, even⟩
      · exact .inl hole
      · exact .inr ⟨target, aims aimed, (reached aimed).trans even⟩
  · intro cell other found giveBack
    rcases here_of_extend found with ⟨inside, before⟩ | ⟨rfl, rfl⟩
    · rw [same cell (Nat.le_of_lt inside)]
      exact levelled.returns cell other before giveBack
    · rw [ends]
      exact returns giveBack
  · intro cell other found
    rcases here_of_extend found with ⟨inside, before⟩ | ⟨rfl, rfl⟩
    · exact levelled.pointer cell other before
    · exact pointer
  · intro hole mem
    rcases new hole mem with before | ⟨rfl, leaps⟩
    · obtain ⟨cell, other, value, rfl, stands, leaps⟩ := levelled.hole hole before
      exact ⟨cell, other, value, by rw [same cell (old stands.here)],
            stands_extend_of stands, leaps⟩
    · exact ⟨piece.size, instr, imm, by rw [ends], stands_extend, leaps⟩

/-- An instruction that neither jumps nor returns. -/
theorem Levelled.extend_plain (levelled : piece.Levelled level holes)
    (defined : instr.op.isDefined) (pointer : instr.setsPointer = false)
    (below : piece.depth ≤ 0) (falls : instr.op.falls) (leaps : instr.op.leaps = false)
    (next : depth = piece.depth + instr.shift imm) :
    ∃ level', (piece.extend (instr.cells imm) relocations depth).Levelled level' holes ∧
      ∀ cell ≤ piece.size, level' cell = level cell :=
  levelled.extend defined pointer below (fun _ => next)
    (fun giveBack => by rw [giveBack] at falls; contradiction)
    (fun other => absurd (leaps.symm.trans other) (by simp)) (fun _ => id) (fun _ => .inl)

end Extend

/-- What a label bounds is not taken away. -/
theorem bounds_truncate {reg : Register} (cancels : piece.cancels reg)
    (label : cell ≤ piece.barrier) (bounds : piece.Bounds cell) :
    (piece.truncate (piece.size - 1)).Bounds cell := by
  have free : piece.barrier < piece.size := by
    simp only [Piece.cancels, Bool.and_eq_true, decide_eq_true_eq] at cancels
    exact cancels.1
  have size : (piece.truncate (piece.size - 1)).size = piece.size - 1 := by
    simp [Piece.truncate, Piece.size]
  rcases bounds with rfl | ⟨other, found⟩
  · omega
  · by_cases last : cell = piece.size - 1
    · exact .inl (last.trans size.symm)
    · exact .inr ⟨other, by rw [getElem?_truncate, if_pos (by omega), found]⟩

/-- A cancelled push is taken away together with what it did to the depth. -/
theorem Levelled.truncate (levelled : piece.Levelled level holes) {reg : Register}
    (cancels : piece.cancels reg) :
    Levelled { piece.truncate (piece.size - 1) with depth := piece.depth + 8 } level holes := by
  have free : piece.barrier < piece.size := by
    simp only [Piece.cancels, Bool.and_eq_true, decide_eq_true_eq] at cancels
    exact cancels.1
  obtain ⟨last, ends, push, -⟩ := back?_of_cancels cancels
  have lastCell : piece.code[piece.size - 1]? = some (.instruction last) := by
    rw [← ends, Array.back?]
    rfl
  have size : (piece.truncate (piece.size - 1)).size = piece.size - 1 := by
    simp [Piece.truncate, Piece.size]
  have kept : ∀ {cell : Nat} {found : Cell},
      (piece.truncate (piece.size - 1)).code[cell]? = some found →
        cell < piece.size - 1 ∧ piece.code[cell]? = some found := by
    intro cell found there
    rw [getElem?_truncate] at there
    split at there
    · next inside => exact ⟨inside, there⟩
    · contradiction
  have stood : ∀ {cell : Nat} {instr : Instruction} {imm : BitVec 32},
      (piece.truncate (piece.size - 1)).code.Stands cell instr imm →
        piece.code.Stands cell instr imm :=
    fun stands => ⟨(kept stands.here).2, fun wide => (kept (stands.operand wide)).2⟩
  have stays : ∀ {cell : Nat} {found : Cell}, piece.code[cell]? = some found →
      cell ≠ piece.size - 1 → (piece.truncate (piece.size - 1)).code[cell]? = some found := by
    intro cell found there other
    have inside : cell < piece.size := (Array.getElem?_eq_some_iff.mp there).1
    rw [getElem?_truncate, if_pos (by omega), there]
  have falls : last.op.falls := by rw [push]; rfl
  have narrow : last.op.hasImmediate = false := by rw [push]; rfl
  have lastStands : piece.code.Stands (piece.size - 1) last 0 :=
    ⟨lastCell, fun wide => absurd (narrow.symm.trans wide) (by simp)⟩
  -- The push moved the depth from the level of its cell to that of the old end.
  have moved : piece.depth = level (piece.size - 1) - 8 := by
    have step := levelled.next _ _ _ lastStands falls
    have width : piece.size - 1 + last.width = piece.size := by
      rw [Instruction.width, if_neg (by simp [narrow])]
      omega
    have shift : last.shift 0 = -8 := by rw [Instruction.shift, push]
    rw [width, levelled.depth, shift] at step
    omega
  refine ⟨levelled.start, ?_, levelled.formed.take ends, ?_, ?_, ?_, ?_, ?_, ?_, ?_⟩
  · show level (piece.truncate (piece.size - 1)).size = piece.depth + 8
    rw [size, moved]
    omega
  · show piece.barrier ≤ (piece.truncate (piece.size - 1)).size
    rw [size]
    exact Nat.le_sub_one_of_lt free
  · exact fun cell instr found => levelled.below cell instr (kept found).2
  · exact fun cell instr imm stands => levelled.next cell _ _ (stood stands)
  · intro cell instr imm stands leaps
    rcases levelled.leap cell _ _ (stood stands) leaps with hole | ⟨target, aims, even⟩
    · exact .inl hole
    · exact .inr ⟨target, ⟨aims.label, bounds_truncate cancels aims.label aims.bounds,
        aims.distance⟩, even⟩
  · exact fun cell instr found => levelled.returns cell instr (kept found).2
  · exact fun cell instr found => levelled.pointer cell instr (kept found).2
  · intro hole mem
    obtain ⟨cell, instr, imm, rfl, stands, leaps⟩ := levelled.hole hole mem
    have apart : cell ≠ piece.size - 1 := by
      rintro rfl
      obtain rfl : last = instr := by simpa [lastCell] using stands.here
      rw [push] at leaps
      contradiction
    refine ⟨cell, instr, imm, rfl, ⟨stays stands.here apart, fun wide => ?_⟩, leaps⟩
    refine stays (stands.operand wide) fun same => ?_
    rw [← same, stands.operand wide] at lastCell
    simp at lastCell

theorem Levelled.label (levelled : piece.Levelled level holes) :
    piece.label.1.Levelled level holes := by
  refine ⟨levelled.start, levelled.depth, levelled.formed, Nat.le_refl _, levelled.below,
    levelled.next, ?_, levelled.returns, levelled.pointer, levelled.hole⟩
  intro cell instr imm stands leaps
  rcases levelled.leap cell instr imm stands leaps with hole | ⟨target, aims, even⟩
  · exact .inl hole
  · exact .inr ⟨target, ⟨Nat.le_trans aims.label levelled.barrier, aims.bounds, aims.distance⟩,
      even⟩

theorem Opcode.jumps_of_leaps {op : Opcode} (leaps : op.leaps) : op = .jump ∨ op = .jumpZero := by
  cases op <;> first | exact .inl rfl | exact .inr rfl | contradiction

theorem Levelled.branchAt (levelled : piece.Levelled level holes) {hole : Nat × Int}
    (mem : hole ∈ holes) : piece.BranchAt hole.1 := by
  obtain ⟨cell, instr, imm, rfl, stands, leaps⟩ := levelled.hole hole mem
  exact ⟨instr, imm, stands.here, Opcode.jumps_of_leaps leaps,
    stands.operand (Opcode.hasImmediate_of_leaps leaps)⟩

/-- Fixing a jump leaves all instructions. -/
theorem here_fixJump (branch : piece.BranchAt cell) {index : Nat}
    {instr : Instruction} :
    (piece.fixJump cell).1.code[index]? = some (.instruction instr) ↔
      piece.code[index]? = some (.instruction instr) := by
  rw [getElem?_fixJump branch]
  obtain ⟨jump, old, -, -, found⟩ := branch
  split
  · next same => simp [same, found]
  · rfl

theorem bounds_fixJump {target : Nat} (branch : piece.BranchAt cell)
    (bounds : piece.Bounds target) : (piece.fixJump cell).1.Bounds target := by
  rcases bounds with rfl | ⟨instr, found⟩
  · exact .inl (size_fixJump branch).symm
  · exact .inr ⟨instr, (here_fixJump branch).mpr found⟩

theorem barrier_fixJump (cell : Int) : (piece.fixJump cell).1.barrier = piece.size := by
  unfold fixJump
  dsimp only
  split <;> rfl

theorem depth_fixJump (cell : Int) : (piece.fixJump cell).1.depth = piece.depth := by
  unfold fixJump
  dsimp only
  split <;> rfl

/-- A hole whose level is the depth of the piece may be fixed. -/
theorem Levelled.fixJump
    (levelled : piece.Levelled level ((cell, piece.depth) :: holes)) :
    (piece.fixJump cell).1.Levelled level holes := by
  have branch : piece.BranchAt cell := levelled.branchAt List.mem_cons_self
  obtain ⟨jump, instr, imm, same, stands, leaps⟩ := levelled.hole _ List.mem_cons_self
  obtain ⟨rfl, height⟩ := Prod.mk.inj same
  have cells := getElem?_fixJump branch
  have barrier := @barrier_fixJump piece (jump + 1 : Nat)
  have stood : ∀ {index : Nat} {other : Instruction} {value : BitVec 32},
      (piece.fixJump (jump + 1 : Nat)).1.code.Stands index other value →
        (index ≠ jump ∧ piece.code.Stands index other value) ∨
        (index = jump ∧ other = instr ∧
          value = BitVec.ofInt 32 ((piece.size : Int) - (jump + 1 : Nat))) := by
    intro index other value there
    have here := (here_fixJump branch).mp there.here
    by_cases same : index = jump
    · subst same
      obtain rfl : instr = other := by simpa [stands.here] using here
      have next := there.operand (Opcode.hasImmediate_of_leaps leaps)
      rw [cells, if_pos rfl] at next
      exact .inr ⟨rfl, rfl, (Cell.immediate.inj (Option.some.inj next)).symm⟩
    · refine .inl ⟨same, here, fun wide => ?_⟩
      have next := there.operand wide
      rwa [cells, if_neg (by omega)] at next
  have aims : ∀ {index target : Nat} {value : BitVec 32}, piece.Aims index value target →
      (piece.fixJump (jump + 1 : Nat)).1.Aims index value target := fun aims =>
    ⟨Nat.le_trans aims.label (Nat.le_trans levelled.barrier (Nat.le_of_eq barrier.symm)),
      bounds_fixJump branch aims.bounds, aims.distance⟩
  have formed : (piece.fixJump (jump + 1 : Nat)).1.code.WellFormed := by
    rw [fixJump_eq branch]
    exact levelled.formed.patch
      (Code.patch?_immediate (stands.operand (Opcode.hasImmediate_of_leaps leaps)) _)
  refine ⟨levelled.start, ?_, formed, ?_, ?_, ?_, ?_, ?_, ?_, ?_⟩
  · rw [size_fixJump branch, levelled.depth, depth_fixJump]
  · exact Nat.le_of_eq (barrier.trans (size_fixJump branch).symm)
  · exact fun index other found => levelled.below index other ((here_fixJump branch).mp found)
  · intro index other value there falls
    rcases stood there with ⟨-, before⟩ | ⟨rfl, rfl, -⟩
    · exact levelled.next index other value before falls
    · rw [Instruction.shift_of_leaps leaps, ← Instruction.shift_of_leaps leaps imm]
      exact levelled.next index other imm stands falls
  · intro index other value there leaps
    rcases stood there with ⟨apart, before⟩ | ⟨rfl, rfl, rfl⟩
    · rcases levelled.leap index other value before leaps with hole | ⟨target, aimed, even⟩
      · rcases List.mem_cons.mp hole with same | rest
        · exact absurd (Nat.succ.inj (Prod.mk.inj same).1) apart
        · exact .inl rest
      · exact .inr ⟨target, aims aimed, even⟩
    · exact .inr ⟨piece.size, ⟨Nat.le_of_eq barrier.symm, bounds_fixJump branch (.inl rfl), rfl⟩,
        levelled.depth.trans height⟩
  · exact fun index other found => levelled.returns index other ((here_fixJump branch).mp found)
  · exact fun index other found => levelled.pointer index other ((here_fixJump branch).mp found)
  · intro hole mem
    obtain ⟨index, other, value, rfl, there, leaps⟩ :=
      levelled.hole hole (List.mem_cons_of_mem _ mem)
    obtain ⟨fixed, stands⟩ := formed.stands ((here_fixJump branch).mpr there.here)
    exact ⟨index, other, fixed, rfl, stands, leaps⟩

/-- Control does not come to the end of the code. -/
structure Sealed (piece : Piece) : Prop where
  barrier : piece.barrier < piece.size
  last : ∃ (cell : Nat) (instr : Instruction) (imm : BitVec 32),
    piece.code.Stands cell instr imm ∧ cell + instr.width = piece.size ∧
      instr.op.falls = false

/-- No instruction of a sealed piece falls to the end. -/
theorem Sealed.lt (sealed' : piece.Sealed) {instr : Instruction}
    {imm : BitVec 32} (stands : piece.code.Stands cell instr imm)
    (falls : instr.op.falls) : cell + instr.width < piece.size := by
  refine Nat.lt_of_le_of_ne (stands_lt stands) fun ends => ?_
  obtain ⟨last, other, value, there, same, stops⟩ := sealed'.last
  rcases Nat.lt_trichotomy cell last with less | rfl | more
  · have wide : instr.op.hasImmediate := by
      unfold Instruction.width at ends same
      split at ends
      · next wide => exact wide
      · split at same <;> omega
    have next := stands.operand wide
    have place : cell + 1 = last := by
      unfold Instruction.width at ends same
      rw [if_pos wide] at ends
      split at same <;> omega
    rw [place, there.here] at next
    simp at next
  · obtain rfl : other = instr := by simpa [stands.here] using there.here.symm
    rw [falls] at stops
    contradiction
  · have wide : other.op.hasImmediate := by
      unfold Instruction.width at ends same
      split at same
      · next wide => exact wide
      · split at ends <;> omega
    have next := there.operand wide
    have place : last + 1 = cell := by
      unfold Instruction.width at ends same
      rw [if_pos wide] at same
      split at ends <;> omega
    rw [place, stands.here] at next
    simp at next

/-- Code that is not reached may be put at any depth. -/
theorem Levelled.redepth (levelled : piece.Levelled level holes) (sealed' : piece.Sealed)
    (depth : Int) : ∃ level', Levelled { piece with depth } level' holes ∧
      ∀ cell < piece.size, level' cell = level cell := by
  obtain ⟨level', same, ends⟩ : ∃ level' : Nat → Int,
      (∀ cell < piece.size, level' cell = level cell) ∧ level' piece.size = depth :=
    ⟨fun cell => if cell < piece.size then level cell else depth, fun _ inside => if_pos inside,
      if_neg (Nat.lt_irrefl _)⟩
  have filled := Nat.zero_lt_of_lt sealed'.barrier
  have inside : ∀ {cell : Nat} {instr : Instruction},
      piece.code[cell]? = some (.instruction instr) → cell < piece.size :=
    fun found => (Array.getElem?_eq_some_iff.mp found).1
  refine ⟨level', ⟨(same 0 filled).trans levelled.start, ends, levelled.formed, levelled.barrier,
    ?_, ?_, ?_, ?_, levelled.pointer, ?_⟩, same⟩
  · intro cell instr found
    rw [same cell (inside found)]
    exact levelled.below cell instr found
  · intro cell instr imm stands falls
    rw [same cell (inside stands.here), same _ (sealed'.lt stands falls)]
    exact levelled.next cell instr imm stands falls
  · intro cell instr imm stands leaps
    rw [same cell (inside stands.here)]
    rcases levelled.leap cell instr imm stands leaps with hole | ⟨target, aims, even⟩
    · exact .inl hole
    · refine .inr ⟨target, ⟨aims.label, aims.bounds, aims.distance⟩, ?_⟩
      rw [same target (Nat.lt_of_le_of_lt aims.label sealed'.barrier), even]
  · intro cell instr found giveBack
    rw [same cell (inside found)]
    exact levelled.returns cell instr found giveBack
  · intro hole mem
    obtain ⟨cell, instr, imm, rfl, stands, leaps⟩ := levelled.hole hole mem
    exact ⟨cell, instr, imm, by rw [same cell (inside stands.here)], stands, leaps⟩

/-- The levels of a sealed piece without holes are a chart of its code. -/
theorem Levelled.charted (levelled : piece.Levelled level []) (sealed' : piece.Sealed)
    (small : piece.size < 2 ^ 31) : piece.code.Charted level where
  start := levelled.start
  first := by
    have filled := Nat.zero_lt_of_lt sealed'.barrier
    exact levelled.formed.first filled
  operand cell instr found := levelled.formed.stands found
  below := levelled.below
  next cell instr imm stands falls :=
    ⟨levelled.next cell instr imm stands falls,
      levelled.formed.behind stands.here (sealed'.lt stands falls)⟩
  leap cell instr imm stands leaps := by
    rcases levelled.leap cell instr imm stands leaps with hole | ⟨target, aims, even⟩
    · simp at hole
    · have label := aims.label
      have barrier := sealed'.barrier
      have inside := stands_lt stands
      rcases aims.bounds with rfl | ⟨other, found⟩
      · omega
      · refine ⟨target, other, ?_, even, found⟩
        rw [aims.distance, BitVec.toInt_ofInt, Int.bmod_eq_of_le (by omega) (by omega)]
        omega
  returns := levelled.returns
  pointer := levelled.pointer

end Piece

end TinLang
