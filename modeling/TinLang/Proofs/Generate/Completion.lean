import TinLang.Proofs.Piece

/-!
# Completed pieces

The code that runs is the code of a piece after its last instruction was emitted, its jumps fixed
and its calls linked. Seen from an earlier state of the piece, it agrees with the cells emitted so
far except for three kinds: pushes at the end that a later pop may still cancel, jumps that are
fixed later and calls that the linker fills in. `Piece.Completes` states this agreement, and it
goes back from every state of a piece to the states before.
-/
namespace TinLang

variable {cell landing : Nat} {last : Piece} {value : BitVec 32} {reg : Register}

/-- The register that a cell pushes. -/
def Cell.pushed? : Cell → Option Register
  | .instruction decoded => if decoded.op = .push then some decoded.first else none
  | .immediate _ => none

namespace Piece

/-- The registers that the first cells push, up to a cell that does something else. -/
def pushes : List Cell → List Register
  | [] => []
  | cell :: cells =>
    match cell.pushed? with
    | some reg => reg :: pushes cells
    | none => []

/-- The registers pushed at the end of the code that a pop may still cancel, the last first. -/
def pending (piece : Piece) : List Register :=
  pushes (piece.code.toList.drop piece.barrier).reverse

/-- The number of cells that stay. -/
def settled (piece : Piece) : Nat := piece.size - piece.pending.length

variable {piece later : Piece}

theorem length_pushes (cells : List Cell) : (pushes cells).length ≤ cells.length := by
  induction cells with
  | nil => simp [pushes]
  | cons cell cells ih =>
    rw [pushes]
    split
    · simp only [List.length_cons]
      omega
    · simp

theorem length_pending (piece : Piece) : piece.pending.length ≤ piece.size - piece.barrier := by
  have bound := length_pushes (piece.code.toList.drop piece.barrier).reverse
  rw [List.length_reverse, List.length_drop, Array.length_toList] at bound
  exact bound

theorem settled_add (piece : Piece) : piece.settled + piece.pending.length = piece.size := by
  have bound := piece.length_pending
  unfold settled
  omega

theorem settled_le (piece : Piece) : piece.settled ≤ piece.size := Nat.sub_le _ _

/-- One more cell is one more push that may be cancelled, or it settles all cells. -/
theorem pending_push (bounded : piece.barrier ≤ piece.size) (cell : Cell) :
    (piece.push cell).pending = match cell.pushed? with
      | some reg => reg :: piece.pending
      | none => [] := by
  have split : ((piece.push cell).code.toList.drop piece.barrier).reverse =
      cell :: (piece.code.toList.drop piece.barrier).reverse := by
    rw [push, Array.toList_push, List.drop_append_of_le_length (by simpa [size] using bounded)]
    simp
  rw [pending, show (piece.push cell).barrier = piece.barrier from rfl, split, pushes, pending]

theorem size_push (piece : Piece) (cell : Cell) : (piece.push cell).size = piece.size + 1 := by
  simp [size, push]

theorem settled_push (bounded : piece.barrier ≤ piece.size) (cell : Cell) :
    (piece.push cell).settled =
      if cell.pushed?.isSome then piece.settled else piece.size + 1 := by
  have known := piece.settled_add
  rw [settled, size_push, pending_push bounded]
  cases cell.pushed? with
  | none => simp
  | some reg =>
    simp only [List.length_cons, Option.isSome_some, ↓reduceIte]
    omega

/-- The code without its last cell. -/
theorem code_eq_push (some : 0 < piece.size) : ∃ last, piece.code.back? = .some last ∧
    piece.code = (piece.truncate (piece.size - 1)).code.push last := by
  have inside : piece.size - 1 < piece.code.size := Nat.sub_one_lt_of_lt some
  refine ⟨piece.code[piece.size - 1], ?_, ?_⟩
  · rw [Array.back?]
    exact Array.getElem?_eq_getElem inside
  · apply Array.ext_getElem?
    intro index
    rw [Array.getElem?_push, getElem?_truncate]
    have count : Array.size (piece.truncate (piece.size - 1)).code = piece.size - 1 := by
      simp [truncate, size]
    rw [count]
    rcases Nat.lt_trichotomy index (piece.size - 1) with less | rfl | more
    · rw [if_neg (by omega), if_pos less]
    · rw [if_pos rfl, Array.getElem?_eq_getElem inside]
    · rw [if_neg (by omega), if_neg (by omega)]
      exact Array.getElem?_eq_none (by unfold size at more; omega)

/-- What is pending in a piece whose last cell may be removed. -/
theorem pending_eq (free : piece.barrier < piece.size) : ∃ last, piece.code.back? = some last ∧
    piece.pending = match last.pushed? with
      | some reg => reg :: (piece.truncate (piece.size - 1)).pending
      | none => [] := by
  obtain ⟨last, ends, code⟩ := @code_eq_push piece (by omega)
  refine ⟨last, ends, ?_⟩
  have bounded : (piece.truncate (piece.size - 1)).barrier ≤
      (piece.truncate (piece.size - 1)).size := by
    have count : (piece.truncate (piece.size - 1)).size = piece.size - 1 := by
      simp [truncate, size]
    rw [count]
    exact Nat.le_sub_one_of_lt free
  rw [← pending_push bounded last, pending, pending, code]
  rfl

/-- A pop cancels exactly the last pending push. -/
theorem pending_of_cancels (cancels : piece.cancels reg) :
    piece.pending = reg :: (piece.truncate (piece.size - 1)).pending := by
  have free : piece.barrier < piece.size := by
    simp only [Piece.cancels, Bool.and_eq_true, decide_eq_true_eq] at cancels
    exact cancels.1
  obtain ⟨decoded, ends, push, which⟩ := back?_of_cancels cancels
  obtain ⟨last, ends', pending⟩ := pending_eq free
  obtain rfl := Option.some.inj (ends.symm.trans ends')
  rw [pending, Cell.pushed?, if_pos push, which]

/-- The immediate of a jump stands at a cell. -/
def BranchAt (piece : Piece) (cell : Nat) : Prop :=
  ∃ instr value, piece.code[cell - 1]? = some (.instruction instr) ∧
    (instr.op = .jump ∨ instr.op = .jumpZero) ∧
    piece.code[cell]? = some (.immediate value)

/-- Final code agrees with a piece on the cells that stay, except for some jumps and for the calls
that the linker fills in. -/
structure Completes (piece : Piece) (final : Code) (holes : List Nat) : Prop where
  cells : ∀ index, index < piece.settled → final[index]? = piece.code[index]? ∨
    (index ∈ holes ∧ piece.BranchAt index) ∨ piece.VacantAt index
  calls : ∀ reloc ∈ piece.relocations, ∀ target, reloc.target = some target →
    final[reloc.cell]? = some (.immediate (BitVec.ofNat 32 (target + 1)))

namespace Completes

variable {final : Code} {holes : List Nat} {index : Nat} {decoded : Instruction}

theorem instruction (complete : piece.Completes final holes) (small : index < piece.settled)
    (found : piece.code[index]? = some (.instruction decoded)) :
    final[index]? = some (.instruction decoded) := by
  rcases complete.cells index small with same | ⟨-, _, _, -, -, at'⟩ | ⟨_, -, -, at'⟩
  · exact same.trans found
  · simp [found] at at'
  · simp [found] at at'

/-- An immediate that belongs to no jump and to no call for the linker is final. -/
theorem immediate (complete : piece.Completes final holes)
    (small : index < piece.settled)
    (before : piece.code[index - 1]? = some (.instruction decoded))
    (found : piece.code[index]? = some (.immediate value))
    (jump : decoded.op ≠ .jump ∧ decoded.op ≠ .jumpZero)
    (call : decoded.op ≠ .call ∨ value ≠ 0) : final[index]? = some (.immediate value) := by
  rcases complete.cells index small with same | ⟨-, other, _, first, leaps, -⟩ |
    ⟨other, first, calls, second⟩
  · exact same.trans found
  · obtain rfl := Cell.instruction.inj (Option.some.inj (before.symm.trans first))
    rcases leaps with leap | leap
    · exact absurd leap jump.1
    · exact absurd leap jump.2
  · obtain rfl := Cell.instruction.inj (Option.some.inj (before.symm.trans first))
    obtain rfl := Cell.immediate.inj (Option.some.inj (found.symm.trans second))
    rcases call with other | other
    · exact absurd calls other
    · exact absurd rfl other

end Completes

/-- A piece was made longer: the cells that stay are still there. -/
structure Grows (piece later : Piece) : Prop where
  bounded : later.barrier ≤ later.size
  settled : piece.settled ≤ later.settled
  same : ∀ index, index < piece.settled → later.code[index]? = piece.code[index]?
  relocations : ∀ reloc ∈ piece.relocations, reloc ∈ later.relocations

namespace Grows

theorem refl (bounded : piece.barrier ≤ piece.size) : Grows piece piece :=
  ⟨bounded, Nat.le_refl _, fun _ _ => rfl, fun _ => id⟩

theorem trans (first : Grows piece later) (second : Grows later last) :
    Grows piece last where
  bounded := second.bounded
  settled := Nat.le_trans first.settled second.settled
  same index small := by
    have next := first.settled
    rw [second.same index (by omega), first.same index small]
  relocations reloc mem := second.relocations _ (first.relocations _ mem)

/-- What code agrees with a piece agrees with the piece before. -/
theorem completes (grows : Grows piece later) {final : Code} {holes : List Nat}
    (complete : later.Completes final holes) : piece.Completes final holes where
  cells index small := by
    have next := grows.settled
    have here := grows.same index small
    have before := grows.same (index - 1) (by omega)
    rcases complete.cells index (by omega) with same | ⟨hole, decoded, value, found, jump, at'⟩ |
      ⟨decoded, found, call, at'⟩
    · exact .inl (same.trans here)
    · exact .inr (.inl ⟨hole, decoded, value, before ▸ found, jump, here ▸ at'⟩)
    · exact .inr (.inr ⟨decoded, before ▸ found, call, here ▸ at'⟩)
  calls reloc mem := complete.calls reloc (grows.relocations reloc mem)

theorem branchAt (grows : Grows piece later) (small : cell < piece.settled)
    (branch : piece.BranchAt cell) : later.BranchAt cell := by
  obtain ⟨decoded, value, found, jump, at'⟩ := branch
  exact ⟨decoded, value, (grows.same _ (by omega)).trans found, jump,
    (grows.same _ small).trans at'⟩

end Grows

/-- A change that leaves the code and the barrier. -/
theorem grows_of_same (bounded : piece.barrier ≤ piece.size) (code : later.code = piece.code)
    (barrier : later.barrier = piece.barrier)
    (relocations : ∀ reloc ∈ piece.relocations, reloc ∈ later.relocations) :
    Grows piece later := by
  have size : later.size = piece.size := by rw [Piece.size, Piece.size, code]
  refine ⟨by rw [barrier, size]; exact bounded, ?_, fun index _ => by rw [code], relocations⟩
  have same : later.settled = piece.settled := by
    rw [settled, settled, pending, pending, size, code, barrier]
  exact Nat.le_of_eq same.symm

theorem getElem?_push (piece : Piece) (cell : Cell) (index : Nat) :
    (piece.push cell).code[index]? =
      if index = piece.size then some cell else piece.code[index]? := by
  rw [push, Array.getElem?_push]
  rfl

theorem grows_push (bounded : piece.barrier ≤ piece.size) (cell : Cell) :
    Grows piece (piece.push cell) where
  bounded := by
    rw [size_push]
    exact Nat.le_succ_of_le bounded
  settled := by
    have known := piece.settled_le
    rw [settled_push bounded]
    split <;> omega
  same index small := by
    have known := piece.settled_le
    rw [getElem?_push, if_neg (by omega)]
  relocations _ := id

/-- The tracked depth may change together with a new cell. -/
theorem grows_depth_push (bounded : piece.barrier ≤ piece.size) (depth : Int) (cell : Cell) :
    Grows piece (Piece.push { piece with depth } cell) := by
  have moved : Grows piece { piece with depth } := grows_of_same bounded rfl rfl fun _ => id
  exact moved.trans (grows_push moved.bounded cell)

theorem settled_truncate (cancels : piece.cancels reg) :
    (piece.truncate (piece.size - 1)).settled = piece.settled := by
  have count : (piece.truncate (piece.size - 1)).size = piece.size - 1 := by simp [truncate, size]
  have pending := pending_of_cancels cancels
  rw [settled, settled, count, pending, List.length_cons]
  omega

theorem grows_truncate (cancels : piece.cancels reg) :
    Grows piece (piece.truncate (piece.size - 1)) where
  bounded := by
    have free : piece.barrier < piece.size := by
      simp only [Piece.cancels, Bool.and_eq_true, decide_eq_true_eq] at cancels
      exact cancels.1
    have count : (piece.truncate (piece.size - 1)).size = piece.size - 1 := by
      simp [truncate, size]
    rw [count]
    exact Nat.le_sub_one_of_lt free
  settled := Nat.le_of_eq (settled_truncate cancels).symm
  same index small := by
    have known := piece.settled_add
    have pending := pending_of_cancels cancels
    rw [pending, List.length_cons] at known
    rw [getElem?_truncate, if_pos (by omega)]
  relocations _ := id

theorem grows_emit (bounded : piece.barrier ≤ piece.size) (instr : Instruction) :
    Grows piece (piece.emit instr).1 := by
  unfold emit
  split
  · exact grows_depth_push bounded _ _
  · dsimp only
    split
    · next cancels =>
      have grows := grows_truncate cancels
      exact grows.trans (grows_of_same grows.bounded rfl rfl fun _ => id)
    · exact grows_depth_push bounded _ _
  · exact grows_push bounded _

theorem grows_emitImmediate (bounded : piece.barrier ≤ piece.size) (instr : Instruction)
    (value : BitVec 32) : Grows piece (piece.emitImmediate instr value).1 := by
  unfold emitImmediate
  dsimp only
  split
  · have first := grows_depth_push bounded (piece.depth + value.toInt) (.instruction instr)
    exact first.trans (grows_push first.bounded _)
  · have first := grows_push bounded (.instruction instr)
    exact first.trans (grows_push first.bounded _)

theorem grows_emitCall (bounded : piece.barrier ≤ piece.size) (target : Option Nat) :
    Grows piece (piece.emitCall target) := by
  have first := grows_emitImmediate bounded ⟨.call, .unused, .unused, 0⟩ 0
  exact first.trans (grows_of_same first.bounded rfl rfl fun reloc mem =>
    List.mem_append_left _ mem)

theorem grows_emitJumpBack (bounded : piece.barrier ≤ piece.size) (op : Opcode)
    (reg : Register) (target : Int) :
    Grows piece (piece.emitJumpBack op reg target) := by
  have first := grows_push bounded (.instruction ⟨op, reg, .unused, 0⟩)
  exact first.trans (grows_push first.bounded _)

theorem grows_setLine (bounded : piece.barrier ≤ piece.size) (number : Int) (text : Text) :
    Grows piece (piece.setLine number text) := by
  unfold setLine
  split
  · split <;> exact grows_of_same bounded rfl rfl fun _ => id
  · exact grows_of_same bounded rfl rfl fun _ => id

theorem pending_label (piece : Piece) : piece.label.1.pending = [] := by
  have none : piece.code.toList.drop piece.size = [] := List.drop_eq_nil_of_le (by simp [size])
  rw [pending, label, none]
  rfl

theorem grows_label (piece : Piece) : Grows piece piece.label.1 where
  bounded := Nat.le_refl _
  settled := by
    rw [settled, settled, pending_label]
    exact Nat.sub_le_sub_left (Nat.zero_le _) _
  same _ _ := rfl
  relocations _ := id

theorem fixJump_eq (branch : piece.BranchAt cell) :
    (piece.fixJump cell).1 = { piece.label.1 with
      code := piece.code.setIfInBounds cell
        (.immediate (BitVec.ofInt 32 ((piece.size : Int) - cell))) } := by
  obtain ⟨decoded, value, -, -, found⟩ := branch
  have natural : ¬ (cell : Int) < 0 := by omega
  have imm : piece.code.immediate? cell = some value := by
    simp [Code.immediate?, Code.cell?, natural, found]
  simp only [fixJump, Code.patch?, imm]
  rfl

theorem getElem?_fixJump (branch : piece.BranchAt cell) (index : Nat) :
    (piece.fixJump cell).1.code[index]? =
      if index = cell then some (.immediate (BitVec.ofInt 32 ((piece.size : Int) - cell)))
      else piece.code[index]? := by
  obtain ⟨decoded, value, before, jump, found⟩ := branch
  have inside := (Array.getElem?_eq_some_iff.mp found).1
  rw [fixJump_eq ⟨decoded, value, before, jump, found⟩]
  dsimp only
  rw [Array.getElem?_setIfInBounds]
  by_cases here : index = cell
  · rw [if_pos here.symm, if_pos inside, if_pos here]
  · rw [if_neg (Ne.symm here), if_neg here]

theorem size_fixJump (branch : piece.BranchAt cell) :
    (piece.fixJump cell).1.size = piece.size := by
  rw [fixJump_eq branch, size, size, Array.size_setIfInBounds]

theorem pending_fixJump (branch : piece.BranchAt cell) :
    (piece.fixJump cell).1.pending = [] := by
  have size := size_fixJump branch
  have none : (piece.fixJump cell).1.code.toList.drop piece.size = [] :=
    List.drop_eq_nil_of_le (by
      rw [← size]
      simp [Piece.size])
  have barrier : (piece.fixJump cell).1.barrier = piece.size := by
    rw [fixJump_eq branch]
    rfl
  rw [pending, barrier, none]
  rfl

theorem settled_fixJump (branch : piece.BranchAt cell) :
    (piece.fixJump cell).1.settled = piece.size := by
  rw [settled, pending_fixJump branch, size_fixJump branch]
  rfl

/-- How a piece goes on from one state to another: jumps that stay open may be added, and others
fixed. -/
structure Follows (piece later : Piece) (before after : List Nat) : Prop where
  bounded : later.barrier ≤ later.size
  settled : piece.settled ≤ later.settled
  branches : ∀ cell, cell < piece.settled → piece.BranchAt cell → later.BranchAt cell
  completes : ∀ final others, later.Completes final (others ++ after) →
    piece.Completes final (others ++ before)

theorem Grows.follows (grows : Grows piece later) (holes : List Nat) :
    Follows piece later holes holes :=
  ⟨grows.bounded, grows.settled, fun _ => grows.branchAt, fun _ _ => grows.completes⟩

theorem Follows.trans {before between after : List Nat}
    (first : Follows piece later before between) (second : Follows later last between after) :
    Follows piece last before after where
  bounded := second.bounded
  settled := Nat.le_trans first.settled second.settled
  branches cell small branch := second.branches cell (Nat.lt_of_lt_of_le small first.settled)
    (first.branches cell small branch)
  completes final others complete :=
    first.completes final others (second.completes final others complete)

/-- A fixed jump was open before. -/
theorem follows_fixJump (branch : piece.BranchAt cell) (holes : List Nat) :
    Follows piece (piece.fixJump cell).1 (cell :: holes) holes where
  bounded := by
    rw [size_fixJump branch, fixJump_eq branch]
    exact Nat.le_refl _
  settled := by
    rw [settled_fixJump branch]
    exact piece.settled_le
  branches other small found := by
    obtain ⟨decoded, value, before, jump, at'⟩ := found
    have apart : other - 1 ≠ cell := by
      rintro rfl
      obtain ⟨_, _, _, _, here⟩ := branch
      rw [before] at here
      simp at here
    have first : (piece.fixJump cell).1.code[other - 1]? = some (.instruction decoded) := by
      rw [getElem?_fixJump branch, if_neg apart, before]
    by_cases here : other = cell
    · exact ⟨decoded, _, first, jump, (getElem?_fixJump branch other).trans (if_pos here)⟩
    · exact ⟨decoded, value, first, jump,
        ((getElem?_fixJump branch other).trans (if_neg here)).trans at'⟩
  completes final others complete := by
    refine ⟨fun index small => ?_, ?_⟩
    · by_cases here : index = cell
      · exact .inr (.inl ⟨by simp [here], here ▸ branch⟩)
      · have inside : index < (piece.fixJump cell).1.settled := by
          have known := piece.settled_le
          rw [settled_fixJump branch]
          omega
        have same := (getElem?_fixJump branch index).trans (if_neg here)
        have apart : ∀ decoded, (piece.fixJump cell).1.code[index - 1]? =
            some (.instruction decoded) → piece.code[index - 1]? = some (.instruction decoded) := by
          intro decoded found
          rw [getElem?_fixJump branch] at found
          split at found
          · simp at found
          · exact found
        rcases complete.cells index inside with agrees | ⟨hole, decoded, value, found, jump, at'⟩ |
          ⟨decoded, found, call, at'⟩
        · exact .inl (agrees.trans same)
        · have mem : index ∈ others ++ cell :: holes := by
            rcases List.mem_append.mp hole with left | right
            · exact List.mem_append_left _ left
            · exact List.mem_append_right _ (List.mem_cons_of_mem _ right)
          exact .inr (.inl ⟨mem, decoded, value, apart decoded found, jump, same ▸ at'⟩)
        · exact .inr (.inr ⟨decoded, apart decoded found, call, same ▸ at'⟩)
    · intro reloc mem
      refine complete.calls reloc ?_
      rw [fixJump_eq branch]
      exact mem

/-- A jump that is fixed and not open any more leads to the end of the code. -/
theorem Completes.fixed {final : Code} {holes : List Nat}
    (branch : piece.BranchAt cell) (complete : (piece.fixJump cell).1.Completes final holes)
    (closed : cell ∉ holes) :
    final[cell]? = some (.immediate (BitVec.ofInt 32 ((piece.size : Int) - cell))) := by
  have inside : cell < (piece.fixJump cell).1.settled := by
    rw [settled_fixJump branch]
    obtain ⟨_, _, _, _, found⟩ := branch
    exact (Array.getElem?_eq_some_iff.mp found).1
  have here := (getElem?_fixJump branch cell).trans (if_pos rfl)
  rcases complete.cells cell inside with agrees | ⟨hole, -⟩ | ⟨decoded, found, call, at'⟩
  · exact agrees.trans here
  · exact absurd hole closed
  · have apart : cell - 1 ≠ cell := by
      intro same
      rw [same, here] at found
      simp at found
    rw [getElem?_fixJump branch, if_neg apart] at found
    obtain ⟨other, _, before, jump, _⟩ := branch
    rw [before] at found
    obtain rfl := Cell.instruction.inj (Option.some.inj found)
    rw [call] at jump
    simp at jump

/-- A jump is left open. -/
theorem follows_emitJump (bounded : piece.barrier ≤ piece.size) (op : Opcode) (reg : Register)
    (holes : List Nat) :
    Follows piece (piece.emitJump op reg).1 holes ((piece.emitJump op reg).2 :: holes) where
  bounded := (grows_emitImmediate bounded _ _).bounded
  settled := (grows_emitImmediate bounded _ _).settled
  branches _ := (grows_emitImmediate bounded _ _).branchAt
  completes final others complete := by
    have grown := (grows_emitImmediate bounded ⟨op, reg, .unused, 0⟩ 0).completes complete
    refine ⟨fun index small => ?_, grown.calls⟩
    have known := piece.settled_le
    have differs : index ≠ (piece.emitJump op reg).2 := by
      show index ≠ piece.size + 1
      omega
    rcases grown.cells index small with agrees | ⟨hole, branch⟩ | vacant
    · exact .inl agrees
    · refine .inr (.inl ⟨?_, branch⟩)
      rcases List.mem_append.mp hole with left | right
      · exact List.mem_append_left _ left
      · rcases List.mem_cons.mp right with same | rest
        · exact absurd same differs
        · exact List.mem_append_right _ rest
    · exact .inr (.inr vacant)

theorem emitImmediate_code (piece : Piece) (instr : Instruction) (value : BitVec 32) :
    (piece.emitImmediate instr value).1.code =
      (piece.code.push (.instruction instr)).push (.immediate value) := by
  unfold emitImmediate
  dsimp only
  split <;> rfl

theorem getElem?_emitImmediate (piece : Piece) (instr : Instruction) (value : BitVec 32) :
    (piece.emitImmediate instr value).1.code[piece.size]? =
        some (.instruction instr) ∧
      (piece.emitImmediate instr value).1.code[piece.size + 1]? =
        some (.immediate value) := by
  rw [emitImmediate_code]
  constructor
  · rw [Array.getElem?_push, if_neg (by simp [size]), Array.getElem?_push,
      if_pos (by simp [size])]
  · rw [Array.getElem?_push, if_pos (by simp [size])]

theorem getElem?_emitImmediate_of_lt (piece : Piece) (instr : Instruction)
    (value : BitVec 32) {index : Nat} (small : index < piece.size) :
    (piece.emitImmediate instr value).1.code[index]? = piece.code[index]? := by
  have inside : index < piece.code.size := small
  rw [emitImmediate_code, Array.getElem?_push, if_neg (by simp only [Array.size_push]; omega),
    Array.getElem?_push, if_neg (Nat.ne_of_lt inside)]

theorem size_emitImmediate (piece : Piece) (instr : Instruction) (value : BitVec 32) :
    (piece.emitImmediate instr value).1.size = piece.size + 2 := by
  rw [size, emitImmediate_code]
  simp [size]

theorem pending_emitImmediate (piece : Piece) (bounded : piece.barrier ≤ piece.size)
    (instr : Instruction) (value : BitVec 32) :
    (piece.emitImmediate instr value).1.pending = [] := by
  unfold emitImmediate
  dsimp only
  split <;> exact pending_push (grows_push (by exact bounded) _).bounded _

/-- An emitted instruction with an immediate is final. -/
theorem Completes.emitted_instruction {instr : Instruction} {final : Code}
    {holes : List Nat} (complete : (piece.emitImmediate instr value).1.Completes final holes)
    (bounded : piece.barrier ≤ piece.size) :
    final[piece.size]? = some (.instruction instr) := by
  have settled : (piece.emitImmediate instr value).1.settled = piece.size + 2 := by
    rw [Piece.settled, piece.pending_emitImmediate bounded, piece.size_emitImmediate]
    rfl
  exact complete.instruction (by omega) (piece.getElem?_emitImmediate instr value).1

/-- The immediate of an emitted instruction is final, unless it is that of a jump or of a call that
the linker fills in. -/
theorem Completes.emitted_immediate {instr : Instruction} {final : Code}
    {holes : List Nat} (complete : (piece.emitImmediate instr value).1.Completes final holes)
    (bounded : piece.barrier ≤ piece.size) (jump : instr.op ≠ .jump ∧ instr.op ≠ .jumpZero)
    (call : instr.op ≠ .call ∨ value ≠ 0) :
    final[piece.size + 1]? = some (.immediate value) := by
  have settled : (piece.emitImmediate instr value).1.settled = piece.size + 2 := by
    rw [Piece.settled, piece.pending_emitImmediate bounded, piece.size_emitImmediate]
    rfl
  obtain ⟨first, second⟩ := piece.getElem?_emitImmediate instr value
  exact complete.immediate (by omega) first second jump call

theorem branchAt_emitJump (piece : Piece) {op : Opcode} (reg : Register)
    (jump : op = .jump ∨ op = .jumpZero) :
    (piece.emitJump op reg).1.BranchAt (piece.emitJump op reg).2 := by
  obtain ⟨first, second⟩ := piece.getElem?_emitImmediate ⟨op, reg, .unused, 0⟩ 0
  exact ⟨_, _, first, jump, second⟩

/-- The code does not end in a return, or a jump leads behind it. -/
def Live (piece : Piece) (landing : Nat) : Prop :=
  landing = piece.settled ∨ (piece.truncate piece.settled).lastOp? ≠ some .giveBack

theorem lastOp?_congr (code : later.code = piece.code) : later.lastOp? = piece.lastOp? := by
  rw [lastOp?, lastOp?, size, size, code]

theorem lastOp?_push (piece : Piece) (instr : Instruction) :
    (piece.push (.instruction instr)).lastOp? = some instr.op := by
  have last : ((piece.push (.instruction instr)).size : Int) - 1 = piece.size := by
    rw [size_push]
    omega
  have natural : ¬ (piece.size : Int) < 0 := by omega
  have found := piece.getElem?_push (.instruction instr) piece.size
  rw [if_pos rfl] at found
  simp [lastOp?, last, Code.immediate?, Code.instruction?, Code.cell?, natural, found]

theorem lastOp?_emitImmediate (piece : Piece) (instr : Instruction) (value : BitVec 32) :
    (piece.emitImmediate instr value).1.lastOp? = some instr.op := by
  obtain ⟨first, second⟩ := piece.getElem?_emitImmediate instr value
  have count := piece.size_emitImmediate instr value
  have last : ((piece.size + 2 : Nat) : Int) - 1 = (piece.size + 1 : Nat) := by omega
  have before : ((piece.size + 1 : Nat) : Int) - 1 = piece.size := by omega
  have natural : ¬ (piece.size : Int) < 0 := by omega
  have following : ¬ ((piece.size + 1 : Nat) : Int) < 0 := by omega
  rw [lastOp?, count, last]
  simp only [Code.immediate?, Code.cell?, following, ↓reduceIte, Int.toNat_natCast, second,
    Option.isSome_some, before, Code.instruction?, natural, first, Option.map_some]

theorem truncate_settled (settled : piece.pending = []) :
    (piece.truncate piece.settled).code = piece.code := by
  have all : piece.settled = piece.size := by
    rw [Piece.settled, settled]
    rfl
  rw [all]
  simp [truncate, size]

theorem live_of_lastOp? {op : Opcode} (settled : piece.pending = [])
    (last : piece.lastOp? = some op) (other : op ≠ .giveBack) : piece.Live landing := by
  right
  rw [lastOp?_congr (truncate_settled settled), last]
  simpa using other

theorem Live.congr (live : piece.Live landing) (settled : later.settled = piece.settled)
    (same : ∀ index, index < piece.settled → later.code[index]? = piece.code[index]?) :
    later.Live landing := by
  have code : (later.truncate later.settled).code = (piece.truncate piece.settled).code := by
    apply Array.ext_getElem?
    intro index
    rw [getElem?_truncate, getElem?_truncate, settled]
    split
    · next small => exact same index small
    · rfl
  rcases live with lands | last
  · exact .inl (lands.trans settled.symm)
  · exact .inr (by rw [lastOp?_congr code]; exact last)

theorem live_emitImmediate (bounded : piece.barrier ≤ piece.size) {instr : Instruction}
    (value : BitVec 32) (landing : Nat) (other : instr.op ≠ .giveBack) :
    (piece.emitImmediate instr value).1.Live landing := by
  exact live_of_lastOp? (piece.pending_emitImmediate bounded instr value)
    (piece.lastOp?_emitImmediate instr value) other

theorem pending_emit (bounded : piece.barrier ≤ piece.size) {instr : Instruction}
    (push : instr.op ≠ .push) (pop : instr.op ≠ .pop) :
    (piece.emit instr).1 = piece.push (.instruction instr) ∧
      (piece.emit instr).1.pending = [] := by
  have same : (piece.emit instr).1 = piece.push (.instruction instr) := by
    unfold emit
    split
    · next found => exact absurd found push
    · next found => exact absurd found pop
    · rfl
  rw [same, pending_push bounded, Cell.pushed?, if_neg push]
  exact ⟨rfl, rfl⟩

theorem live_emit (bounded : piece.barrier ≤ piece.size) {instr : Instruction}
    (landing : Nat) (push : instr.op ≠ .push) (pop : instr.op ≠ .pop)
    (other : instr.op ≠ .giveBack) : (piece.emit instr).1.Live landing := by
  obtain ⟨same, settled⟩ := pending_emit bounded push pop
  refine live_of_lastOp? settled ?_ other
  rw [same, lastOp?_push]

theorem live_emitPush (bounded : piece.barrier ≤ piece.size) (reg : Register)
    (live : piece.Live landing) : (piece.emitPush reg).Live landing := by
  refine live.congr ?_ (grows_emit bounded _).same
  show (Piece.push { piece with depth := piece.depth - 8 } _).settled = _
  rw [settled_push (by exact bounded)]
  rfl

theorem live_emitPop (bounded : piece.barrier ≤ piece.size) (reg : Register)
    (live : piece.Live landing) : (piece.emitPop reg).Live landing := by
  have grows := grows_emit bounded ⟨.pop, reg, .unused, 0⟩
  unfold emitPop emit at *
  dsimp only at *
  split at grows
  · next cancels =>
    rw [if_pos cancels]
    exact live.congr (settled_truncate cancels) grows.same
  · next cancels =>
    rw [if_neg cancels]
    refine live_of_lastOp? ?_ (lastOp?_push _ _) (by simp)
    exact pending_push (by exact bounded) _

/-- The line that the next cells belong to stays, and so does the line table but for cells of that
line. -/
structure SameLine (piece later : Piece) : Prop where
  lines : later.lines = piece.lines
  current : later.currentLine = piece.currentLine
  rows : ∀ (index : Nat) row, later.lineOf[index]? = some row →
    piece.lineOf[index]? = some row ∨ row = piece.currentLine

theorem SameLine.refl (piece : Piece) : SameLine piece piece :=
  ⟨rfl, rfl, fun _ _ => .inl⟩

theorem SameLine.trans (first : SameLine piece later) (second : SameLine later last) :
    SameLine piece last := by
  refine ⟨second.lines.trans first.lines, second.current.trans first.current, ?_⟩
  intro index row found
  rcases second.rows index row found with old | new
  · exact first.rows index row old
  · exact .inr (new.trans first.current)

/-- The code, the relocations and the tracked depth do not matter. -/
theorem sameLine_of_same (lines : later.lines = piece.lines) (lineOf : later.lineOf = piece.lineOf)
    (current : later.currentLine = piece.currentLine) : SameLine piece later :=
  ⟨lines, current, fun _ _ found => .inl (lineOf ▸ found)⟩

theorem sameLine_push (piece : Piece) (cell : Cell) : SameLine piece (piece.push cell) := by
  refine ⟨rfl, rfl, fun index row found => ?_⟩
  rw [push, Array.getElem?_push] at found
  split at found
  · exact .inr (Option.some.inj found).symm
  · exact .inl found

theorem sameLine_depth (depth : Int) : SameLine piece { piece with depth } :=
  sameLine_of_same rfl rfl rfl

theorem sameLine_truncate (piece : Piece) (count : Nat) :
    SameLine piece (piece.truncate count) := by
  refine ⟨rfl, rfl, fun index row found => ?_⟩
  rw [getElem?_lineOf_truncate] at found
  split at found
  · exact .inl found
  · contradiction

theorem sameLine_emit (piece : Piece) (instr : Instruction) :
    SameLine piece (piece.emit instr).1 := by
  unfold emit
  split
  · exact (sameLine_depth _).trans (sameLine_push _ _)
  · dsimp only
    split
    · exact (sameLine_depth _).trans (sameLine_truncate _ _)
    · exact (sameLine_depth _).trans (sameLine_push _ _)
  · exact sameLine_push _ _

theorem sameLine_emitImmediate (piece : Piece) (instr : Instruction) (value : BitVec 32) :
    SameLine piece (piece.emitImmediate instr value).1 := by
  unfold emitImmediate
  dsimp only
  split
  · exact (sameLine_depth _).trans ((sameLine_push _ _).trans (sameLine_push _ _))
  · exact (sameLine_push _ _).trans (sameLine_push _ _)

/-- A piece was made longer by code of one line that does not end in a return. -/
structure Emitted (piece later : Piece) : Prop extends Grows piece later, SameLine piece later where
  live : ∀ landing, piece.Live landing → later.Live landing

theorem Emitted.refl (bounded : piece.barrier ≤ piece.size) : Emitted piece piece :=
  ⟨.refl bounded, .refl piece, fun _ => id⟩

theorem Emitted.trans (first : Emitted piece later) (second : Emitted later last) :
    Emitted piece last :=
  ⟨first.toGrows.trans second.toGrows, first.toSameLine.trans second.toSameLine,
    fun _ live => second.live _ (first.live _ live)⟩

theorem emitted_emit (bounded : piece.barrier ≤ piece.size) {instr : Instruction}
    (push : instr.op ≠ .push) (pop : instr.op ≠ .pop)
    (other : instr.op ≠ .giveBack) : Emitted piece (piece.emit instr).1 :=
  ⟨grows_emit bounded _, sameLine_emit _ _,
    fun landing _ => live_emit bounded landing push pop other⟩

theorem emitted_emitImmediate (bounded : piece.barrier ≤ piece.size) {instr : Instruction}
    (value : BitVec 32) (other : instr.op ≠ .giveBack) :
    Emitted piece (piece.emitImmediate instr value).1 :=
  ⟨grows_emitImmediate bounded _ _, sameLine_emitImmediate _ _ _,
    fun landing _ => live_emitImmediate bounded value landing other⟩

theorem emitted_emitPush (bounded : piece.barrier ≤ piece.size) (reg : Register) :
    Emitted piece (piece.emitPush reg) :=
  ⟨grows_emit bounded _, sameLine_emit _ _, fun _ => live_emitPush bounded reg⟩

theorem emitted_emitPop (bounded : piece.barrier ≤ piece.size) (reg : Register) :
    Emitted piece (piece.emitPop reg) :=
  ⟨grows_emit bounded _, sameLine_emit _ _, fun _ => live_emitPop bounded reg⟩

theorem emitted_emitCall (bounded : piece.barrier ≤ piece.size) (target : Option Nat) :
    Emitted piece (piece.emitCall target) := by
  have first : Emitted piece (piece.emitImmediate ⟨.call, .unused, .unused, 0⟩ 0).1 :=
    emitted_emitImmediate bounded 0 (by simp)
  exact ⟨grows_emitCall bounded target, first.toSameLine.trans (sameLine_of_same rfl rfl rfl),
    first.live⟩

end Piece

end TinLang
