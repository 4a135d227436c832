import Mathlib.Data.List.Induction
import Mathlib.Logic.Relation
import TinLang.Proofs.Edits

/-!
# What is left of the calls of a writer

The calls that write a piece leave a record: the instructions they wrote and the labels they set, in
order. A pop and the push right before it leave the record together (`Cancels`), and nothing else
does. The code of the piece is what is left of the record in the end: every cell is the one that its
call wrote, apart from the distances of jumps that were told where to lead, and a label is the cell
of the first instruction that is left behind it (`Draft.upheld_of_written`).
-/
namespace TinLang.Piece

/-- An instruction that a call wrote: the number of the call, the instruction, and its immediate
as it was written. -/
structure Row where
  time : Nat
  instruction : Instruction
  immediate : BitVec 32 := 0
  deriving DecidableEq, Repr

/-- What a call leaves in the record of a piece. -/
inductive Mark where
  | wrote (row : Row)
  | label (time : Nat)
  deriving DecidableEq, Repr

/-- The number of the call that left a mark. -/
def Mark.time : Mark → Nat
  | .wrote row => row.time
  | .label time => time

/-- The instruction that a mark stands for. -/
def Mark.row? : Mark → Option Row
  | .wrote row => some row
  | .label _ => none

/-- The cells that a mark stands for. -/
def Mark.cells : Mark → List Cell
  | .wrote row => row.instruction.cells row.immediate
  | .label _ => []

/-- For each cell of a mark the number of the call. -/
def Mark.ages : Mark → List Nat
  | .wrote row => List.replicate row.instruction.width row.time
  | .label _ => []

/-- How many cells some marks stand for. -/
def width (marks : List Mark) : Nat := (marks.flatMap Mark.cells).length

/-- What the call of a number leaves in the record. The immediates of jumps are told later. -/
def Edit.mark? (time : Nat) : Edit → Option Mark
  | .emit instr => some (.wrote ⟨time, instr, 0⟩)
  | .emitImmediate instr value => some (.wrote ⟨time, instr, value⟩)
  | .push reg => some (.wrote ⟨time, ⟨.push, reg, .unused, 0⟩, 0⟩)
  | .pop reg => some (.wrote ⟨time, ⟨.pop, reg, .unused, 0⟩, 0⟩)
  | .jump op reg => some (.wrote ⟨time, ⟨op, reg, .unused, 0⟩, 0⟩)
  | .jumpBack op reg _ => some (.wrote ⟨time, ⟨op, reg, .unused, 0⟩, 0⟩)
  | .call _ => some (.wrote ⟨time, ⟨.call, .unused, .unused, 0⟩, 0⟩)
  | .callNative id => some (.wrote ⟨time, ⟨.call, .unused, .unused, 0⟩, BitVec.ofInt 32 id⟩)
  | .fix _ | .label => some (.label time)
  | .setLine _ _ => none

/-- The record of some calls, the first call first. -/
def marks (edits : List Edit) : List Mark :=
  edits.zipIdx.filterMap fun (edit, time) => edit.mark? time

/-- A push that the pop right after it takes back. -/
def Mark.Meets : Mark → Mark → Prop
  | .wrote push, .wrote pop => push.instruction.op = .push ∧ pop.instruction.op = .pop ∧
    push.instruction.first = pop.instruction.first
  | _, _ => False

instance (first second : Mark) : Decidable (first.Meets second) := by
  cases first <;> cases second <;> unfold Mark.Meets <;> infer_instance

/-- A pop and the push before it, with no label between them, leave the record together. -/
inductive Cancels : List Mark → List Mark → Prop where
  | pair {before after : List Mark} {push pop : Mark} (meets : push.Meets pop) :
    Cancels (before ++ push :: pop :: after) (before ++ after)

/-- The marks with one more, or without the last if it cancels that. -/
def settle (marks : List Mark) (mark : Mark) : List Mark :=
  if ∃ last ∈ marks.getLast?, last.Meets mark then marks.dropLast else marks ++ [mark]

/-- What is left of the record of some calls. -/
def remaining (edits : List Edit) : List Mark := (marks edits).foldl settle []

variable {edits : List Edit} {edit : Edit} {left : List Mark} {row : Row}

/-- The cells of some marks come before those of the marks behind them. -/
theorem width_append (before after : List Mark) : width (before ++ after) = width before +
    width after := by
  simp [width]

/-- One instruction more. -/
theorem width_wrote (before : List Mark) : width (before ++ [.wrote row]) = width before +
    row.instruction.width := by
  simp [width, Mark.cells, Instruction.length_cells]

/-- A label takes no room. -/
theorem width_label (before : List Mark) (time : Nat) : width (before ++ [.label time]) =
    width before := by
  simp [width, Mark.cells]

/-- The record of one call more. -/
theorem marks_snoc : marks (edits ++ [edit]) = marks edits ++ (edit.mark? edits.length).toList := by
  rw [marks, List.zipIdx_append, List.filterMap_append, Nat.zero_add, List.zipIdx_singleton]
  cases found : edit.mark? edits.length <;> simp [marks, found]

/-- What is left after one call more. -/
theorem remaining_snoc : remaining (edits ++ [edit]) =
    (edit.mark? edits.length).toList.foldl settle (remaining edits) := by
  rw [remaining, marks_snoc, List.foldl_append, remaining]

/-- What a pop takes out of a record it takes out of every longer one. -/
theorem Cancels.append {before after later : List Mark} (cancels : Cancels before after) :
    Cancels (before ++ later) (after ++ later) := by
  obtain ⟨meets⟩ := cancels
  simpa using Cancels.pair meets

/-- One mark more is put behind the others or taken out together with the last of them. -/
theorem settle_cases (left : List Mark) (mark : Mark) :
    (∃ rest last, left = rest ++ [last] ∧ last.Meets mark ∧ settle left mark = rest) ∨
      (¬ ∃ last ∈ left.getLast?, last.Meets mark) ∧ settle left mark = left ++ [mark] := by
  by_cases meets : ∃ last ∈ left.getLast?, last.Meets mark
  · obtain ⟨last, ends, meet⟩ := meets
    obtain ⟨rest, rfl⟩ := List.getLast?_eq_some_iff.mp ends
    refine .inl ⟨rest, last, rfl, meet, ?_⟩
    rw [settle, if_pos ⟨last, ends, meet⟩, List.dropLast_concat]
  · exact .inr ⟨meets, if_neg meets⟩

/-- What is left of a record is reached by cancelling pairs. -/
theorem cancels_remaining (edits : List Edit) :
    Relation.ReflTransGen Cancels (marks edits) (remaining edits) := by
  induction edits using List.reverseRecOn with
  | nil => exact .refl
  | append_singleton edits edit ih =>
    have longer := ih.lift (· ++ (edit.mark? edits.length).toList) fun _ _ => Cancels.append
    rw [remaining_snoc, marks_snoc]
    cases found : edit.mark? edits.length with
    | none => simpa [found] using longer
    | some mark =>
      rw [found] at longer
      rcases settle_cases (remaining edits) mark with ⟨rest, last, same, meets,
        settled⟩ | ⟨-, settled⟩
      · rw [same] at longer
        have pair : Cancels (rest ++ last :: mark :: []) (rest ++ []) := .pair meets
        simpa [settled] using longer.tail (by simpa using pair)
      · simpa [settled] using longer

/-- No two neighbours among the marks cancel each other. -/
def Settled (left : List Mark) : Prop :=
  ∀ before first second after, left = before ++ first :: second :: after → ¬ first.Meets second

/-- One mark more leaves no pair that could be cancelled. -/
theorem Settled.settle (settled : Settled left) (mark : Mark) : Settled (settle left mark) := by
  intro before first second after split
  rcases settle_cases left mark with ⟨rest, last, rfl, -, same⟩ | ⟨apart, same⟩
  · refine settled before first second (after ++ [last]) ?_
    rw [← same, split]
    simp
  · rw [same] at split
    rcases List.eq_nil_or_concat after with rfl | ⟨others, last, rfl⟩
    · have ends : left = before ++ [first] ∧ mark = second := by
        have both : left ++ [mark] = (before ++ [first]) ++ [second] := by simpa using split
        obtain ⟨front, back⟩ := List.append_inj' both rfl
        exact ⟨front, List.singleton_inj.mp back⟩
      obtain ⟨rfl, rfl⟩ := ends
      exact fun meets => apart ⟨first, by simp, meets⟩
    · have both : left ++ [mark] = (before ++ first :: second :: others) ++ [last] := by
        simpa using split
      exact settled before first second others (List.append_inj' both rfl).1

/-- Nothing more of a record can be cancelled in the end. -/
theorem settled_remaining (edits : List Edit) : Settled (remaining edits) := by
  induction edits using List.reverseRecOn with
  | nil => exact fun before first second after split => by simp [remaining, marks] at split
  | append_singleton edits edit ih =>
    rw [remaining_snoc]
    cases edit.mark? edits.length with
    | none => exact ih
    | some mark => exact ih.settle mark

namespace Draft

variable {draft : Draft}

/-- A row stands at a cell: its instruction is there and its immediate behind it, as it was written
unless it is that of a jump that was told where to lead. -/
structure Holds (draft : Draft) (row : Row) (cell : Nat) : Prop where
  here : draft.piece.code[cell]? = some (.instruction row.instruction)
  behind : row.instruction.op.hasImmediate → ∃ value,
    draft.piece.code[cell + 1]? = some (.immediate value) ∧
      (draft.aims.lookup (cell + 1) = none → value = row.immediate)

/-- A cell stays what it is in a call, or is the immediate of a jump that the call tells where to
lead. -/
def Keeps (draft : Draft) (edit : Edit) (index : Nat) (cell : Cell) : Prop :=
  (edit.apply draft.piece).code[index]? = some cell ∨ ∃ old new, cell = .immediate old ∧
    (edit.apply draft.piece).code[index]? = some (.immediate new) ∧
      ((draft.aimed edit).lookup index).isSome

/-- What a call does to the code. -/
inductive Effect (draft : Draft) (edit : Edit) : Option Mark → Prop where
  | none (code : (edit.apply draft.piece).code = draft.piece.code)
    (barrier : (edit.apply draft.piece).barrier = draft.piece.barrier) : Effect draft edit none
  | label {time : Nat} (size : (edit.apply draft.piece).size = draft.piece.size)
    (keeps : ∀ {index cell}, draft.piece.code[index]? = some cell → draft.Keeps edit index cell)
    (barrier : (edit.apply draft.piece).barrier = draft.piece.size) :
    Effect draft edit (some (.label time))
  | cancel {row : Row} (pop : row.instruction.op = .pop)
    (cancels : draft.piece.cancels row.instruction.first)
    (code : (edit.apply draft.piece).code = (draft.piece.truncate (draft.piece.size - 1)).code)
    (barrier : (edit.apply draft.piece).barrier = draft.piece.barrier) :
    Effect draft edit (some (.wrote row))
  | wrote {row : Row} (imm : BitVec 32)
    (other : ¬ (row.instruction.op = .pop ∧ draft.piece.cancels row.instruction.first))
    (code : (edit.apply draft.piece).code =
      draft.piece.code ++ (row.instruction.cells imm).toArray)
    (told : (draft.aimed edit).lookup (draft.piece.size + 1) = Option.none → imm = row.immediate)
    (barrier : (edit.apply draft.piece).barrier = draft.piece.barrier) :
    Effect draft edit (some (.wrote row))

/-- An allowed call does what its mark says. -/
theorem Sound.effect (sound : draft.Sound) (allowed : draft.Allows edit) (time : Nat) :
    Effect draft edit (edit.mark? time) := by
  have extended : ∀ {instr imm written more depth},
      edit.apply draft.piece = draft.piece.extend (instr.cells imm) more depth →
      ¬ (instr.op = .pop ∧ draft.piece.cancels instr.first) →
      ((draft.aimed edit).lookup (draft.piece.size + 1) = none → imm = written) →
      Effect draft edit (some (.wrote ⟨time, instr, written⟩)) := by
    intro instr imm written more depth same other told
    refine .wrote imm other ?_ told ?_
    all_goals rw [same, extend]
  have wide : ∀ {instr imm more depth}, instr.op.hasImmediate →
      edit.apply draft.piece = draft.piece.extend (instr.cells imm) more depth →
      Effect draft edit (some (.wrote ⟨time, instr, imm⟩)) := by
    intro instr imm more depth wide same
    refine extended same (fun both => ?_) fun _ => rfl
    rw [both.1] at wide
    contradiction
  have plain : ∀ {instr}, instr.op.hasImmediate = false →
      edit.apply draft.piece = (draft.piece.emit instr).1 →
      Effect draft edit (some (.wrote ⟨time, instr, 0⟩)) := by
    intro instr plain same
    rcases emit_cases draft.piece plain with ⟨⟨pop, cancels⟩, after⟩ | ⟨other, after⟩
    · refine .cancel pop cancels ?_ ?_
      all_goals rw [same, after]
      rfl
    · exact extended (same.trans after) other fun _ => rfl
  cases edit with
  | emit instr => exact plain allowed.2 rfl
  | emitImmediate instr value => exact wide allowed (emitImmediate_eq allowed value)
  | push reg => exact plain rfl rfl
  | pop reg => exact plain rfl rfl
  | jump op reg =>
    have leaps : op.hasImmediate := Opcode.hasImmediate_of_leaps allowed
    exact @wide ⟨op, reg, .unused, 0⟩ 0 _ _ leaps (emitImmediate_eq leaps 0)
  | fix cell =>
    obtain ⟨imm, leaps⟩ := sound.holes cell allowed
    refine .label (size_fixJump leaps.branchAt) (fun {index other} found => ?_) (barrier_fixJump _)
    have after := getElem?_fixJump leaps.branchAt index
    by_cases here : index = cell
    · subst here
      obtain ⟨_, _, _, -, -, -, there⟩ := leaps
      rw [there] at found
      rw [if_pos rfl] at after
      exact .inr ⟨_, _, (Option.some.inj found).symm, after, by simp [Draft.aimed]⟩
    · rw [if_neg here] at after
      exact .inl (after.trans found)
  | jumpBack op reg target =>
    refine extended (emitJumpBack_eq_extend draft.piece allowed.1 reg target) (fun both => ?_)
      fun untold => by simp [Draft.aimed] at untold
    have leaps := allowed.1
    rw [show op = .pop from both.1] at leaps
    contradiction
  | label => exact .label rfl .inl rfl
  | call target => exact wide rfl (emitCall_eq draft.piece target)
  | callNative id => exact wide rfl (emitImmediate_eq rfl _)
  | setLine number text =>
    have same : (draft.piece.setLine number text).code = draft.piece.code ∧
        (draft.piece.setLine number text).barrier = draft.piece.barrier := by
      unfold Piece.setLine
      split
      · split <;> exact ⟨rfl, rfl⟩
      · exact ⟨rfl, rfl⟩
    exact .none same.1 same.2

/-- A cell that an allowed call leaves is kept. -/
theorem Effect.keeps {effect : Option Mark} (does : Effect draft edit effect) {index : Nat}
    {cell : Cell} (inside : index < (edit.apply draft.piece).size)
    (found : draft.piece.code[index]? = some cell) : draft.Keeps edit index cell := by
  cases does with
  | none code => exact .inl (code ▸ found)
  | label _ keeps => exact keeps found
  | cancel _ _ code =>
    have size : (edit.apply draft.piece).size = draft.piece.size - 1 := by
      rw [Piece.size, code]
      exact size_truncate draft.piece
    exact .inl (by rw [code, getElem?_truncate, if_pos (size ▸ inside), found])
  | wrote imm _ code =>
    have small := (Array.getElem?_eq_some_iff.mp found).1
    exact .inl (by rw [code, Array.getElem?_append_left small, found])

/-- Where a call leaves the cells of a row the row still stands. -/
theorem Holds.after {cell : Nat} (holds : draft.Holds row cell)
    (keeps : ∀ {index other}, index < cell + row.instruction.width →
      draft.piece.code[index]? = some other → draft.Keeps edit index other) :
    (draft.after edit).Holds row cell := by
  have width : row.instruction.width = if row.instruction.op.hasImmediate then 2 else 1 := rfl
  constructor
  · rcases keeps (by rw [width]; split <;> omega) holds.here with same | ⟨old, -, other, -⟩
    · exact same
    · contradiction
  · intro wide
    obtain ⟨value, found, untold⟩ := holds.behind wide
    have untold' : (draft.after edit).aims.lookup (cell + 1) = none →
        (draft.aimed edit).lookup (cell + 1) = none ∧ draft.aims.lookup (cell + 1) = none := by
      intro none
      rw [Draft.after, List.lookup_append] at none
      exact Option.or_eq_none_iff.mp none
    rcases keeps (by rw [width, if_pos wide]; omega) found with same | ⟨_, new, -, there, told⟩
    · exact ⟨value, same, fun none => untold (untold' none).2⟩
    · refine ⟨new, there, fun none => ?_⟩
      rw [(untold' none).1] at told
      contradiction

/-- A row that was just written stands at the old end of the code. -/
theorem holds_of_code {imm : BitVec 32} (code : (edit.apply draft.piece).code =
      draft.piece.code ++ (row.instruction.cells imm).toArray)
    (told : (draft.aimed edit).lookup (draft.piece.size + 1) = none → imm = row.immediate) :
    (draft.after edit).Holds row draft.piece.size := by
  have cell : ∀ index, (edit.apply draft.piece).code[draft.piece.size + index]? =
      (row.instruction.cells imm)[index]? := by
    intro index
    rw [code, Piece.size, Array.getElem?_append_right (Nat.le_add_right _ _),
      Nat.add_sub_cancel_left, List.getElem?_toArray]
  constructor
  · refine (cell 0).trans ?_
    unfold Instruction.cells
    split <;> rfl
  · intro wide
    refine ⟨imm, (cell 1).trans ?_, fun none => ?_⟩
    · rw [Instruction.cells, if_pos wide]
      rfl
    · rw [Draft.after, List.lookup_append] at none
      exact told (Option.or_eq_none_iff.mp none).1

/-- The piece is what is left of the record. -/
structure Recorded (draft : Draft) (left : List Mark) : Prop where
  filled : draft.piece.size = width left
  rows : ∀ before row after, left = before ++ .wrote row :: after → draft.Holds row (width before)
  /-- Only instructions stand behind the barrier, and a label stands at it. -/
  free : ∃ before, ∃ rows : List Row, left = before ++ rows.map .wrote ∧
    width before = draft.piece.barrier ∧
    ∀ last ∈ before.getLast?, last.row? = none
  labels : ∀ label ∈ draft.labels, ∃ before after, left = before ++ .label label.time :: after ∧
    label.cell = width before
  ages : draft.born = left.flatMap Mark.ages
  clock : draft.clock = draft.edits.length

/-- The record of a piece without code. -/
theorem recorded_blank (name : Text) : (blank name).Recorded [] where
  filled := rfl
  rows := by simp
  free := ⟨[], [], rfl, rfl, by simp⟩
  labels := by simp [blank]
  ages := rfl
  clock := rfl

/-- The last of the marks is an instruction exactly when there are cells behind the barrier. -/
theorem Recorded.barrier_lt_iff (recorded : draft.Recorded left) :
    draft.piece.barrier < draft.piece.size ↔ ∃ rest row, left = rest ++ [.wrote row] := by
  obtain ⟨before, rows, rfl, barrier, ends⟩ := recorded.free
  rcases List.eq_nil_or_concat rows with rfl | ⟨rows, row, rfl⟩
  · rw [recorded.filled, List.map_nil, List.append_nil, ← barrier]
    refine ⟨fun less => absurd less (Nat.lt_irrefl _), ?_⟩
    rintro ⟨rest, row, rfl⟩
    simpa [Mark.row?] using ends (.wrote row) (by simp)
  · refine ⟨fun _ => ⟨before ++ rows.map .wrote, row, by simp⟩, fun _ => ?_⟩
    have width : row.instruction.width = if row.instruction.op.hasImmediate then 2 else 1 := rfl
    have whole : before ++ List.map Mark.wrote (rows ++ [row]) =
        (before ++ rows.map .wrote) ++ [.wrote row] := by simp
    rw [recorded.filled, ← barrier, List.concat_eq_append, whole, width_wrote, width_append, width]
    split <;> omega

/-- The last cell belongs to the last of the marks, if that is an instruction. -/
theorem Recorded.back? {rest : List Mark} (recorded : draft.Recorded (rest ++ [.wrote row])) :
    if row.instruction.op.hasImmediate then
      ∃ value, draft.piece.code.back? = some (.immediate value)
    else draft.piece.code.back? = some (.instruction row.instruction) := by
  have holds := recorded.rows rest row [] rfl
  have filled := recorded.filled
  rw [width_wrote, Piece.size] at filled
  have width : row.instruction.width = if row.instruction.op.hasImmediate then 2 else 1 := rfl
  split
  · next wide =>
    obtain ⟨value, found, -⟩ := holds.behind wide
    rw [width, if_pos wide] at filled
    exact ⟨value, by rw [Array.back?, filled]; exact found⟩
  · next narrow =>
    rw [width, if_neg narrow] at filled
    rw [Array.back?, filled]
    exact holds.here

/-- A pop cancels the last cell exactly when it cancels the last of the marks. -/
theorem Recorded.meets_iff (recorded : draft.Recorded left) :
    (∃ last ∈ left.getLast?, last.Meets (.wrote row)) ↔
      row.instruction.op = .pop ∧ draft.piece.cancels row.instruction.first := by
  constructor
  · rintro ⟨last, ends, meets⟩
    obtain ⟨rest, rfl⟩ := List.getLast?_eq_some_iff.mp ends
    cases last with
    | label => exact meets.elim
    | wrote push =>
      obtain ⟨op, pop, same⟩ := meets
      have inside := recorded.barrier_lt_iff.mpr ⟨rest, push, rfl⟩
      have back := recorded.back?
      rw [op, if_neg (by decide)] at back
      refine ⟨pop, ?_⟩
      simp [Piece.cancels, inside, back, op, same]
  · rintro ⟨pop, cancels⟩
    obtain ⟨push, back, op, same⟩ := back?_of_cancels cancels
    have inside : draft.piece.barrier < draft.piece.size := by
      simp only [Piece.cancels, Bool.and_eq_true, decide_eq_true_eq] at cancels
      exact cancels.1
    obtain ⟨rest, last, rfl⟩ := recorded.barrier_lt_iff.mp inside
    have back' := recorded.back?
    split at back'
    · obtain ⟨value, found⟩ := back'
      simp [found] at back
    · rw [back'] at back
      obtain rfl := Cell.instruction.inj (Option.some.inj back)
      exact ⟨.wrote last, by simp, op, pop, same⟩

/-- A mark says when its call was made. -/
theorem time_of_mark {time : Nat} {mark : Mark} (found : edit.mark? time = some mark) :
    mark.time = time := by
  cases edit with
  | setLine => cases found
  | _ => rw [← Option.some.inj found, Mark.time]

/-- A call that hands out a label leaves a label in the record. -/
theorem mark_of_labelled {label : Landmark} (new : label ∈ draft.labelled edit) (time : Nat) :
    edit.mark? time = some (.label time) := by
  cases edit with
  | label => rfl
  | fix => rfl
  | _ => simp [Draft.labelled] at new

/-- Every cell of some marks has an age. -/
theorem length_ages (left : List Mark) : (left.flatMap Mark.ages).length = width left := by
  induction left with
  | nil => rfl
  | cons mark left ih =>
    have first : mark.ages.length = mark.cells.length := by
      cases mark with
      | wrote row => simp [Mark.ages, Mark.cells, Instruction.length_cells]
      | label => rfl
    rw [width, List.flatMap_cons, List.length_append, first, ih, List.flatMap_cons,
      List.length_append, width]

/-- A row that stands where the code is not cut still stands after a call. -/
theorem Recorded.holds_after (recorded : draft.Recorded left) (sound : draft.Sound)
    (allowed : draft.Allows edit) {before after : List Mark}
    (split : left = before ++ .wrote row :: after)
    (inside : width before + row.instruction.width ≤ (edit.apply draft.piece).size) :
    (draft.after edit).Holds row (width before) :=
  (recorded.rows before row after split).after fun small found =>
    (sound.effect allowed 0).keeps (Nat.lt_of_lt_of_le small inside) found

/-- The label of a longer record is where it was. -/
theorem Recorded.labels_append (recorded : draft.Recorded left) (more : List Mark) :
    ∀ label ∈ draft.labels, ∃ before after,
      left ++ more = before ++ .label label.time :: after ∧ label.cell = width before := by
  intro label mem
  obtain ⟨before, after, rfl, cell⟩ := recorded.labels label mem
  exact ⟨before, after ++ more, by simp, cell⟩

/-- Every cell has an age. -/
theorem Recorded.length_born (recorded : draft.Recorded left) :
    draft.born.length = draft.piece.size := by
  rw [recorded.ages, length_ages, recorded.filled]

/-- The calls are counted. -/
theorem Recorded.clock_after (recorded : draft.Recorded left) (edit : Edit) :
    (draft.after edit).clock = (draft.after edit).edits.length := by
  show draft.clock + 1 = (draft.edits ++ [edit]).length
  rw [recorded.clock, List.length_append, List.length_singleton]

/-- A row stands inside the code. -/
theorem Recorded.bounded (recorded : draft.Recorded left) {before after : List Mark}
    (split : left = before ++ .wrote row :: after) :
    width before + row.instruction.width ≤ draft.piece.size := by
  have whole : left = (before ++ [.wrote row]) ++ after := by simp [split]
  rw [recorded.filled, whole, width_append, width_wrote]
  exact Nat.le_add_right _ _

/-- A call that leaves no label in the record hands none out. -/
theorem labels_after {time : Nat} (other : ∀ time', edit.mark? time ≠ some (.label time')) :
    (draft.after edit).labels = draft.labels := by
  have none : draft.labelled edit = [] := by
    by_contra some
    obtain ⟨label, new⟩ := List.exists_mem_of_ne_nil _ some
    exact other time (mark_of_labelled new time)
  show draft.labels ++ draft.labelled edit = draft.labels
  rw [none, List.append_nil]

/-- The ages after a call that cuts no cell off. -/
theorem Recorded.born_after (recorded : draft.Recorded left)
    (more : draft.piece.size ≤ (edit.apply draft.piece).size) : (draft.after edit).born =
      left.flatMap Mark.ages ++
        List.replicate ((edit.apply draft.piece).size - draft.piece.size) draft.clock := by
  have born := recorded.length_born
  show draft.born.take _ ++ List.replicate _ _ = _
  rw [List.take_of_length_le (by omega), born, recorded.ages]

/-- A call that is not recorded leaves everything where it is. -/
theorem Recorded.unrecorded (recorded : draft.Recorded left) (sound : draft.Sound)
    (allowed : draft.Allows edit) (found : edit.mark? draft.edits.length = none)
    (code : (edit.apply draft.piece).code = draft.piece.code)
    (barrier : (edit.apply draft.piece).barrier = draft.piece.barrier) :
    (draft.after edit).Recorded left := by
  have size : (edit.apply draft.piece).size = draft.piece.size := congrArg Array.size code
  refine ⟨size.trans recorded.filled, fun before row after split => ?_, ?_, ?_, ?_,
    recorded.clock_after edit⟩
  · exact recorded.holds_after sound allowed split (size ▸ recorded.bounded split)
  · obtain ⟨before, rows, same, width, ends⟩ := recorded.free
    exact ⟨before, rows, same, width.trans barrier.symm, ends⟩
  · rw [labels_after fun _ => by rw [found]; simp]
    exact recorded.labels
  · rw [recorded.born_after (Nat.le_of_eq size.symm), size, Nat.sub_self, List.replicate_zero,
      List.append_nil]

/-- A label is put behind the others, and nothing before it can be cut off any more. -/
theorem Recorded.labelled (recorded : draft.Recorded left) (sound : draft.Sound)
    (allowed : draft.Allows edit) (size : (edit.apply draft.piece).size = draft.piece.size)
    (barrier : (edit.apply draft.piece).barrier = draft.piece.size) :
    (draft.after edit).Recorded (left ++ [.label draft.edits.length]) := by
  have filled : (edit.apply draft.piece).size = width (left ++ [.label draft.edits.length]) := by
    rw [width_label, size, recorded.filled]
  refine ⟨filled, fun before row after split => ?_,
    ⟨left ++ [.label draft.edits.length], [], ?_, ?_, ?_⟩, fun label mem => ?_, ?_,
    recorded.clock_after edit⟩
  · rcases List.eq_nil_or_concat after with rfl | ⟨others, last, rfl⟩
    · have ends := (List.append_inj' split rfl).2
      cases ends
    · have both : left ++ [.label draft.edits.length] = (before ++ .wrote row :: others) ++
        [last] := by
        simpa using split
      have front := (List.append_inj' both rfl).1
      exact recorded.holds_after sound allowed front (size ▸ recorded.bounded front)
  · rw [List.map_nil, List.append_nil]
  · rw [← filled, size]
    exact barrier.symm
  · intro last ends
    rw [List.getLast?_concat, Option.mem_some_iff] at ends
    rw [← ends]
    rfl
  · rcases List.mem_append.mp mem with old | new
    · exact recorded.labels_append _ label old
    · obtain ⟨rfl, -, -⟩ := sound.labelled allowed new
      exact ⟨left, [], by rw [recorded.clock], recorded.filled⟩
  · rw [recorded.born_after (Nat.le_of_eq size.symm), size, Nat.sub_self, List.replicate_zero,
      List.flatMap_append]
    rfl

/-- A pop takes the push before it out of the record and of the code. -/
theorem Recorded.cancelled {rest : List Mark} {push : Row}
    (recorded : draft.Recorded (rest ++ [.wrote push])) (sound : draft.Sound)
    (allowed : draft.Allows edit) (found : edit.mark? draft.edits.length = some (.wrote row))
    (op : push.instruction.op = .push)
    (code : (edit.apply draft.piece).code = (draft.piece.truncate (draft.piece.size - 1)).code)
    (barrier : (edit.apply draft.piece).barrier = draft.piece.barrier) :
    (draft.after edit).Recorded rest := by
  have narrow : push.instruction.width = 1 := by
    rw [Instruction.width, op]
    rfl
  have filled := recorded.filled
  rw [width_wrote, narrow] at filled
  have size : (edit.apply draft.piece).size = width rest := by
    rw [Piece.size, code]
    exact (size_truncate draft.piece).trans (by rw [filled, Nat.add_sub_cancel])
  refine ⟨size, fun before row after split => ?_, ?_, ?_, ?_, recorded.clock_after edit⟩
  · have before_push : rest ++ [.wrote push] = before ++ .wrote row ::
      (after ++ [.wrote push]) := by
      simp [split]
    refine recorded.holds_after sound allowed before_push ?_
    have whole : rest = (before ++ [.wrote row]) ++ after := by simp [split]
    rw [size, whole, width_append, width_wrote]
    exact Nat.le_add_right _ _
  · obtain ⟨before, rows, same, width, free⟩ := recorded.free
    rcases List.eq_nil_or_concat rows with rfl | ⟨rows, other, rfl⟩
    · rw [List.map_nil, List.append_nil] at same
      have wrong := free (.wrote push) (by rw [← same]; simp)
      cases wrong
    · have both : rest ++ [.wrote push] = (before ++ rows.map .wrote) ++ [.wrote other] := by
        simpa using same
      exact ⟨before, rows, (List.append_inj' both rfl).1, width.trans barrier.symm, free⟩
  · rw [labels_after fun _ => by rw [found]; simp]
    intro label mem
    obtain ⟨before, after, same, cell⟩ := recorded.labels label mem
    rcases List.eq_nil_or_concat after with rfl | ⟨others, other, rfl⟩
    · have wrong := (List.append_inj' same rfl).2
      cases wrong
    · have both : rest ++ [.wrote push] = (before ++ .label label.time :: others) ++ [other] := by
        simpa using same
      exact ⟨before, others, (List.append_inj' both rfl).1, cell⟩
  · have born := recorded.length_born
    have less : (edit.apply draft.piece).size - draft.born.length = 0 := by omega
    show draft.born.take _ ++ List.replicate _ _ = _
    rw [less, List.replicate_zero, List.append_nil, recorded.ages, List.flatMap_append, size,
      ← length_ages, List.take_left]

/-- An instruction is put behind the others. -/
theorem Recorded.written (recorded : draft.Recorded left) (sound : draft.Sound)
    (allowed : draft.Allows edit) (found : edit.mark? draft.edits.length = some (.wrote row))
    {imm : BitVec 32} (code : (edit.apply draft.piece).code =
      draft.piece.code ++ (row.instruction.cells imm).toArray)
    (told : (draft.aimed edit).lookup (draft.piece.size + 1) = none → imm = row.immediate)
    (barrier : (edit.apply draft.piece).barrier = draft.piece.barrier) :
    (draft.after edit).Recorded (left ++ [.wrote row]) := by
  have size : (edit.apply draft.piece).size = draft.piece.size + row.instruction.width := by
    have added : (row.instruction.cells imm).toArray.size = row.instruction.width := by
      rw [List.size_toArray, Instruction.length_cells]
    rw [Piece.size, code, Array.size_append, added, Piece.size]
  refine ⟨?_, fun before old after split => ?_, ?_, ?_, ?_, recorded.clock_after edit⟩
  · rw [width_wrote, ← recorded.filled]
    exact size
  · rcases List.eq_nil_or_concat after with rfl | ⟨others, last, rfl⟩
    · obtain ⟨rfl, same⟩ := List.append_inj' split rfl
      obtain rfl := Mark.wrote.inj (List.singleton_inj.mp same)
      rw [← recorded.filled]
      exact holds_of_code code told
    · have both : left ++ [.wrote row] = (before ++ .wrote old :: others) ++ [last] := by
        simpa using split
      have front := (List.append_inj' both rfl).1
      exact recorded.holds_after sound allowed front
        (size ▸ Nat.le_add_right_of_le (recorded.bounded front))
  · obtain ⟨before, rows, same, width, ends⟩ := recorded.free
    exact ⟨before, rows ++ [row], by simp [same], width.trans barrier.symm, ends⟩
  · rw [labels_after fun _ => by rw [found]; simp]
    exact recorded.labels_append _
  · rw [recorded.born_after (by omega), size, Nat.add_sub_cancel_left, List.flatMap_append,
      recorded.clock, ← time_of_mark found]
    simp [Mark.ages, Mark.time]

/-- An allowed call keeps the piece and its record together. -/
theorem Recorded.after (recorded : draft.Recorded left) (sound : draft.Sound)
    (allowed : draft.Allows edit) :
    (draft.after edit).Recorded ((edit.mark? draft.edits.length).toList.foldl settle left) := by
  have does := sound.effect allowed draft.edits.length
  generalize found : edit.mark? draft.edits.length = effect at does
  cases does with
  | none code barrier => exact recorded.unrecorded sound allowed found code barrier
  | label size keeps barrier =>
    obtain rfl := time_of_mark found
    have settled : settle left (.label draft.edits.length) =
      left ++ [.label draft.edits.length] := by
      refine if_neg ?_
      rintro ⟨last, -, meets⟩
      cases last <;> exact meets
    rw [Option.toList_some, List.foldl_cons, List.foldl_nil, settled]
    exact recorded.labelled sound allowed size barrier
  | @cancel row pop cancels code barrier =>
    obtain ⟨last, ends, meets⟩ := recorded.meets_iff.mpr ⟨pop, cancels⟩
    obtain ⟨rest, rfl⟩ := List.getLast?_eq_some_iff.mp ends
    cases last with
    | label => exact meets.elim
    | wrote push =>
      have settled : settle (rest ++ [.wrote push]) (.wrote row) = rest := by
        rw [settle, if_pos ⟨_, ends, meets⟩, List.dropLast_concat]
      rw [Option.toList_some, List.foldl_cons, List.foldl_nil, settled]
      exact recorded.cancelled sound allowed found meets.1 code barrier
  | @wrote row imm other code told barrier =>
    have settled : settle left (.wrote row) = left ++ [.wrote row] :=
      if_neg fun meets => other (recorded.meets_iff.mp meets)
    rw [Option.toList_some, List.foldl_cons, List.foldl_nil, settled]
    exact recorded.written sound allowed found code told barrier

/-- Every draft that was written through the calls is what is left of them. -/
theorem Written.recorded (written : draft.Written) : draft.Recorded (remaining draft.edits) := by
  induction written with
  | blank name => exact recorded_blank name
  | @after draft edit written allowed ih =>
    show (draft.after edit).Recorded (remaining (draft.edits ++ [edit]))
    rw [remaining_snoc]
    exact ih.after written.sound allowed

/-- A label lands on the first instruction that is left behind it. -/
theorem Recorded.landing (recorded : draft.Recorded left) {before after : List Mark} {time : Nat}
    (split : left = before ++ .label time :: after) : draft.piece.code[width before]? =
      (after.findSome? Mark.row?).map fun row => .instruction row.instruction := by
  cases found : after.findSome? Mark.row? with
  | none =>
    have empty : width after = 0 := by
      rw [width, List.flatMap_eq_nil_iff.mpr, List.length_nil]
      intro mark mem
      have none := List.findSome?_eq_none_iff.mp found mark mem
      cases mark with
      | label => rfl
      | wrote => cases none
    have whole : left = (before ++ [.label time]) ++ after := by simp [split]
    have filled := recorded.filled
    rw [whole, width_append, width_label, empty] at filled
    exact Array.getElem?_eq_none (Nat.le_of_eq filled)
  | some row =>
    obtain ⟨labels, mark, others, rfl, here, none⟩ := List.findSome?_eq_some_iff.mp found
    cases mark with
    | label => cases here
    | wrote other =>
      obtain rfl := Option.some.inj here
      have empty : width (.label time :: labels) = 0 := by
        rw [width, List.flatMap_eq_nil_iff.mpr, List.length_nil]
        intro mark mem
        rcases List.mem_cons.mp mem with rfl | mem
        · rfl
        · have none := none mark mem
          cases mark with
          | label => rfl
          | wrote => cases none
      have holds := recorded.rows (before ++ .label time :: labels) other others (by simp [split])
      rw [width_append, empty] at holds
      exact holds.here

/-- A jump of a piece leads to a cell: in code that agrees with the piece about the jump, the step
of a machine that takes the jump ends there. -/
def LeadsTo (piece : Piece) (cell target : Nat) : Prop :=
  ∃ before op reg, cell = before + 1 ∧
    piece.code[before]? = some (.instruction ⟨op, reg, .unused, 0⟩) ∧
    ∀ (prog : Program) (settings : Settings) (machine : Machine) (slot : Fin 12),
      (machine.code prog)[before]? = piece.code[before]? →
      (machine.code prog)[cell]? = piece.code[cell]? →
      reg.slot? = some slot → machine.counter = before →
      (op = .jump ∨ op = .jumpZero ∧ (machine.fetchedRegisters 2).get slot = 0) →
      ∃ after, machine.step prog settings = (after, none) ∧ after.counter = target ∧
        after.piece = machine.piece

/-- What the interface promises to those who write a piece through it. -/
structure Upheld (draft : Draft) : Prop where
  formed : draft.piece.code.WellFormed
  /-- The line table has an entry for every cell, and every entry names a line. -/
  lines : draft.piece.lineOf.size = draft.piece.size ∧
    ∀ (index : Nat) line, draft.piece.lineOf[index]? = some (some line) →
      line < draft.piece.lines.size
  /-- The tracked depth is how far the cells that are there move the stack pointer. -/
  depth : draft.piece.depth = Code.netShift draft.piece.code.toList
  /-- Only a pop takes something out of the record, together with the push before it, and nothing
  that could go is left. -/
  cancelled : Relation.ReflTransGen Cancels (marks draft.edits) (remaining draft.edits) ∧
    Settled (remaining draft.edits)
  /-- The cells are those of the instructions that are left, in the order of the calls. -/
  cells : draft.piece.size = width (remaining draft.edits) ∧
    ∀ before row after, remaining draft.edits = before ++ .wrote row :: after →
      draft.Holds row (width before)
  /-- The age of a cell is the number of the call that wrote it. -/
  ages : draft.born = (remaining draft.edits).flatMap Mark.ages
  /-- A label is never cut off: its cell holds the first instruction that is left of those written
  after it, and is the end of the code when there is none. -/
  labels : ∀ label ∈ draft.labels, ∃ before after,
    remaining draft.edits = before ++ .label label.time :: after ∧ label.cell = width before ∧
      draft.piece.code[label.cell]? =
        (after.findSome? Mark.row?).map fun row => .instruction row.instruction
  /-- An open jump can be fixed at any time. -/
  holes : ∀ cell ∈ draft.holes, (draft.piece.fixJump cell).2 ∧ draft.piece.BranchAt cell
  calls : ∀ reloc ∈ draft.piece.relocations, draft.piece.VacantAt reloc.cell
  /-- A jump leads to the label that it was told last. -/
  jumps : draft.piece.size < 2 ^ 31 → ∀ cell target, draft.aims.lookup cell = some target →
    LeadsTo draft.piece cell target ∧ ∃ label ∈ draft.labels, label.cell = target

/-- A jump with the right distance leads to its target. -/
theorem leadsTo_of_leapsAt {piece : Piece} {cell target : Nat} (small : piece.size < 2 ^ 31)
    (near : target ≤ piece.size)
    (leaps : piece.LeapsAt cell (BitVec.ofInt 32 ((target : Int) - cell))) :
    LeadsTo piece cell target := by
  obtain ⟨before, op, reg, rfl, leap, here, next⟩ := leaps
  refine ⟨before, op, reg, rfl, here, ?_⟩
  intro prog settings machine slot first second slots counter taken
  have inside : before + 1 < piece.size := (Array.getElem?_eq_some_iff.mp next).1
  exact Machine.step_leap settings (first.trans here) (second.trans next) (by omega)
    (by omega) slots
    counter taken

/-- Whatever allowed calls write a piece, in whatever order, it keeps what the interface
promises. -/
theorem upheld_of_written (written : draft.Written) : draft.Upheld := by
  have sound := written.sound
  have recorded := written.recorded
  refine ⟨sound.tidy.formed, ⟨sound.tidy.cells, fun index line found => ?_⟩, sound.tidy.depth,
    ⟨cancels_remaining _, settled_remaining _⟩, ⟨recorded.filled, recorded.rows⟩, recorded.ages,
    fun label mem => ?_, fun cell mem => ?_, sound.tidy.calls, ?_⟩
  · exact sound.tidy.lines line (Array.mem_of_getElem? found)
  · obtain ⟨before, after, left, cell⟩ := recorded.labels label mem
    exact ⟨before, after, left, cell, cell ▸ recorded.landing left⟩
  · obtain ⟨imm, leaps⟩ := sound.holes cell mem
    refine ⟨?_, leaps.branchAt⟩
    obtain ⟨_, _, _, -, -, -, found⟩ := leaps
    rw [fixJump, Code.patch?_immediate found]
  · intro small cell target aimed
    obtain ⟨leaps, label, mem, rfl⟩ := sound.aims cell target aimed
    have below := sound.labels label mem
    have bounded := sound.tidy.barrier
    exact ⟨leadsTo_of_leapsAt small (Nat.le_trans below bounded) leaps, label, mem, rfl⟩

/-- A loop around a call: its first push is cancelled, and its exit is fixed at the end. -/
def looping : Draft :=
  [Edit.setLine 1 "while", .label, .push .a, .pop .a, .jump .jumpZero .a, .call none,
    .jumpBack .jump .unused 0, .fix 1].foldl after (blank "main")

/-- The loop is written by allowed calls, so it keeps what is promised. -/
theorem upheld_of_written_looping : looping.Written ∧ looping.Upheld := by
  have pushed : Written ([Edit.setLine 1 "while", .label, .push .a].foldl after (blank "main")) :=
    @Written.after _ (.push .a) (@Written.after _ .label
      (@Written.after _ (.setLine 1 "while") (.blank "main") trivial) trivial) trivial
  have called : Written ([Edit.setLine 1 "while", .label, .push .a, .pop .a, .jump .jumpZero .a,
      .call none].foldl after (blank "main")) :=
    @Written.after _ (.call none) (@Written.after _ (.jump .jumpZero .a)
      (@Written.after _ (.pop .a) pushed trivial) (by decide : Opcode.jumpZero.leaps)) trivial
  have returned : Written ([Edit.setLine 1 "while", .label, .push .a, .pop .a, .jump .jumpZero .a,
      .call none, .jumpBack .jump .unused 0].foldl after (blank "main")) :=
    @Written.after _ (.jumpBack .jump .unused 0) called
      ⟨rfl, (⟨0, 1⟩ : Landmark), List.mem_singleton.mpr rfl, rfl⟩
  have written : looping.Written :=
    @Written.after _ (.fix 1) returned (List.mem_singleton.mpr rfl)
  exact ⟨written, upheld_of_written written⟩

end Draft

end TinLang.Piece
