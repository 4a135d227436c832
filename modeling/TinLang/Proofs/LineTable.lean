import Mathlib.Data.List.Chain
import Mathlib.Data.List.Induction
import TinLang.Proofs.Edits

/-!
# Line tables

A cell belongs to the source line that was set last before the cell was emitted, however many cells
were cancelled since. The line is kept by its number: a call with the number of the latest line sets
that line again, whatever its text. So a cell has the number of the latest call, and the text of the
first of the calls with that number in a row (`heading`); it has the text of the latest call where
calls in a row with one number have one text (`Steady`).
-/
namespace TinLang.Piece

/-- The latest line of a piece after a call, from the one before it. -/
def headed (latest : Option SourceLine) (call : SourceLine) : SourceLine :=
  match latest with
  | some line => if line.number = call.number then line else call
  | none => call

/-- The latest line of a piece after some calls that set lines, the earliest call first. -/
def heading (calls : List SourceLine) : Option SourceLine :=
  calls.foldl (fun latest call => some (headed latest call)) none

/-- Calls in a row with one number have one text. -/
def Steady (calls : List SourceLine) : Prop :=
  calls.IsChain fun first second => first.number = second.number → first = second

theorem heading_snoc (calls : List SourceLine) (call : SourceLine) :
    heading (calls ++ [call]) = some (headed (heading calls) call) := by
  rw [heading, List.foldl_append]
  rfl

theorem number_headed (latest : Option SourceLine) (call : SourceLine) :
    (headed latest call).number = call.number := by
  cases latest with
  | none => rfl
  | some line =>
    unfold headed
    dsimp only
    split
    · next same => exact same
    · rfl

/-- The number is that of the latest call. -/
theorem number_heading (calls : List SourceLine) :
    (heading calls).map SourceLine.number = calls.getLast?.map SourceLine.number := by
  rcases List.eq_nil_or_concat calls with rfl | ⟨calls, call, rfl⟩
  · rfl
  · rw [List.concat_eq_append, heading_snoc, List.getLast?_concat, Option.map_some, Option.map_some,
      number_headed]

/-- Of steady calls the line is the latest one. -/
theorem heading_of_steady {calls : List SourceLine} (steady : Steady calls) :
    heading calls = calls.getLast? := by
  induction calls using List.reverseRecOn with
  | nil => rfl
  | append_singleton calls call ih =>
    obtain ⟨before, -, joined⟩ := List.isChain_append.mp steady
    rw [heading_snoc, List.getLast?_concat, ih before]
    cases last : calls.getLast? with
    | none => rfl
    | some line =>
      unfold headed
      dsimp only
      split
      · next same => rw [joined line last call rfl same]
      · rfl

/-- What a cell shows of the lines that were set before it. -/
structure LineOf (calls : List SourceLine) (line : Option SourceLine) : Prop where
  heading : line = Piece.heading calls
  number : line.map SourceLine.number = calls.getLast?.map SourceLine.number
  latest : Steady calls → line = calls.getLast?

theorem lineOf_heading (calls : List SourceLine) : LineOf calls (heading calls) :=
  ⟨rfl, number_heading calls, heading_of_steady⟩

variable {piece later : Piece}

/-- A row of the line table shows a line, or that there is none. -/
def Shows (piece : Piece) : Option Nat → Option SourceLine → Prop :=
  Option.Rel fun index line => piece.lines[index]? = some line

theorem Shows.mono {row : Option Nat} {line : Option SourceLine} (shows : piece.Shows row line)
    (kept : ∀ (index : Nat) line, piece.lines[index]? = some line →
      later.lines[index]? = some line) : later.Shows row line := by
  cases shows with
  | none => exact .none
  | some found => exact .some (kept _ _ found)

/-- The line of a cell is the one that its row shows. -/
theorem line?_of_shows {index : Nat} {row : Option Nat} {line : Option SourceLine}
    (found : piece.lineOf[index]? = some row) (shows : piece.Shows row line) :
    piece.line? index = line := by
  have natural : ¬ (index : Int) < 0 := by omega
  rw [line?, if_neg natural, Int.toNat_natCast, found]
  cases shows with
  | none => rfl
  | some shown => exact shown

/-- A call that sets no line: the rows of the cells that stay are kept, and new cells belong to the
current line. -/
structure Files (piece later : Piece) : Prop where
  lines : later.lines = piece.lines
  current : later.currentLine = piece.currentLine
  rows : piece.lineOf.size = piece.size → later.lineOf.toList =
    piece.lineOf.toList.take later.size ++
      List.replicate (later.size - piece.size) piece.currentLine

/-- The tracked depth and the barrier do not matter, nor do immediates that are fixed. -/
theorem files_of_same (lines : later.lines = piece.lines)
    (current : later.currentLine = piece.currentLine) (lineOf : later.lineOf = piece.lineOf)
    (size : later.size = piece.size) : Files piece later := by
  refine ⟨lines, current, fun cells => ?_⟩
  rw [lineOf, size, Nat.sub_self, List.replicate_zero, List.append_nil, ← cells,
    Array.size_eq_length_toList,
    List.take_length]

theorem files_push (piece : Piece) (cell : Cell) : Files piece (piece.push cell) := by
  refine ⟨rfl, rfl, fun cells => ?_⟩
  have longer : (piece.push cell).size = piece.size + 1 := size_push piece cell
  rw [longer, Nat.add_sub_cancel_left, List.take_of_length_le (by simp [cells])]
  simp [push]

theorem files_push_push (piece : Piece) (first second : Cell) :
    Files piece ((piece.push first).push second) := by
  refine ⟨rfl, rfl, fun cells => ?_⟩
  have longer : ((piece.push first).push second).size = piece.size + 2 := by
    rw [size_push, size_push]
  rw [longer, Nat.add_sub_cancel_left, List.take_of_length_le (by simp [cells])]
  simp [push, List.replicate]

theorem files_truncate {count : Nat} (shorter : count ≤ piece.size) :
    Files piece (piece.truncate count) := by
  refine ⟨rfl, rfl, fun cells => ?_⟩
  have size : (piece.truncate count).size = count := by
    unfold Piece.size at shorter ⊢
    simp [truncate, shorter]
  rw [size, Nat.sub_eq_zero_of_le shorter]
  simp [truncate]

/-- Another depth before a call that sets no line. -/
theorem Files.depth {depth : Int} (files : Files { piece with depth } later) : Files piece later :=
  ⟨files.lines, files.current, files.rows⟩

theorem files_emit (piece : Piece) (instr : Instruction) :
    Files piece (piece.emit instr).1 := by
  unfold emit
  split
  · exact (files_push _ _).depth
  · dsimp only
    split
    · exact (files_truncate (Nat.sub_le _ _)).depth
    · exact (files_push _ _).depth
  · exact files_push _ _

theorem files_emitImmediate (piece : Piece) (instr : Instruction) (value : BitVec 32) :
    Files piece (piece.emitImmediate instr value).1 := by
  unfold emitImmediate
  dsimp only
  split
  · exact (files_push_push _ _ _).depth
  · exact files_push_push _ _ _

theorem files_fixJump (piece : Piece) (cell : Int) : Files piece (piece.fixJump cell).1 := by
  unfold fixJump
  dsimp only
  split
  · next code patched =>
    refine files_of_same rfl rfl rfl ?_
    have size := Code.size_of_patch? patched
    exact size
  · exact files_of_same rfl rfl rfl rfl

/-- The line that a call sets. -/
def Edit.line? : Edit → Option SourceLine
  | .setLine number text => some ⟨number, text⟩
  | _ => none

/-- The lines that some calls set, the earliest first. -/
def Edit.lines (edits : List Edit) : List SourceLine := edits.filterMap line?

theorem Edit.files {edit : Edit} (silent : edit.line? = none) : Files piece (edit.apply piece) := by
  cases edit with
  | emit instr => exact files_emit piece instr
  | emitImmediate instr value => exact files_emitImmediate piece instr value
  | push reg => exact files_emit piece _
  | pop reg => exact files_emit piece _
  | jump op reg => exact files_emitImmediate piece _ 0
  | fix cell => exact files_fixJump piece cell
  | jumpBack op reg target => exact files_push_push piece _ _
  | label => exact files_of_same rfl rfl rfl rfl
  | call target =>
    have files := files_emitImmediate piece ⟨.call, .unused, .unused, 0⟩ 0
    exact ⟨files.lines, files.current, files.rows⟩
  | callNative id => exact files_emitImmediate piece _ _
  | setLine number text => contradiction

/-- Setting a line changes nothing but the lines. -/
theorem setLine_eq (piece : Piece) (number : Int) (text : Text) : ∃ lines currentLine,
    piece.setLine number text = { piece with lines, currentLine } := by
  unfold setLine
  split
  · split <;> exact ⟨_, _, rfl⟩
  · exact ⟨_, _, rfl⟩

/-- The line that is set is the latest one, and the lines before it stay. -/
theorem setLine_shows (piece : Piece) (number : Int) (text : Text) :
    let line := headed piece.lines.back? ⟨number, text⟩
    (piece.setLine number text).lines.back? = some line ∧
      (piece.setLine number text).Shows (piece.setLine number text).currentLine (some line) ∧
      ∀ (index : Nat) line, piece.lines[index]? = some line →
        (piece.setLine number text).lines[index]? = some line := by
  unfold setLine headed
  cases found : piece.lines.back? with
  | none =>
    have empty : piece.lines = #[] := by simpa using found
    simp [empty, Shows]
  | some latest =>
    dsimp only
    split
    · refine ⟨found, .some ?_, fun _ _ => id⟩
      rw [← found, Array.back?]
    · refine ⟨by simp, .some (by simp), fun index line inside => ?_⟩
      have small := (Array.getElem?_eq_some_iff.mp inside).1
      rw [Array.getElem?_push, if_neg (Nat.ne_of_lt small), inside]

namespace Draft

variable {draft : Draft} {edits : List Edit}

/-- The line table of a draft after some calls. -/
structure Filed (draft : Draft) (edits : List Edit) : Prop where
  cells : draft.piece.lineOf.size = draft.piece.size
  ages : draft.born.length = draft.piece.size
  clock : draft.clock = edits.length
  latest : draft.piece.lines.back? = heading (Edit.lines edits)
  current : draft.piece.Shows draft.piece.currentLine (heading (Edit.lines edits))
  /-- Every cell shows the latest line of the calls before the one that wrote it. -/
  rows : ∀ (index : Nat) time, draft.born[index]? = some time → time < edits.length ∧
    ∃ row, draft.piece.lineOf[index]? = some row ∧
      draft.piece.Shows row (heading (Edit.lines (edits.take time)))

theorem filed_blank (name : Text) : (blank name).Filed [] where
  cells := rfl
  ages := rfl
  clock := rfl
  latest := rfl
  current := .none
  rows := by simp [blank]

/-- A call that leaves the rows of the cells that stay, and attributes new cells to the current
line. -/
theorem Filed.step (filed : draft.Filed edits) {edit : Edit}
    (files : draft.piece.lineOf.size = draft.piece.size → (edit.apply draft.piece).lineOf.toList =
      draft.piece.lineOf.toList.take (edit.apply draft.piece).size ++
        List.replicate ((edit.apply draft.piece).size - draft.piece.size) draft.piece.currentLine)
    (kept : ∀ (index : Nat) line, draft.piece.lines[index]? = some line →
      (edit.apply draft.piece).lines[index]? = some line)
    (latest : (edit.apply draft.piece).lines.back? = heading (Edit.lines (edits ++ [edit])))
    (current : (edit.apply draft.piece).Shows (edit.apply draft.piece).currentLine
      (heading (Edit.lines (edits ++ [edit])))) : (draft.after edit).Filed (edits ++ [edit]) := by
  have rows := files filed.cells
  refine ⟨?_, length_after draft edit, ?_, latest, current, fun index time found => ?_⟩
  · have sizes := congrArg List.length rows
    have cells := filed.cells
    simp only [List.length_append, List.length_take, List.length_replicate,
      Array.length_toList] at sizes
    show (edit.apply draft.piece).lineOf.size = (edit.apply draft.piece).size
    omega
  · show draft.clock + 1 = (edits ++ [edit]).length
    rw [filed.clock, List.length_append]
    rfl
  · rcases age_after filed.ages found with old | ⟨behind, inside, rfl⟩
    · obtain ⟨earlier, row, there, shows⟩ := filed.rows index time old
      have staying : index < (edit.apply draft.piece).size := by
        have inside := (List.getElem?_eq_some_iff.mp found).1
        rwa [length_after] at inside
      have small : index < draft.piece.size :=
        filed.ages ▸ (List.getElem?_eq_some_iff.mp old).1
      refine ⟨by rw [List.length_append]; omega, row, ?_, ?_⟩
      · show (edit.apply draft.piece).lineOf[index]? = some row
        rw [← Array.getElem?_toList, rows, List.getElem?_append_left (by simp [filed.cells]; omega),
          List.getElem?_take, if_pos staying, Array.getElem?_toList, there]
      · rw [List.take_append_of_le_length (Nat.le_of_lt earlier)]
        exact shows.mono kept
    · refine ⟨?_, draft.piece.currentLine, ?_, ?_⟩
      · rw [filed.clock, List.length_append]
        exact Nat.lt_succ_self _
      · show (edit.apply draft.piece).lineOf[index]? = _
        have length : (draft.piece.lineOf.toList.take (edit.apply draft.piece).size).length =
            draft.piece.size := by
          simp [filed.cells]
          omega
        rw [← Array.getElem?_toList, rows, List.getElem?_append_right (by omega), length,
          List.getElem?_replicate_of_lt (by omega)]
      · rw [filed.clock, List.take_left]
        exact filed.current.mono kept

/-- A call keeps the line table. -/
theorem filed_after (filed : draft.Filed edits) (edit : Edit) :
    (draft.after edit).Filed (edits ++ [edit]) := by
  have lines : Edit.lines (edits ++ [edit]) = Edit.lines edits ++ edit.line?.toList := by
    rw [Edit.lines, List.filterMap_append, Edit.lines]
    cases edit <;> rfl
  cases found : edit.line? with
  | none =>
    have files := @Edit.files draft.piece edit found
    rw [found, Option.toList_none, List.append_nil] at lines
    refine filed.step files.rows (fun index line => ?_) ?_ ?_
    · rw [files.lines]
      exact id
    · rw [files.lines, lines, filed.latest]
    · rw [files.current, lines]
      exact filed.current.mono fun index line => by rw [files.lines]; exact id
  | some line =>
    obtain ⟨number, text, rfl⟩ : ∃ number text, edit = .setLine number text := by
      cases edit <;> first | exact ⟨_, _, rfl⟩ | contradiction
    obtain rfl : (⟨number, text⟩ : SourceLine) = line := Option.some.inj found
    obtain ⟨back, current, kept⟩ := setLine_shows draft.piece number text
    rw [filed.latest] at back current
    rw [found, Option.toList_some] at lines
    refine filed.step (fun cells => ?_) kept ?_ ?_
    · obtain ⟨all, row, same⟩ := setLine_eq draft.piece number text
      show (draft.piece.setLine number text).lineOf.toList = _
      have size : ((Edit.setLine number text).apply draft.piece).size = draft.piece.size := by
        show (draft.piece.setLine number text).size = _
        rw [same]
        rfl
      rw [size, Nat.sub_self, List.replicate_zero, List.append_nil, same, ← cells,
        Array.size_eq_length_toList, List.take_length]
    · rw [lines, heading_snoc]
      exact back
    · rw [lines, heading_snoc]
      exact current

theorem filed_of_edits (name : Text) (edits : List Edit) :
    (edits.foldl after (blank name)).Filed edits := by
  induction edits using List.reverseRecOn with
  | nil => exact filed_blank name
  | append_singleton edits edit ih =>
    rw [List.foldl_append]
    exact filed_after ih edit

/-- Whatever calls write a piece, a cell that is there shows the latest line of the calls before the
one that wrote it. -/
theorem line?_of_edits {name : Text} {index time : Nat}
    (born : (edits.foldl after (blank name)).born[index]? = some time) :
    (edits.foldl after (blank name)).piece.line? index =
      heading (Edit.lines (edits.take time)) := by
  obtain ⟨-, row, found, shows⟩ := (filed_of_edits name edits).rows index time born
  exact line?_of_shows found shows

end Draft

end TinLang.Piece
