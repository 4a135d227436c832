import TinLang.Text.Glyph

/-!
# Positions

A position names the place of a glyph in a source text three ways: its byte offset, its line
and its column. Lines and columns count from one, and a column counts glyphs since the last
line end.
-/
namespace TinLang

/-- A place in a source text. -/
structure Position where
  /-- Bytes before the place. -/
  offset : Nat
  /-- Line number, counted from one. -/
  line : Nat
  /-- Column number in glyphs, counted from one. -/
  column : Nat
  deriving DecidableEq, Repr, Inhabited

namespace Position

/-- The place of the first glyph. -/
def start : Position := ⟨0, 1, 1⟩

/-- The place after a glyph. -/
def next (position : Position) (glyph : Glyph) : Position :=
  if glyph.is '\n' then ⟨position.offset + glyph.bytes.length, position.line + 1, 1⟩
  else ⟨position.offset + glyph.bytes.length, position.line, position.column + 1⟩

/-- The place after a sequence of glyphs. -/
def after (position : Position) (glyphs : List Glyph) : Position := glyphs.foldl next position

/-- The place a number of one-byte columns further on the same line. -/
def shift (position : Position) (columns : Nat) : Position :=
  { position with offset := position.offset + columns, column := position.column + columns }

/-- Passing two sequences is passing the first and then the second. -/
@[simp] theorem after_append (position : Position) (left right : List Glyph) :
    position.after (left ++ right) = (position.after left).after right := by
  simp [after]

/-- Each glyph passed moves the offset by its bytes. -/
theorem offset_after (position : Position) (glyphs : List Glyph) :
    (position.after glyphs).offset = position.offset + (glyphs.flatMap Glyph.bytes).length := by
  induction glyphs generalizing position with
  | nil => simp [after]
  | cons glyph glyphs ih =>
    have head : (position.next glyph).offset = position.offset + glyph.bytes.length := by
      unfold next; split <;> rfl
    have tail := ih (position.next glyph)
    simp only [after, List.foldl_cons, List.flatMap_cons, List.length_append] at tail ⊢
    rw [tail, head]
    omega

end Position

/-- The stretch of a source text between two places. -/
structure Span where
  /-- The place of the first token. -/
  start : Position
  /-- The place after the last token. -/
  stop : Position
  deriving DecidableEq, Repr, Inhabited

end TinLang
