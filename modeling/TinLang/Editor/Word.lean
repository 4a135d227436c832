import TinLang.Text

/-!
# Words at a caret

An editor names a place by a line and a byte of the line, both counted from zero. A byte belongs
to a word when it is an underscore, a digit or a letter of the first 256 code points.
-/
namespace TinLang

/-- A place in a document. -/
structure Caret where
  /-- The line, counted from zero. -/
  line : Nat
  /-- The byte in the line, counted from zero. -/
  column : Nat
  deriving DecidableEq, Repr

namespace Caret

/-- A byte, read as a code point, belongs to a word. -/
def isWordByte (byte : UInt8) : Bool :=
  let code := byte.toNat
  let between (low high : Nat) : Bool := decide (low ≤ code) && decide (code ≤ high)
  between 48 57 || between 65 90 || between 97 122 || decide (code = 95 ∨ code = 170 ∨
    code = 181) ||
    decide (code = 186) || between 192 214 || between 216 246 || between 248 255

/-- The bytes of a line before and after a place; a place past the end is the end. None past the
last line. -/
def around? (text : Text) (caret : Caret) : Option (Text × Text) :=
  ((text.splitAt (Text.byte '\n'))[caret.line]?).map fun line =>
    (line.take caret.column, line.drop caret.column)

/-- The part of a word before a place. -/
def wordBefore (text : Text) (caret : Caret) : Text :=
  match around? text caret with
  | none => []
  | some (before, _) => (before.reverse.takeWhile isWordByte).reverse

/-- The word around a place. -/
def wordAt (text : Text) (caret : Caret) : Text :=
  match around? text caret with
  | none => []
  | some (_, after) => wordBefore text caret ++ after.takeWhile isWordByte

end Caret

end TinLang
