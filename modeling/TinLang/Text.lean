/-!
# Text

Source files, names, messages, listings and program output are sequences of bytes. They need
not be valid UTF-8, so text is a list of bytes and not a `String`; a string literal stands for
its UTF-8 bytes. This module holds the operations that look at bytes only: decimal and
hexadecimal numerals, cutting, splitting, joining and the byte order.
-/
namespace TinLang

/-- A sequence of bytes in the order they are stored. -/
abbrev Text := List UInt8

namespace Text

/-- The UTF-8 bytes of a string. -/
def ofString (string : String) : Text := string.toUTF8.data.toList

instance : Coe String Text := ⟨ofString⟩

/-- The byte of an ASCII character. -/
def byte (character : Char) : UInt8 := character.toNat.toUInt8

/-- The digits of a natural number in a base up to sixteen, most significant first. -/
def digits (base number : Nat) : Text := (Nat.toDigits base number).map byte

/-- A natural number in decimal. -/
def ofNat (number : Nat) : Text := digits 10 number

/-- An integer in decimal, with a minus sign when it is negative. -/
def ofInt : Int → Text
  | .ofNat number => ofNat number
  | .negSucc number => byte '-' :: ofNat (number + 1)

/-- A natural number in lower-case hexadecimal. -/
def hex (number : Nat) : Text := digits 16 number

/-- An integer in lower-case hexadecimal, with a minus sign when it is negative. -/
def hexInt : Int → Text
  | .ofNat number => hex number
  | .negSucc number => byte '-' :: hex (number + 1)

/-- The bytes of a number modulo a power of 256, most significant first. -/
def bigEndian : (count number : Nat) → Text
  | 0, _ => []
  | count + 1, number => bigEndian count (number / 256) ++ [(number % 256).toUInt8]

/-- A big-endian number has as many bytes as asked for. -/
@[simp] theorem length_bigEndian (count number : Nat) : (bigEndian count number).length =
  count := by
  induction count generalizing number with
  | zero => rfl
  | succ count ih => simp [bigEndian, ih]

/-- The number that bytes hold, most significant first. -/
def ofBigEndian (bytes : Text) : Nat := bytes.foldl (fun number byte => number * 256 + byte.toNat) 0

/-- The same text with zeros before it up to a width. -/
def zeroFill (width : Nat) (text : Text) : Text :=
  List.replicate (width - text.length) (byte '0') ++ text

/-- An ASCII text with blanks before it up to a width. -/
def padLeft (width : Nat) (text : Text) : Text :=
  List.replicate (width - text.length) (byte ' ') ++ text

/-- The text after a leading part, when it starts with that part. -/
def dropLeading? : (leading text : Text) → Option Text
  | [], text => some text
  | _ :: _, [] => none
  | first :: leading, head :: text =>
    if first = head then dropLeading? leading text else none

/-- Every leading part can be removed again. -/
@[simp] theorem dropLeading?_append (leading rest : Text) :
    dropLeading? leading (leading ++ rest) = some rest := by
  induction leading with
  | nil => rfl
  | cons first leading ih => simp [dropLeading?, ih]

/-- The text before a trailing part, when it ends with that part. -/
def dropTrailing? (trailing text : Text) : Option Text :=
  (dropLeading? trailing.reverse text.reverse).map List.reverse

/-- A text cut at the first occurrence of a byte, which belongs to neither side. -/
def cut (separator : UInt8) : Text → Option (Text × Text)
  | [] => none
  | head :: text =>
    if head = separator then some ([], text)
    else (cut separator text).map fun (before, after) => (head :: before, after)

/-- The pieces of a text between the occurrences of a byte; one more piece than occurrences. -/
def splitAt (separator : UInt8) : Text → List Text
  | [] => [[]]
  | head :: text =>
    if head = separator then [] :: splitAt separator text
    else match splitAt separator text with
      | [] => [[head]]
      | piece :: pieces => (head :: piece) :: pieces

/-- The pieces of a text between the occurrences of two adjacent bytes, found from the left. -/
def splitAtPair (first second : UInt8) : Text → List Text
  | [] => [[]]
  | [last] => [[last]]
  | head :: next :: text =>
    if head = first ∧ next = second then [] :: splitAtPair first second text
    else match splitAtPair first second (next :: text) with
      | [] => [[head]]
      | piece :: pieces => (head :: piece) :: pieces

/-- Texts one after another with a separator between them. -/
def join (separator : Text) : List Text → Text
  | [] => []
  | [text] => text
  | text :: texts => text ++ separator ++ join separator texts

/-- One text follows another in the order of their bytes. -/
def precedes (left right : Text) : Bool := decide (left < right)

/-- Texts in the order of their bytes. -/
def sort (texts : List Text) : List Text :=
  texts.mergeSort fun left right => !precedes right left

/-- The text without the bytes of one value at its end. -/
def trimEnd (unwanted : UInt8) (text : Text) : Text :=
  (text.reverse.dropWhile (· == unwanted)).reverse

end Text

end TinLang
