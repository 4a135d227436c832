import TinLang.Text

/-!
# Glyphs

A glyph is one character of a text together with the bytes it is written in. Well-formed UTF-8
sequences are glyphs of their code point; every other byte is a glyph of its own that stands for
the replacement character. Columns count glyphs, and the scanner reads glyphs, so a text is read
the same way whatever bytes it holds.

`flatMap_glyphs` says that the glyphs of a text write exactly that text.
-/
namespace TinLang

/-- One character of a text. -/
structure Glyph where
  /-- The code point, or that of the replacement character for a byte outside UTF-8. -/
  code : Nat
  /-- The bytes it is written in. -/
  bytes : List UInt8
  deriving DecidableEq, Repr

namespace Glyph

/-- The code point that stands for a byte outside UTF-8. -/
def replacement : Nat := 0xFFFD

/-- A byte that is not part of a well-formed sequence. -/
def stray (byte : UInt8) : Glyph := ⟨replacement, [byte]⟩

/-- A byte lies between two bounds. -/
def between (low high : Nat) (byte : UInt8) : Bool :=
  decide (low ≤ byte.toNat) && decide (byte.toNat ≤ high)

/-- A byte continues a multi-byte sequence. -/
def continues (byte : UInt8) : Bool := between 0x80 0xBF byte

/-- The six bits that a continuation byte carries. -/
def tailBits (byte : UInt8) : Nat := byte.toNat % 64

/-- A sequence of two bytes, when the second continues the first. -/
def pair (lead : UInt8) : Text → Option Glyph
  | second :: _ =>
    if continues second then some ⟨lead.toNat % 32 * 64 + tailBits second, [lead, second]⟩
    else none
  | [] => none

/-- A sequence of three bytes, whose second byte has bounds of its own. -/
def triple (low high : Nat) (lead : UInt8) : Text → Option Glyph
  | second :: third :: _ =>
    if between low high second && continues third then
      some ⟨(lead.toNat % 16 * 64 + tailBits second) * 64 + tailBits third, [lead, second, third]⟩
    else none
  | _ => none

/-- A sequence of four bytes, whose second byte has bounds of its own. -/
def quadruple (low high : Nat) (lead : UInt8) : Text → Option Glyph
  | second :: third :: fourth :: _ =>
    if between low high second && continues third && continues fourth then
      some ⟨((lead.toNat % 8 * 64 + tailBits second) * 64 + tailBits third) * 64 + tailBits fourth,
        [lead, second, third, fourth]⟩
    else none
  | _ => none

/-- The well-formed sequence that a lead byte and the bytes after it start with. -/
def wellFormed? (lead : UInt8) (rest : Text) : Option Glyph :=
  let value := lead.toNat
  if value < 0x80 then some ⟨value, [lead]⟩
  else if value < 0xC2 then none
  else if value < 0xE0 then pair lead rest
  else if value = 0xE0 then triple 0xA0 0xBF lead rest
  else if value = 0xED then triple 0x80 0x9F lead rest
  else if value < 0xF0 then triple 0x80 0xBF lead rest
  else if value = 0xF0 then quadruple 0x90 0xBF lead rest
  else if value < 0xF4 then quadruple 0x80 0xBF lead rest
  else if value = 0xF4 then quadruple 0x80 0x8F lead rest
  else none

/-- The glyph at the front of a text that starts with the lead byte. -/
def first (lead : UInt8) (rest : Text) : Glyph := (wellFormed? lead rest).getD (stray lead)

/-- A glyph outside UTF-8 is one byte that stands for the replacement character. -/
def isStray (glyph : Glyph) : Bool := glyph.code == replacement && glyph.bytes.length == 1

/-- The glyph is an ASCII character. -/
def is (glyph : Glyph) (character : Char) : Bool := glyph.code == character.toNat

/-- The UTF-8 bytes of a code point; one that no character has is written as the replacement. -/
def encode (code : Nat) : Text :=
  if code < 0x80 then [code.toUInt8]
  else if code < 0x800 then [(0xC0 + code / 64).toUInt8, (0x80 + code % 64).toUInt8]
  else if (0xD800 ≤ code ∧ code < 0xE000) ∨ 0x110000 ≤ code then [0xEF, 0xBF, 0xBD]
  else if code < 0x10000 then
    [(0xE0 + code / 4096).toUInt8, (0x80 + code / 64 % 64).toUInt8, (0x80 + code % 64).toUInt8]
  else
    [(0xF0 + code / 262144).toUInt8, (0x80 + code / 4096 % 64).toUInt8,
      (0x80 + code / 64 % 64).toUInt8, (0x80 + code % 64).toUInt8]

/-- White space: the blanks and line ends of ASCII and of Unicode. -/
def isSpace (glyph : Glyph) : Bool :=
  let code := glyph.code
  (9 ≤ code && code ≤ 13) || code == 0x20 || code == 0x85 || code == 0xA0 || code == 0x1680 ||
    (0x2000 ≤ code && code ≤ 0x200A) || code == 0x2028 || code == 0x2029 || code == 0x202F ||
    code == 0x205F || code == 0x3000

/-- A decimal digit of ASCII. -/
def isDigit (glyph : Glyph) : Bool := 0x30 ≤ glyph.code && glyph.code ≤ 0x39

/-- A hexadecimal digit of ASCII. -/
def isHexDigit (glyph : Glyph) : Bool :=
  glyph.isDigit || (0x41 ≤ glyph.code && glyph.code ≤ 0x46) ||
    (0x61 ≤ glyph.code && glyph.code ≤ 0x66)

/-- A letter of ASCII or the underscore. -/
def isLetter (glyph : Glyph) : Bool :=
  glyph.code == 0x5F || (0x41 ≤ glyph.code && glyph.code ≤ 0x5A) ||
    (0x61 ≤ glyph.code && glyph.code ≤ 0x7A)

/-- The bytes of a glyph are the lead byte and a leading part of the bytes after it. -/
def StartsAt (lead : UInt8) (rest : Text) (glyph : Glyph) : Prop :=
  ∃ tail, glyph.bytes = lead :: tail ∧ tail <+: rest

/-- A two-byte sequence starts at its lead byte. -/
theorem startsAt_of_pair {lead : UInt8} {rest : Text} {glyph : Glyph}
    (found : pair lead rest = some glyph) : StartsAt lead rest glyph := by
  unfold pair at found
  split at found
  · split at found
    · obtain rfl := Option.some.inj found
      exact ⟨_, rfl, by simp⟩
    · contradiction
  · contradiction

/-- A three-byte sequence starts at its lead byte. -/
theorem startsAt_of_triple {low high : Nat} {lead : UInt8} {rest : Text} {glyph : Glyph}
    (found : triple low high lead rest = some glyph) : StartsAt lead rest glyph := by
  unfold triple at found
  split at found
  · split at found
    · obtain rfl := Option.some.inj found
      exact ⟨_, rfl, by simp⟩
    · contradiction
  · contradiction

/-- A four-byte sequence starts at its lead byte. -/
theorem startsAt_of_quadruple {low high : Nat} {lead : UInt8} {rest : Text} {glyph : Glyph}
    (found : quadruple low high lead rest = some glyph) : StartsAt lead rest glyph := by
  unfold quadruple at found
  split at found
  · split at found
    · obtain rfl := Option.some.inj found
      exact ⟨_, rfl, by simp⟩
    · contradiction
  · contradiction

/-- A well-formed sequence starts at its lead byte. -/
theorem startsAt_of_wellFormed? {lead : UInt8} {rest : Text} {glyph : Glyph}
    (found : wellFormed? lead rest = some glyph) : StartsAt lead rest glyph := by
  unfold wellFormed? at found
  simp only at found
  by_cases ascii : lead.toNat < 0x80
  · simp only [ascii, ↓reduceIte, Option.some.injEq] at found
    exact ⟨[], by rw [← found], by simp⟩
  · simp only [ascii, ↓reduceIte] at found
    repeat' split at found
    all_goals first
      | contradiction
      | exact startsAt_of_pair found
      | exact startsAt_of_triple found
      | exact startsAt_of_quadruple found

/-- The front glyph starts at the lead byte. -/
theorem startsAt_first (lead : UInt8) (rest : Text) : StartsAt lead rest (first lead rest) := by
  unfold first
  cases found : wellFormed? lead rest with
  | none => exact ⟨[], rfl, by simp⟩
  | some glyph => exact startsAt_of_wellFormed? found

end Glyph

namespace Text

/-- The glyphs of a text after some bytes that belong to an earlier glyph. -/
def glyphsAfter : (skipped : Nat) → Text → List Glyph
  | _, [] => []
  | skipped + 1, _ :: text => glyphsAfter skipped text
  | 0, lead :: text =>
    let glyph := Glyph.first lead text
    glyph :: glyphsAfter (glyph.bytes.length - 1) text

/-- The glyphs of a text in order. -/
def glyphs (text : Text) : List Glyph := glyphsAfter 0 text

/-- Passing the bytes of an earlier glyph leaves the glyphs of what follows. -/
theorem glyphsAfter_length (passed rest : Text) :
    glyphsAfter passed.length (passed ++ rest) = rest.glyphs := by
  induction passed with
  | nil => rfl
  | cons head passed ih => simpa [glyphsAfter] using ih

/-- The glyphs of a well-formed sequence with something after it. -/
theorem glyphs_cons_append {lead : UInt8} {tail rest : Text} {code : Nat}
    (read : Glyph.wellFormed? lead (tail ++ rest) = some ⟨code, lead :: tail⟩) :
    glyphs (lead :: tail ++ rest) = ⟨code, lead :: tail⟩ :: rest.glyphs := by
  have first : Glyph.first lead (tail ++ rest) = ⟨code, lead :: tail⟩ := by
    rw [Glyph.first, read, Option.getD_some]
  simp only [glyphs, List.cons_append, glyphsAfter, first, List.length_cons, Nat.add_sub_cancel]
  exact congrArg _ (glyphsAfter_length tail rest)

/-- The bytes of the glyphs after some skipped bytes are the bytes after those. -/
theorem flatMap_glyphsAfter (skipped : Nat) (text : Text) :
    (glyphsAfter skipped text).flatMap Glyph.bytes = text.drop skipped := by
  induction text generalizing skipped with
  | nil => simp [glyphsAfter]
  | cons lead text ih =>
    cases skipped with
    | succ skipped => simp [glyphsAfter, ih]
    | zero =>
      obtain ⟨tail, bytes, rest, whole⟩ := Glyph.startsAt_first lead text
      simp only [glyphsAfter, List.flatMap_cons, ih, bytes, List.drop_zero]
      simp [← whole]

/-- The glyphs of a text write exactly that text. -/
@[simp] theorem flatMap_glyphs (text : Text) : text.glyphs.flatMap Glyph.bytes = text := by
  simpa [glyphs] using flatMap_glyphsAfter 0 text

/-- The number of characters of a text. -/
def width (text : Text) : Nat := text.glyphs.length

/-- Every glyph of the text is a well-formed sequence. -/
def isUtf8 (text : Text) : Bool := text.glyphs.all fun glyph => !glyph.isStray

/-- The text with blanks after it up to a width in characters. -/
def padRight (columns : Nat) (text : Text) : Text :=
  text ++ List.replicate (columns - text.width) (byte ' ')

/-- The text without white space at its start and end. -/
def trim (text : Text) : Text :=
  let started := text.glyphs.dropWhile Glyph.isSpace
  (started.reverse.dropWhile Glyph.isSpace).reverse.flatMap Glyph.bytes

end Text

end TinLang
