import TinLang.Text.Glyph
import TinLang.Text.Printable

/-!
# Quoted text

A quoted text stands between double quotes. Printable characters are shown as they are; the
quote and the backslash take a backslash, the common control characters a letter, and every
other character or stray byte its number in hexadecimal.
-/
namespace TinLang.Text

/-- The letter that names a control character after a backslash. -/
def controlLetter? (code : Nat) : Option Char :=
  match code with
  | 7 => some 'a'
  | 8 => some 'b'
  | 9 => some 't'
  | 10 => some 'n'
  | 11 => some 'v'
  | 12 => some 'f'
  | 13 => some 'r'
  | _ => none

/-- One character inside quotes. -/
def quotedGlyph (glyph : Glyph) : Text :=
  if glyph.isStray then "\\x" ++ zeroFill 2 (glyph.bytes.flatMap fun byte => hex byte.toNat)
  else if glyph.is '"' || glyph.is '\\' then byte '\\' :: glyph.bytes
  else if Printable.contains glyph.code then glyph.bytes
  else match controlLetter? glyph.code with
    | some letter => [byte '\\', byte letter]
    | none =>
      if glyph.code < 0x20 || glyph.code == 0x7F then "\\x" ++ zeroFill 2 (hex glyph.code)
      else if glyph.code < 0x10000 then "\\u" ++ zeroFill 4 (hex glyph.code)
      else "\\U" ++ zeroFill 8 (hex glyph.code)

/-- The text between double quotes. -/
def quoted (text : Text) : Text :=
  byte '"' :: text.glyphs.flatMap quotedGlyph ++ [byte '"']

end TinLang.Text
