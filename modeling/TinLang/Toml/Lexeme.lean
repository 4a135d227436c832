import TinLang.Text.Glyph
import TinLang.Toml.Moment

/-!
# Lexemes of TOML

Readers for the parts of a document that do not nest: blanks and comments, names, strings, numbers
and moments. Each returns what it read and the text after it, or nothing when the text is not well
formed.
-/
namespace TinLang.Toml

/-- A blank or a tabulator. -/
def isBlank (byte : UInt8) : Bool := byte == Text.byte ' ' || byte == Text.byte '\t'

/-- A line end, or the return before it. -/
def isNewline (byte : UInt8) : Bool := byte == Text.byte '\n' || byte == Text.byte '\r'

/-- The text after the blanks at its front. -/
def skipBlanks (text : Text) : Text := text.dropWhile isBlank

/-- The text after blanks, line ends and comments; `comment` tells whether the text starts inside
of a comment. -/
def skipFiller : (comment : Bool) → Text → Text
  | _, [] => []
  | true, byte :: text => skipFiller (byte != Text.byte '\n') text
  | false, byte :: text =>
    if byte = Text.byte '#' then skipFiller true text
    else if isBlank byte || isNewline byte then skipFiller false text
    else byte :: text

/-- A byte of a name without quotes. -/
def isBareByte (byte : UInt8) : Bool :=
  let between (low high : Char) : Bool := decide (Text.byte low ≤ byte) && decide
    (byte ≤ Text.byte high)
  between 'A' 'Z' || between 'a' 'z' || between '0' '9' || byte == Text.byte '_' ||
    byte == Text.byte '-'

/-- The character that so many hexadecimal digits write, in UTF-8. -/
def codePoint? (count : Nat) (text : Text) : Option (Text × Text) := do
  let digits := text.take count
  guard (digits.length = count)
  let code ← Numeral.ofDigits? 16 digits
  guard (code < 0xD800 ∨ (0xDFFF < code ∧ code < 0x110000))
  return (Text.ofString (String.singleton (Char.ofNat code)), text.drop count)

/-- What an escape stands for, from the text after its backslash. -/
def escape? (text : Text) : Option (Text × Text) :=
  match text with
  | [] => none
  | mark :: text =>
    if mark = Text.byte 'b' then some ([8], text)
    else if mark = Text.byte 't' then some ([9], text)
    else if mark = Text.byte 'n' then some ([10], text)
    else if mark = Text.byte 'f' then some ([12], text)
    else if mark = Text.byte 'r' then some ([13], text)
    else if mark = Text.byte 'e' then some ([27], text)
    else if mark = Text.byte '"' ∨ mark = Text.byte '\\' then some ([mark], text)
    else if mark = Text.byte 'x' then codePoint? 2 text
    else if mark = Text.byte 'u' then codePoint? 4 text
    else if mark = Text.byte 'U' then codePoint? 8 text
    else none

/-- The rest of a string between double quotes. -/
def basicWithin : (bound : Nat) → Text → Option (Text × Text)
  | 0, _ => none
  | _, [] => none
  | bound + 1, byte :: text =>
    if isNewline byte then none
    else if byte = Text.byte '"' then some ([], text)
    else if byte = Text.byte '\\' then do
      let (meant, text) ← escape? text
      let (content, rest) ← basicWithin bound text
      return (meant ++ content, rest)
    else (basicWithin bound text).map fun (content, rest) => (byte :: content, rest)

/-- The rest of a string between double quotes, whose escapes are read. -/
def basicString? (text : Text) : Option (Text × Text) := basicWithin text.length text

/-- The rest of a string between single quotes, which has no escapes. -/
def literalString? (text : Text) : Option (Text × Text) :=
  let content := text.takeWhile fun byte => byte != Text.byte '\'' && !isNewline byte
  (Text.dropLeading? [Text.byte '\''] (text.drop content.length)).map fun rest => (content, rest)

/-- The bytes so far, last first, end with five quotes; an escape does not count among strings that
have escapes. -/
def endsWithFive (quote : UInt8) (escapes : Bool) (before : Text) : Bool :=
  (before.take 5 == List.replicate 5 quote) && !(escapes && before[5]? == some (Text.byte '\\'))

/-- The rest of a string between three quotes as it is written; `before` holds the bytes so far,
last first. Up to two quotes may stand before the closing ones. -/
def untilThree? (quote : UInt8) (escapes : Bool) : (before : Text) → Text → Option (Text × Text)
  | _, [] => none
  | before, byte :: text =>
    if escapes && byte == Text.byte '\\' then
      match text with
      | [] => none
      | escaped :: text => untilThree? quote escapes (escaped :: byte :: before) text
    else if byte = quote ∧ text.take 2 = [quote, quote] then
      if text[2]? = some quote then
        if endsWithFive quote escapes (quote :: quote :: quote :: before) then none
        else untilThree? quote escapes (byte :: before) text
      else some (before.reverse, text.drop 2)
    else untilThree? quote escapes (byte :: before) text

/-- The text without a line end at its front. -/
def dropFirstNewline (text : Text) : Text :=
  match text with
  | 10 :: text => text
  | 13 :: 10 :: text => text
  | text => text

/-- The meaning of the content of a string of several lines. A backslash before a line end takes
away all blanks and line ends after it. -/
def linesWithin : (bound : Nat) → Text → Option Text
  | _, [] => some []
  | 0, _ :: _ => none
  | bound + 1, byte :: text =>
    if byte = Text.byte '\\' then
      let gap := text.takeWhile fun byte => isBlank byte || isNewline byte
      if gap.contains (Text.byte '\n') then linesWithin bound (text.drop gap.length)
      else do
        let (meant, text) ← escape? text
        return meant ++ (← linesWithin bound text)
    else (linesWithin bound text).map (byte :: ·)

/-- The rest of a string between three double quotes. -/
def basicLines? (text : Text) : Option (Text × Text) := do
  let (content, rest) ← untilThree? (Text.byte '"') true [] text
  let content := dropFirstNewline content
  return (← linesWithin content.length content, rest)

/-- The rest of a string between three single quotes. -/
def literalLines? (text : Text) : Option (Text × Text) := do
  let (content, rest) ← untilThree? (Text.byte '\'') false [] text
  return (dropFirstNewline content, rest)

/-- A string at the front of a text, of one line or of several. -/
def string? (text : Text) : Option (Text × Text) :=
  match Text.dropLeading? "\"\"\"" text, Text.dropLeading? "'''" text with
  | some rest, _ => basicLines? rest
  | none, some rest => literalLines? rest
  | none, none =>
    match Text.dropLeading? "\"" text, Text.dropLeading? "'" text with
    | some rest, _ => basicString? rest
    | none, some rest => literalString? rest
    | none, none => none

/-- One name of a key at the front of a text. -/
def name? (text : Text) : Option (Text × Text) :=
  match Text.dropLeading? "\"" text, Text.dropLeading? "'" text with
  | some rest, _ => basicString? rest
  | none, some rest => literalString? rest
  | none, none =>
    let name := text.takeWhile isBareByte
    if name.isEmpty then none else some (name, text.drop name.length)

/-- The names of a key with dots between them, and the text after the blanks behind them. -/
def keyWithin : (bound : Nat) → Text → Option (Key × Text)
  | 0, _ => none
  | bound + 1, text => do
    let (name, rest) ← name? (skipBlanks text)
    let rest := skipBlanks rest
    match Text.dropLeading? "." rest with
    | none => return ([name], rest)
    | some rest =>
      let (key, rest) ← keyWithin bound rest
      return (name :: key, rest)

/-- A key at the front of a text. -/
def key? (text : Text) : Option (Key × Text) := keyWithin (text.length + 1) text

/-- A byte of the digits of a decimal number. -/
def isNumberByte (byte : UInt8) : Bool := isDigit byte || byte == Text.byte '_'

/-- A byte of a real number. -/
def isRealByte (byte : UInt8) : Bool :=
  isNumberByte byte || isSign byte || isExponentMark byte || byte == Text.byte '.'

/-- A byte of a moment. -/
def isMomentByte (byte : UInt8) : Bool :=
  isDigit byte || isSign byte || (Text.ofString ":TtZz .").contains byte

/-- A decimal number at the front of a text, from its sign on. -/
def decimalNumber? (text : Text) : Option (Value × Text) :=
  let digits := text.take (text.length - (unsigned text).length) ++ (unsigned text).takeWhile
    isNumberByte
  let rest := text.drop digits.length
  if (rest.head?.map fun byte => byte == Text.byte '.' || isExponentMark byte).getD false then
    let number := digits ++ rest.takeWhile isRealByte
    if isReal number then some (.real number, text.drop number.length) else none
  else (decimal? digits).map fun number => (.integer number, rest)

/-- An integer of a base at the front of a text, from its digits on. -/
def basedNumber? (base : Nat) (text : Text) : Option (Value × Text) :=
  let digits := text.takeWhile fun byte => isDigitOf base byte || byte == Text.byte '_'
  (based? base digits).map fun number => (.integer number, text.drop digits.length)

/-- A moment at the front of a text. -/
def moment? (text : Text) : Option (Value × Text) :=
  let moment := text.takeWhile isMomentByte
  if Moment.isMoment moment then some (.moment moment, text.drop moment.length) else none

/-- The first of some words at the front of a text, and the text after it. -/
def word? (words : List Text) (text : Text) : Option (Text × Text) :=
  words.findSome? fun word => (Text.dropLeading? word text).map fun rest => (word, rest)

/-- A number or a moment at the front of a text that starts with a digit or a sign. -/
def numberOrMoment? (text : Text) : Option (Value × Text) :=
  match word? ["0x", "0o", "0b"] text with
  | some (_, rest) =>
    basedNumber? (if text[1]? = some (Text.byte 'x') then 16
      else if text[1]? = some (Text.byte 'o') then 8 else 2) rest
  | none =>
    let digits := text.takeWhile isDigit
    match digits, text.drop digits.length with
    | _ :: _, mark :: _ =>
      if mark = Text.byte '-' ∨ mark = Text.byte ':' then moment? text else decimalNumber? text
    | _, _ => decimalNumber? text

/-- A value that does not nest at the front of a text. -/
def scalar? (text : Text) : Option (Value × Text) :=
  match word? ["inf", "nan", "+inf", "+nan", "-inf", "-nan"] text with
  | some (word, rest) => some (.real word, rest)
  | none =>
    match text.head? with
    | none => none
    | some head =>
      if head = Text.byte '"' ∨ head = Text.byte '\'' then
        (string? text).map fun (content, rest) => (.string content, rest)
      else if isDigit head || isSign head then numberOrMoment? text
      else
        let letters := text.takeWhile fun byte => isBareByte byte && !isNumberByte byte && byte !=
          Text.byte '-'
        let rest := text.drop letters.length
        if letters = "true" then some (.boolean true, rest)
        else if letters = "false" then some (.boolean false, rest)
        else none

/-- A control character that a document may not hold. -/
def isControl (code : Nat) : Bool :=
  (decide (code < 0x20) && code != 9 && code != 10 && code != 13) || code == 0x7F

/-- The glyphs are all of UTF-8, none is a control character, and every return stands before a line
end. -/
def isPlain : List Glyph → Bool
  | [] => true
  | glyph :: glyphs =>
    !glyph.isStray && !isControl glyph.code &&
      (glyph.code != 13 || (glyphs.head?.map Glyph.code) == some 10) && isPlain glyphs

/-- The text without a byte order mark. -/
def withoutMark (text : Text) : Text :=
  match text with
  | 0xFF :: 0xFE :: text => text
  | 0xFE :: 0xFF :: text => text
  | 0xEF :: 0xBB :: 0xBF :: text => text
  | text => text

end TinLang.Toml
