import TinLang.Syntax.Token

/-!
# Scanning

A source text is a sequence of gaps and lexemes. A gap is white space and comments; a lexeme is
the longest word, number, literal or symbol at the front, or an error. Each function here looks
at the glyphs from one place on and says how many of them belong to what it found, so that
`tokens` only has to walk through the text.
-/
namespace TinLang.Scan

/-- The bytes of some glyphs. -/
def written (glyphs : List Glyph) : Text := glyphs.flatMap Glyph.bytes

/-- What a gap is in the middle of. -/
inductive GapMode where
  | blank
  | lineComment
  | blockComment
  deriving DecidableEq, Repr

/-- The extent of a gap. -/
structure Gap where
  /-- How many glyphs it has. -/
  width : Nat
  /-- Every block comment in it is closed. -/
  closed : Bool
  deriving DecidableEq, Repr

/-- The gap with some more glyphs in front. -/
def Gap.widen (glyphs : Nat) (gap : Gap) : Gap := { gap with width := gap.width + glyphs }

/-- The gap at the front: white space, comments to the end of their line, and block comments. -/
def gap : GapMode → List Glyph → Gap
  | .blank, glyph :: next :: rest =>
    if glyph.isSpace then (gap .blank (next :: rest)).widen 1
    else if glyph.is '/' && next.is '/' then (gap .lineComment rest).widen 2
    else if glyph.is '/' && next.is '*' then (gap .blockComment rest).widen 2
    else ⟨0, true⟩
  | .blank, [glyph] => if glyph.isSpace then ⟨1, true⟩ else ⟨0, true⟩
  | .blank, [] => ⟨0, true⟩
  | .lineComment, glyph :: rest =>
    if glyph.is '\n' then (gap .blank rest).widen 1 else (gap .lineComment rest).widen 1
  | .lineComment, [] => ⟨0, true⟩
  | .blockComment, glyph :: next :: rest =>
    if glyph.is '*' && next.is '/' then (gap .blank rest).widen 2
    else (gap .blockComment (next :: rest)).widen 1
  | .blockComment, [_] => ⟨1, false⟩
  | .blockComment, [] => ⟨0, false⟩

/-- A token without its place, and its extent. -/
structure Lexeme where
  /-- What it is. -/
  kind : TokenKind
  /-- Its text, value or message. -/
  literal : Text
  /-- How many glyphs it has. -/
  width : Nat
  deriving DecidableEq, Repr

/-- An error that covers some glyphs. -/
def Lexeme.error (cause : LexicalError) (width : Nat) : Lexeme :=
  ⟨.error cause, cause.message, width⟩

/-- A lexeme whose text is what was written. -/
def Lexeme.verbatim (kind : TokenKind) (width : Nat) (glyphs : List Glyph) : Lexeme :=
  ⟨kind, written (glyphs.take width), width⟩

/-- A glyph that a name may hold after its first. -/
def isNameGlyph (glyph : Glyph) : Bool := glyph.isLetter || glyph.isDigit

/-- A name or a reserved word. -/
def word (glyphs : List Glyph) : Lexeme :=
  let name := glyphs.takeWhile isNameGlyph
  match Keyword.ofWord? (written name) with
  | some keyword => ⟨.keyword keyword, written name, name.length⟩
  | none => ⟨.identifier, written name, name.length⟩

/-- How many digits stand at the front. -/
def digitRun (glyphs : List Glyph) : Nat := (glyphs.takeWhile Glyph.isDigit).length

/-- The extent of a point and the digits after it; a point without digits is no fraction. -/
def fraction : List Glyph → Nat
  | point :: rest => if point.is '.' && 0 < digitRun rest then digitRun rest + 1 else 0
  | [] => 0

/-- The exponent at the front of some glyphs. -/
inductive Exponent where
  | absent
  | malformed
  | present (width : Nat)
  deriving DecidableEq, Repr

/-- An exponent mark counts when a digit or a sign follows it; after a sign, digits must. -/
def exponent : List Glyph → Exponent
  | mark :: sign :: rest =>
    if mark.is 'e' || mark.is 'E' then
      if sign.isDigit then .present (digitRun rest + 2)
      else if sign.is '+' || sign.is '-' then
        if digitRun rest = 0 then .malformed else .present (digitRun rest + 2)
      else .absent
    else .absent
  | _ => .absent

/-- A decimal number: an integer unless it has a fraction or an exponent. -/
def decimal (glyphs : List Glyph) : Lexeme :=
  let whole := digitRun glyphs
  let part := fraction (glyphs.drop whole)
  match exponent (glyphs.drop (whole + part)) with
  | .present width => .verbatim .float (whole + part + width) glyphs
  | .malformed => .error .malformedExponent (whole + part + 2)
  | .absent => .verbatim (if part = 0 then .integer else .float) (whole + part) glyphs

/-- A number: hexadecimal after a zero and an x, decimal otherwise. -/
def number : List Glyph → Lexeme
  | zero :: mark :: rest =>
    if zero.is '0' && (mark.is 'x' || mark.is 'X') then
      let run := (rest.takeWhile Glyph.isHexDigit).length
      if run = 0 then .error .malformedHex 2 else .verbatim .integer (run + 2)
        (zero :: mark :: rest)
    else decimal (zero :: mark :: rest)
  | glyphs => decimal glyphs

/-- The code point that a glyph after a backslash stands for. -/
def escape? (glyph : Glyph) : Option Nat :=
  if glyph.is 'n' then some 10
  else if glyph.is 't' then some 9
  else if glyph.is 'r' then some 13
  else if glyph.is '0' then some 0
  else if glyph.is '\\' || glyph.is '\'' || glyph.is '"' then some glyph.code
  else none

/-- How the inside of a string literal ends. -/
inductive StringEnd where
  | closed
  | unterminated
  | badEscape
  deriving DecidableEq, Repr

/-- The inside of a string literal. -/
structure StringBody where
  /-- The value read so far. -/
  value : Text
  /-- How many glyphs it has, the closing quote included. -/
  width : Nat
  /-- How it ends. -/
  ending : StringEnd
  deriving DecidableEq, Repr

/-- The inside with one more character in front. -/
def StringBody.extend (code width : Nat) (body : StringBody) : StringBody :=
  { body with value := Glyph.encode code ++ body.value, width := body.width + width }

/-- The inside of a string literal from some place on; a line end ends it without a quote. -/
def stringBody : List Glyph → StringBody
  | [] => ⟨[], 0, .unterminated⟩
  | [glyph] =>
    if glyph.is '\n' then ⟨[], 0, .unterminated⟩
    else if glyph.is '"' then ⟨[], 1, .closed⟩
    else if glyph.is '\\' then ⟨[], 1, .badEscape⟩
    else ⟨Glyph.encode glyph.code, 1, .unterminated⟩
  | glyph :: next :: rest =>
    if glyph.is '\n' then ⟨[], 0, .unterminated⟩
    else if glyph.is '"' then ⟨[], 1, .closed⟩
    else if glyph.is '\\' then
      match escape? next with
      | some code => (stringBody rest).extend code 2
      | none => ⟨[], 1, .badEscape⟩
    else (stringBody (next :: rest)).extend glyph.code 1

/-- A string literal, from after its opening quote. -/
def string (glyphs : List Glyph) : Lexeme :=
  let body := stringBody glyphs
  match body.ending with
  | .closed => ⟨.string, body.value, body.width + 1⟩
  | .unterminated => .error .unterminatedString (body.width + 1)
  | .badEscape => .error .unknownEscape (body.width + 1)

/-- A character literal after its opening quote, once its character is read. -/
def characterEnd (code width : Nat) (rest : List Glyph) : Lexeme :=
  match rest with
  | quote :: _ =>
    if quote.is '\'' then
      if 0xFF < code then .error .wideCharacter (width + 2)
      else ⟨.character, Glyph.encode code, width + 2⟩
    else .error .unterminatedCharacter (width + 1)
  | [] => .error .unterminatedCharacter (width + 1)

/-- A character literal, from after its opening quote. -/
def character : List Glyph → Lexeme
  | [] => .error .emptyCharacter 1
  | glyph :: rest =>
    if glyph.is '\'' || glyph.is '\n' then .error .emptyCharacter 1
    else if glyph.is '\\' then
      match rest with
      | letter :: rest =>
        match escape? letter with
        | some code => characterEnd code 2 rest
        | none => .error .unknownEscape 2
      | [] => .error .unknownEscape 2
    else characterEnd glyph.code 1 rest

/-- A symbol of one or two glyphs, or a glyph that starts nothing. -/
def symbol (glyph : Glyph) (rest : List Glyph) : Lexeme :=
  let followedBy (character : Char) : Bool := match rest with
    | next :: _ => next.is character
    | [] => false
  let single (symbol : Symbol) : Lexeme := ⟨.symbol symbol, symbol.text, 1⟩
  let double (second : Char) (long short : Symbol) : Lexeme :=
    if followedBy second then ⟨.symbol long, long.text, 2⟩ else single short
  if glyph.is '+' then double '+' .plusPlus .plus
  else if glyph.is '-' then double '-' .minusMinus .minus
  else if glyph.is '*' then single .star
  else if glyph.is '/' then single .slash
  else if glyph.is '&' then double '&' .andAnd .amp
  else if glyph.is '|' && followedBy '|' then ⟨.symbol .orOr, Symbol.orOr.text, 2⟩
  else if glyph.is '!' then double '=' .notEqual .bang
  else if glyph.is '=' then double '=' .equal .assign
  else if glyph.is '<' then double '=' .lessEqual .less
  else if glyph.is '>' then double '=' .greaterEqual .greater
  else if glyph.is '(' then single .leftParen
  else if glyph.is ')' then single .rightParen
  else if glyph.is '[' then single .leftBracket
  else if glyph.is ']' then single .rightBracket
  else if glyph.is '\x7b' then single .leftBrace
  else if glyph.is '\x7d' then single .rightBrace
  else if glyph.is ',' then single .comma
  else if glyph.is ':' then single .colon
  else if glyph.is ';' then single .semicolon
  else if glyph.is '.' then single .dot
  else .error (.unexpectedCharacter glyph.code) 1

/-- The lexeme at the front of some glyphs that start with the given one. -/
def lexeme (glyph : Glyph) (rest : List Glyph) : Lexeme :=
  if glyph.isLetter then word (glyph :: rest)
  else if glyph.isDigit then number (glyph :: rest)
  else if glyph.is '"' then string rest
  else if glyph.is '\'' then character rest
  else symbol glyph rest

/-- The tokens from a place on, at most as many as the budget allows. -/
def tokensWithin : (budget : Nat) → Position → List Glyph → List Token
  | 0, _, _ => []
  | budget + 1, position, glyphs =>
    let gap := gap .blank glyphs
    let place := position.after (glyphs.take gap.width)
    match glyphs.drop gap.width with
    | [] =>
      let last : Token := ⟨.endOfText, [], place⟩
      if gap.closed then [last]
      else [⟨.error .unterminatedComment, LexicalError.unterminatedComment.message, place⟩, last]
    | glyph :: rest =>
      let found := lexeme glyph rest
      let token : Token := ⟨found.kind, found.literal, place⟩
      let taken := (glyph :: rest).take found.width
      token :: tokensWithin budget (place.after taken) ((glyph :: rest).drop found.width)

/-- The tokens of a source text, the end of the text last. Each token takes at least one glyph,
so one more step than there are glyphs is enough. -/
def tokens (source : Text) : List Token :=
  let glyphs := source.glyphs
  tokensWithin (glyphs.length + 1) .start glyphs

end TinLang.Scan
