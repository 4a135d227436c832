import TinLang.Syntax.Position
import TinLang.Text.Quoted

/-!
# Tokens

The words of the language: reserved words, symbols, literals and names, the end of the text,
and the errors that the scanner leaves in place of what it cannot read. Every kind has a name
for messages, and a token shows its kind and, where that says more, its text.
-/
namespace TinLang

/-- A reserved word. -/
inductive Keyword where
  | structDecl | funDecl | globalDecl | constDecl
  | ifBranch | elseBranch | whileLoop | breakLoop | continueLoop | returnValue
  | trueValue | falseValue | nullValue | castTo | sizeofType
  deriving DecidableEq, Repr

namespace Keyword

/-- Every reserved word. -/
def all : List Keyword :=
  [.structDecl, .funDecl, .globalDecl, .constDecl, .ifBranch, .elseBranch, .whileLoop, .breakLoop,
    .continueLoop, .returnValue, .trueValue, .falseValue, .nullValue, .castTo, .sizeofType]

/-- The spelling of a reserved word. -/
def word : Keyword → Text
  | .structDecl => "struct"
  | .funDecl => "fun"
  | .globalDecl => "global"
  | .constDecl => "const"
  | .ifBranch => "if"
  | .elseBranch => "else"
  | .whileLoop => "while"
  | .breakLoop => "break"
  | .continueLoop => "continue"
  | .returnValue => "return"
  | .trueValue => "true"
  | .falseValue => "false"
  | .nullValue => "null"
  | .castTo => "cast"
  | .sizeofType => "sizeof"

/-- The reserved word with a spelling. -/
def ofWord? (text : Text) : Option Keyword := all.find? fun keyword => keyword.word == text

/-- A reserved word is found by its spelling. -/
@[simp] theorem ofWord?_word (keyword : Keyword) : ofWord? keyword.word = some keyword := by
  cases keyword <;> decide

/-- Only its spelling finds a reserved word. -/
theorem word_of_ofWord? {text : Text} {keyword : Keyword} (found : ofWord? text = some keyword) :
    keyword.word = text := by
  simpa using List.find?_some found

end Keyword

/-- An operator or a delimiter. -/
inductive Symbol where
  | plus | minus | star | slash | amp | bang | assign | equal | notEqual
  | less | greater | lessEqual | greaterEqual | andAnd | orOr | plusPlus | minusMinus
  | leftParen | rightParen | leftBracket | rightBracket | leftBrace | rightBrace
  | comma | colon | semicolon | dot
  deriving DecidableEq, Repr

/-- The spelling of a symbol. -/
def Symbol.text : Symbol → Text
  | .plus => "+"
  | .minus => "-"
  | .star => "*"
  | .slash => "/"
  | .amp => "&"
  | .bang => "!"
  | .assign => "="
  | .equal => "=="
  | .notEqual => "!="
  | .less => "<"
  | .greater => ">"
  | .lessEqual => "<="
  | .greaterEqual => ">="
  | .andAnd => "&&"
  | .orOr => "||"
  | .plusPlus => "++"
  | .minusMinus => "--"
  | .leftParen => "("
  | .rightParen => ")"
  | .leftBracket => "["
  | .rightBracket => "]"
  | .leftBrace => "\x7b"
  | .rightBrace => "\x7d"
  | .comma => ","
  | .colon => ":"
  | .semicolon => ";"
  | .dot => "."

/-- Why the scanner could not read a token. -/
inductive LexicalError where
  | unterminatedComment
  | unexpectedCharacter (code : Nat)
  | malformedHex
  | malformedExponent
  | unterminatedString
  | unknownEscape
  | emptyCharacter
  | unterminatedCharacter
  | wideCharacter
  deriving DecidableEq, Repr

/-- The message of a lexical error. -/
def LexicalError.message : LexicalError → Text
  | .unterminatedComment => "unterminated block comment"
  | .unexpectedCharacter code => "unexpected character '" ++ Glyph.encode code ++ "'"
  | .malformedHex => "malformed hex literal"
  | .malformedExponent => "malformed exponent"
  | .unterminatedString => "unterminated string"
  | .unknownEscape => "unknown escape sequence"
  | .emptyCharacter => "empty character literal"
  | .unterminatedCharacter => "unterminated character literal"
  | .wideCharacter => "character literal does not fit in a byte"

/-- The kind of a token. -/
inductive TokenKind where
  | endOfText
  | error (cause : LexicalError)
  | integer
  | float
  | string
  | character
  | identifier
  | keyword (reserved : Keyword)
  | symbol (sign : Symbol)
  deriving DecidableEq, Repr

/-- The name of a kind of token in messages. -/
def TokenKind.name : TokenKind → Text
  | .endOfText => "EOF"
  | .error _ => "ERROR"
  | .integer => "INTEGER"
  | .float => "FLOAT"
  | .string => "STRING"
  | .character => "CHAR"
  | .identifier => "IDENTIFIER"
  | .keyword reserved => reserved.word
  | .symbol sign => sign.text

/-- A token at its place in the source. -/
structure Token where
  /-- What the token is. -/
  kind : TokenKind
  /-- The text as written, except for the value of a string or character literal and the
  message of an error. -/
  literal : Text
  /-- The place of its first glyph. -/
  position : Position
  deriving DecidableEq, Repr

namespace Token

/-- How a message shows the token. -/
def describe (token : Token) : Text :=
  match token.kind with
  | .identifier | .integer | .float => token.kind.name ++ "(" ++ token.literal ++ ")"
  | .string | .character | .error _ => token.kind.name ++ "(" ++ token.literal.quoted ++ ")"
  | kind => kind.name

/-- The place after the token: as many columns on as its text has bytes, with two more for the
quotes of a string or character literal. -/
def stop (token : Token) : Position :=
  match token.kind with
  | .string | .character => token.position.shift (token.literal.length + 2)
  | _ => token.position.shift token.literal.length

end Token

end TinLang
