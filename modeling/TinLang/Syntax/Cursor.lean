import TinLang.Diagnostic
import TinLang.Syntax.Scan
import TinLang.Syntax.Tree

/-!
# Reading tokens

A cursor walks through the tokens of a file. It shows two tokens at a time and reports a lexical
error when it would become the second of them, so the grammar only sees well-formed tokens. A
reading step either yields a value or none; either way the cursor keeps its place and the errors
it has reported, which is what recovery builds on.
-/
namespace TinLang

/-- What is wrong with the tokens of a file. -/
inductive SyntaxError where
  | lexical (cause : LexicalError)
  | expected (kind : TokenKind) (found : Token)
  | expectedDeclaration (found : Token)
  | expectedType (found : Token)
  | unexpectedInExpression (found : Token)
  | unfinishedStruct (name : Text)
  | unseparatedMember (member : Text) (found : Token)
  | unfinishedBlock
  | integerRange (literal : Text)
  | floatRange (literal : Text)
  deriving DecidableEq, Repr

/-- The message of a syntax error. -/
def SyntaxError.message : SyntaxError → Text
  | .lexical cause => cause.message
  | .expected kind found => "expected " ++ kind.name ++ ", got " ++ found.describe
  | .expectedDeclaration found => "expected a declaration, got " ++ found.describe
  | .expectedType found => "expected a type, got " ++ found.describe
  | .unexpectedInExpression found => "unexpected " ++ found.describe ++ " in expression"
  | .unfinishedStruct name => "unexpected end of file in struct " ++ name
  | .unseparatedMember member found =>
    "expected , or \x7d after member " ++ member ++ ", got " ++ found.describe
  | .unfinishedBlock => "unexpected end of file, expected \x7d"
  | .integerRange literal => "integer literal " ++ literal ++ " is out of range"
  | .floatRange literal => "float literal " ++ literal ++ " is out of range"

/-- A syntax error at its place. -/
structure SyntaxProblem where
  /-- Where the error is reported. -/
  position : Position
  /-- What is wrong. -/
  error : SyntaxError
  deriving DecidableEq, Repr

/-- A place between the tokens of a file. -/
structure Cursor where
  /-- The token to read next. -/
  current : Token
  /-- The token after it. -/
  following : Token
  /-- All later tokens, errors included. -/
  rest : List Token
  /-- The place after the token read last. -/
  lastStop : Position
  /-- The errors reported so far, in order. -/
  problems : Array SyntaxProblem
  deriving Repr

namespace Cursor

/-- The first well-formed token of a list and the tokens after it, with the errors before it
reported; the given token when there is none. -/
def settle (ending : Token) : List Token → Array SyntaxProblem →
    Token × List Token × Array SyntaxProblem
  | [], problems => (ending, [], problems)
  | token :: tokens, problems =>
    match token.kind with
    | .error cause => settle ending tokens (problems.push ⟨token.position, .lexical cause⟩)
    | _ => (token, tokens, problems)

/-- The cursor before the first token of a file. -/
def ofTokens (tokens : List Token) : Cursor :=
  let ending : Token := ⟨.endOfText, [], .start⟩
  let (current, tokens, problems) := settle ending tokens #[]
  let (following, rest, problems) := settle current tokens problems
  ⟨current, following, rest, ⟨0, 0, 0⟩, problems⟩

/-- The cursor one token further; past the end it stays there. -/
def next (cursor : Cursor) : Cursor :=
  let (following, rest, problems) := settle cursor.following cursor.rest cursor.problems
  ⟨cursor.following, following, rest, cursor.current.stop, problems⟩

/-- The cursor with one more error reported at the current token. -/
def report (cursor : Cursor) (error : SyntaxError) : Cursor :=
  { cursor with problems := cursor.problems.push ⟨cursor.current.position, error⟩ }

/-- A bound on how many more tokens can be read. -/
def remaining (cursor : Cursor) : Nat := cursor.rest.length + 2

end Cursor

/-- A reading step: it moves the cursor and yields a value or none. -/
abbrev Parse := OptionT (StateM Cursor)

namespace Parse

/-- The token to read next. -/
def current : Parse Token := do return (← get).current

/-- Pass the current token. -/
def advance : Parse Unit := modify Cursor.next

/-- The current token has a kind. -/
def isAt (kind : TokenKind) : Parse Bool := do return decide ((← get).current.kind = kind)

/-- The current token is a symbol. -/
def isAtSymbol (symbol : Symbol) : Parse Bool := isAt (.symbol symbol)

/-- Report an error at the current token and yield nothing. -/
def fail {α : Type} (error : SyntaxError) : Parse α := do
  modify (·.report error)
  failure

/-- Pass a token of a kind, or report that another was found. -/
def expect (kind : TokenKind) : Parse Unit := do
  let token ← current
  if token.kind = kind then advance else fail (.expected kind token)

/-- Pass a symbol, or report that another token was found. -/
def expectSymbol (symbol : Symbol) : Parse Unit := expect (.symbol symbol)

/-- Pass a name and yield it. -/
def expectName : Parse Text := do
  let token ← current
  expect .identifier
  return token.literal

/-- What a step yields, going on either way. -/
def attempt {α : Type} (step : Parse α) : Parse (Option α) := OptionT.mk (some <$> step.run)

/-- The stretch from a place to the last token passed. -/
def spanFrom (start : Position) : Parse Span := do return ⟨start, (← get).lastStop⟩

/-- The number of errors reported so far. -/
def problemCount : Parse Nat := do return (← get).problems.size

end Parse

end TinLang
