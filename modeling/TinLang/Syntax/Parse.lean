import TinLang.Single.Read
import TinLang.Syntax.Cursor

/-!
# Grammar

Recursive descent over the tokens of a file. A rule that cannot go on reports one error and
yields nothing; the enclosing statement list then skips to the next statement, and the file to
the next declaration. The rules for expressions and statements call each other, so each takes a
depth that its caller lowers; `depthFor` gives a depth that no text of that many tokens uses up.
-/
namespace TinLang.Parse

/-- A depth of rule calls that suffices for a number of tokens: between two tokens read, fewer
than sixteen rules are entered. -/
def depthFor (tokens : Nat) : Nat := 16 * (tokens + 1)

/-- The stars after a type name, at most as many as the bound. -/
def stars : (bound : Nat) → Parse Nat
  | 0 => return 0
  | bound + 1 => do
    if ← isAtSymbol .star then
      advance
      return (← stars bound) + 1
    else return 0

/-- A written type: a name and stars. -/
def type : Parse TypeExpr := do
  let token ← current
  if token.kind = .identifier then
    advance
    let pointer ← stars (← get).remaining
    return ⟨← spanFrom token.position, token.literal, pointer⟩
  else fail (.expectedType token)

/-- A name, a colon and a type. -/
def field : Parse Field := do
  let start := (← current).position
  let name ← expectName
  expectSymbol .colon
  let type ← type
  return ⟨← spanFrom start, name, type⟩

/-- The operator of an infix symbol. -/
def infixOp? (token : Token) : Option BinaryOp :=
  match token.kind with
  | .symbol sign => BinaryOp.ofSymbol? sign
  | _ => none

/-- The operator of a symbol before a value. -/
def unaryOp? (token : Token) : Option UnaryOp :=
  match token.kind with
  | .symbol .minus => some .negate
  | .symbol .bang => some .not
  | .symbol .amp => some .address
  | .symbol .star => some .deref
  | _ => none

/-- The step of a symbol before or after a variable. -/
def stepOp? (token : Token) : Option StepOp :=
  match token.kind with
  | .symbol .plusPlus => some .increment
  | .symbol .minusMinus => some .decrement
  | _ => none

/-- The value of a character literal: the code point it holds, as a byte. -/
def characterValue (literal : Text) : UInt8 :=
  match literal.glyphs with
  | glyph :: _ => glyph.code.toUInt8
  | [] => Glyph.replacement.toUInt8

/-- A literal that is one token, once it is known to be one. -/
def literal (build : Span → Expr) : Parse Expr := do
  let start := (← current).position
  advance
  return build (← spanFrom start)

/-- An integer literal, which has to fit 32 bits. -/
def integer (token : Token) : Parse Expr :=
  match Numeral.literal? token.literal with
  | some value =>
    if value < 0x100000000 then literal (.int · value) else fail (.integerRange token.literal)
  | none => fail (.integerRange token.literal)

/-- A floating-point literal, which has to be finite in single precision. -/
def float (token : Token) : Parse Expr :=
  match Single.read? token.literal with
  | some bits => literal (.float · bits)
  | none => fail (.floatRange token.literal)

/-- The size of a type, from after the reserved word. -/
def sizeof (start : Position) : Parse Expr := do
  expectSymbol .leftParen
  let type ← type
  expectSymbol .rightParen
  return .sizeof (← spanFrom start) type

mutual

/-- An assignment or a binary expression. -/
def expression : (depth : Nat) → Parse Expr
  | 0 => failure
  | depth + 1 => do
    let start := (← current).position
    let target ← binary depth 1
    if ← isAtSymbol .assign then
      advance
      let value ← expression depth
      return .assign (← spanFrom start) target value
    else return target

/-- Operators that bind at least as tightly as a least precedence. -/
def binary : (depth least : Nat) → Parse Expr
  | 0, _ => failure
  | depth + 1, least => do
    let start := (← current).position
    let left ← unary depth
    binaryFrom depth start least left

/-- The operators after a left operand. -/
def binaryFrom : (depth : Nat) → Position → (least : Nat) → Expr → Parse Expr
  | 0, _, _, _ => failure
  | depth + 1, start, least, left => do
    match infixOp? (← current) with
    | some op =>
      if op.precedence < least then return left
      else
        advance
        let right ← binary depth (op.precedence + 1)
        binaryFrom depth start least (.binary (← spanFrom start) op left right)
    | none => return left

/-- Operators before a value. -/
def unary : (depth : Nat) → Parse Expr
  | 0 => failure
  | depth + 1 => do
    let token ← current
    match unaryOp? token, stepOp? token with
    | some op, _ =>
      advance
      let operand ← unary depth
      return .unary (← spanFrom token.position) op operand
    | none, some op =>
      advance
      let operand ← unary depth
      return .step (← spanFrom token.position) op true operand
    | none, none =>
      let value ← primary depth
      selection depth token.position value

/-- Members, elements and steps after a value. -/
def selection : (depth : Nat) → Position → Expr → Parse Expr
  | 0, _, _ => failure
  | depth + 1, start, object => do
    let token ← current
    match token.kind with
    | .symbol .dot =>
      advance
      let member ← expectName
      selection depth start (.member (← spanFrom start) object member)
    | .symbol .leftBracket =>
      advance
      let index ← expression depth
      expectSymbol .rightBracket
      selection depth start (.index (← spanFrom start) object index)
    | _ =>
      match stepOp? token with
      | some op =>
        advance
        selection depth start (.step (← spanFrom start) op false object)
      | none => return object

/-- A literal, a name, a call, or an expression in parentheses. -/
def primary : (depth : Nat) → Parse Expr
  | 0 => failure
  | depth + 1 => do
    let token ← current
    let start := token.position
    match token.kind with
    | .integer => integer token
    | .float => float token
    | .string => literal (.string · token.literal)
    | .character => literal (.character · (characterValue token.literal))
    | .keyword .trueValue => literal (.bool · true)
    | .keyword .falseValue => literal (.bool · false)
    | .keyword .nullValue => literal .null
    | .identifier =>
      advance
      if ← isAtSymbol .leftParen then
        advance
        let arguments ← arguments depth
        return .call (← spanFrom start) token.literal arguments
      else return .name (← spanFrom start) token.literal
    | .symbol .leftParen =>
      advance
      let inner ← expression depth
      expectSymbol .rightParen
      return inner
    | .keyword .castTo =>
      advance
      expectSymbol .less
      let type ← type
      expectSymbol .greater
      expectSymbol .leftParen
      let value ← expression depth
      expectSymbol .rightParen
      return .cast (← spanFrom start) type value
    | .keyword .sizeofType =>
      advance
      sizeof start
    | _ => fail (.unexpectedInExpression token)

/-- The arguments of a call and its closing parenthesis. -/
def arguments : (depth : Nat) → Parse (List Expr)
  | 0 => failure
  | depth + 1 => do
    if ← isAtSymbol .rightParen then
      advance
      return []
    else
      let argument ← expression depth
      unless ← isAtSymbol .rightParen do expectSymbol .comma
      return argument :: (← arguments depth)

end

/-- A value after an equals sign, if there is one. -/
def initializer (depth : Nat) : Parse (Option Expr) := do
  if ← isAtSymbol .assign then
    advance
    return some (← expression depth)
  else return none

/-- A constant, from its reserved word on. -/
def constant (depth : Nat) : Parse ConstDecl := do
  let start := (← current).position
  advance
  let name ← expectName
  let type ← if ← isAtSymbol .colon then
      advance
      some <$> type
    else pure none
  expectSymbol .assign
  let value ← expression depth
  expectSymbol .semicolon
  return ⟨← spanFrom start, name, type, value⟩

/-- Report a missing semicolon, but keep the statement before it. -/
def endStatement (statement : Stmt) : Parse Stmt := do
  let _ ← attempt (expectSymbol .semicolon)
  return statement

/-- Skip past the next semicolon, or up to the next brace or the end of the text. -/
def skipStatement : (bound : Nat) → Parse Unit
  | 0 => return ()
  | bound + 1 => do
    match (← current).kind with
    | .endOfText => return ()
    | .symbol .semicolon => advance
    | .symbol .rightBrace | .symbol .leftBrace => return ()
    | _ =>
      advance
      skipStatement bound

mutual

/-- A block. -/
def block : (depth : Nat) → Parse Block
  | 0 => failure
  | depth + 1 => do
    let start := (← current).position
    expectSymbol .leftBrace
    let statements ← statements depth
    return .mk (← spanFrom start) statements

/-- The statements of a block and its closing brace. After a statement with errors, the rest of
it is skipped. -/
def statements : (depth : Nat) → Parse (List Stmt)
  | 0 => failure
  | depth + 1 => do
    let token ← current
    match token.kind with
    | .symbol .rightBrace =>
      advance
      return []
    | .endOfText => fail .unfinishedBlock
    | _ =>
      let before ← problemCount
      let read ← attempt (statement depth)
      if before < (← problemCount) then skipStatement (← get).remaining
      let later ← statements depth
      return read.toList ++ later

/-- A statement. -/
def statement : (depth : Nat) → Parse Stmt
  | 0 => failure
  | depth + 1 => do
    let token ← current
    let start := token.position
    match token.kind with
    | .symbol .leftBrace => return .block (← block depth)
    | .keyword .ifBranch => branch depth
    | .keyword .whileLoop =>
      advance
      let condition ← expression (depthFor (← get).remaining)
      let body ← block depth
      return .loop (← spanFrom start) condition body
    | .keyword .breakLoop =>
      advance
      endStatement (.leave (← spanFrom start))
    | .keyword .continueLoop =>
      advance
      endStatement (.again (← spanFrom start))
    | .keyword .returnValue =>
      advance
      let value ← if ← isAtSymbol .semicolon then pure none
        else some <$> expression (depthFor (← get).remaining)
      endStatement (.result (← spanFrom start) value)
    | .keyword .constDecl => return .constant (← constant (depthFor (← get).remaining))
    | _ =>
      if token.kind = .identifier ∧ (← get).following.kind = .symbol .colon then
        let field ← field
        let value ← initializer (depthFor (← get).remaining)
        endStatement (.declare (← spanFrom start) field.name field.type value)
      else
        let expr ← expression (depthFor (← get).remaining)
        endStatement (.evaluate (← spanFrom start) expr)

/-- A choice, from its reserved word on. -/
def branch : (depth : Nat) → Parse Stmt
  | 0 => failure
  | depth + 1 => do
    let start := (← current).position
    advance
    let condition ← expression (depthFor (← get).remaining)
    let body ← block depth
    if ← isAt (.keyword .elseBranch) then
      advance
      let otherwise ← if ← isAt (.keyword .ifBranch) then branch depth
        else .block <$> block depth
      return .branch (← spanFrom start) condition body (some otherwise)
    else return .branch (← spanFrom start) condition body none

end

/-- The members of a struct and its closing brace. -/
def members (struct : Text) : (bound : Nat) → Parse (List Field)
  | 0 => failure
  | bound + 1 => do
    let token ← current
    match token.kind with
    | .symbol .rightBrace =>
      advance
      return []
    | .endOfText => fail (.unfinishedStruct struct)
    | _ =>
      let member ← field
      let token ← current
      match token.kind with
      | .symbol .comma | .symbol .semicolon => advance
      | .symbol .rightBrace => pure ()
      | _ => fail (.unseparatedMember member.name token)
      return member :: (← members struct bound)

/-- A struct, from its reserved word on. -/
def struct : Parse StructDecl := do
  let start := (← current).position
  advance
  let name ← expectName
  expectSymbol .leftBrace
  let members ← members name (← get).remaining
  return ⟨← spanFrom start, name, members⟩

/-- The parameters of a function and its closing parenthesis. -/
def params : (bound : Nat) → Parse (List Field)
  | 0 => failure
  | bound + 1 => do
    if ← isAtSymbol .rightParen then
      advance
      return []
    else
      let param ← field
      unless ← isAtSymbol .rightParen do expectSymbol .comma
      return param :: (← params bound)

/-- A function, from its reserved word on. -/
def function : Parse FuncDecl := do
  let start := (← current).position
  advance
  let name ← expectName
  expectSymbol .leftParen
  let params ← params (← get).remaining
  let result ← if ← isAtSymbol .colon then
      advance
      some <$> type
    else pure none
  let span ← spanFrom start
  let body ← block (depthFor (← get).remaining)
  return ⟨span, name, params, result, body⟩

/-- A global, from its reserved word on. -/
def global : Parse GlobalDecl := do
  let start := (← current).position
  advance
  let name ← expectName
  expectSymbol .colon
  let type ← type
  let value ← initializer (depthFor (← get).remaining)
  expectSymbol .semicolon
  return ⟨← spanFrom start, name, type, value⟩

/-- Skip to the next reserved word that starts a declaration. -/
def skipDeclaration : (bound : Nat) → Parse Unit
  | 0 => return ()
  | bound + 1 => do
    match (← current).kind with
    | .endOfText => return ()
    | .keyword .structDecl | .keyword .funDecl | .keyword .globalDecl | .keyword .constDecl =>
      return ()
    | _ =>
      advance
      skipDeclaration bound

/-- Add the declaration at the cursor, if one can be read, to those of the file before it. -/
def declaration (file : SourceFile) : Parse SourceFile := do
  let token ← current
  match token.kind with
  | .keyword .structDecl =>
    let read ← attempt struct
    return { file with structs := file.structs ++ read.toList }
  | .keyword .funDecl =>
    let read ← attempt function
    return { file with funcs := file.funcs ++ read.toList }
  | .keyword .globalDecl =>
    let read ← attempt global
    return { file with globals := file.globals ++ read.toList }
  | .keyword .constDecl =>
    let read ← attempt (constant (depthFor (← get).remaining))
    return { file with consts := file.consts ++ read.toList }
  | _ =>
    modify (·.report (.expectedDeclaration token))
    advance
    return file

/-- The declarations up to the end of the text, after those read before. -/
def declarations : (bound : Nat) → SourceFile → Parse SourceFile
  | 0, file => return file
  | bound + 1, file => do
    if ← isAt .endOfText then return file
    else
      let before ← problemCount
      let file ← declaration file
      if before < (← problemCount) then skipDeclaration (← get).remaining
      declarations bound file

end TinLang.Parse

namespace TinLang

/-- The errors of a cursor as diagnostics of a file, in the order they were reported. -/
def Cursor.diagnostics (cursor : Cursor) (file : Text) : List Diagnostic :=
  cursor.problems.toList.map fun problem =>
    .located file problem.position problem.error.message

/-- Read a source file: its declarations, and the errors in the order they were reported. -/
def SourceFile.parse (name source : Text) : SourceFile × List Diagnostic :=
  let empty : SourceFile := ⟨name, source, [], [], [], []⟩
  let cursor := Cursor.ofTokens (Scan.tokens source)
  let (file, cursor) := (Parse.declarations cursor.remaining empty).run.run cursor
  (file.getD empty, cursor.diagnostics name)

/-- Read the expression at the front of a text; what follows it is not read. -/
def Expr.parse (name source : Text) : Option Expr × List Diagnostic :=
  let cursor := Cursor.ofTokens (Scan.tokens source)
  let (expr, cursor) := (Parse.expression (Parse.depthFor cursor.remaining)).run.run cursor
  (expr, cursor.diagnostics name)

end TinLang
