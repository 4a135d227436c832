import TinLang.Single.Show
import TinLang.Syntax.Tree

/-!
# Printing

A tree is written as words, which are tokens without a place, and words become text with a blank
between any two. Parentheses stand only where the grammar needs them: an operand whose operator
binds less tightly than its place requires is put between them.
-/
namespace TinLang

/-- A token without its place, and with the value of a number in place of its digits. -/
inductive SyntaxWord where
  | integer (value : Nat)
  | float (bits : BitVec 32)
  | string (value : Text)
  | character (value : UInt8)
  | name (name : Text)
  | keyword (reserved : Keyword)
  | symbol (sign : Symbol)
  deriving DecidableEq, Repr

/-- The letter that stands for a character after a backslash, if one has to. -/
def Glyph.escapeLetter? (glyph : Glyph) : Option UInt8 :=
  match glyph.code with
  | 0 => some (Text.byte '0')
  | 9 => some (Text.byte 't')
  | 10 => some (Text.byte 'n')
  | 13 => some (Text.byte 'r')
  | 34 => some (Text.byte '"')
  | 39 => some (Text.byte '\'')
  | 92 => some (Text.byte '\\')
  | _ => none

/-- A character inside the quotes of a literal. -/
def Glyph.escaped (glyph : Glyph) : Text :=
  match glyph.escapeLetter? with
  | some letter => [Text.byte '\\', letter]
  | none => glyph.bytes

namespace SyntaxWord

/-- How a word is written. A floating-point number keeps six decimal places. -/
def text : SyntaxWord → Text
  | .integer value => Text.ofNat value
  | .float bits => Single.fixed 6 bits
  | .string value => Text.byte '"' :: (value.glyphs.flatMap Glyph.escaped ++ [Text.byte '"'])
  | .character value =>
    Text.byte '\'' ::
      (Glyph.escaped ⟨value.toNat, Glyph.encode value.toNat⟩ ++ [Text.byte '\''])
  | .name spelling => spelling
  | .keyword reserved => reserved.word
  | .symbol sign => sign.text

/-- Words between parentheses. -/
def parens (words : List SyntaxWord) : List SyntaxWord :=
  .symbol .leftParen :: (words ++ [.symbol .rightParen])

/-- Lists of words with commas between them. -/
def commas : List (List SyntaxWord) → List SyntaxWord
  | [] => []
  | [words] => words
  | words :: others => words ++ .symbol .comma :: commas others

/-- An operand of some tightness where at least some tightness is needed. -/
def operand (least tightness : Nat) (words : List SyntaxWord) : List SyntaxWord :=
  if tightness < least then parens words else words

end SyntaxWord

/-- The words of a written type. -/
def TypeExpr.words (type : TypeExpr) : List SyntaxWord :=
  .name type.name :: List.replicate type.pointer (.symbol .star)

/-- How tightly an expression holds together: an assignment least, then the infix operators, the
operators before a value, those after a value, and what has no open end. -/
def Expr.tightness : Expr → Nat
  | .assign .. => 0
  | .binary _ op _ _ => op.precedence
  | .unary .. | .step _ _ true _ => 7
  | .step _ _ false _ | .member .. | .index .. => 8
  | .int .. | .float .. | .string .. | .character .. | .bool .. | .null _ | .name .. | .call ..
  | .cast .. | .sizeof .. => 9

namespace Expr

mutual

/-- The words of an expression. -/
def words : Expr → List SyntaxWord
  | .int _ value => [.integer value]
  | .float _ bits => [.float bits]
  | .string _ value => [.string value]
  | .character _ value => [.character value]
  | .bool _ value => [.keyword (if value then .trueValue else .falseValue)]
  | .null _ => [.keyword .nullValue]
  | .name _ spelling => [.name spelling]
  | .call _ callee arguments =>
    .name callee :: SyntaxWord.parens (SyntaxWord.commas (wordsOfAll arguments))
  | .binary _ op left right =>
    SyntaxWord.operand op.precedence left.tightness left.words ++
      .symbol op.symbol :: SyntaxWord.operand (op.precedence + 1) right.tightness right.words
  | .unary _ op operand => .symbol op.symbol :: SyntaxWord.operand 7 operand.tightness operand.words
  | .step _ op true operand =>
    .symbol op.symbol :: SyntaxWord.operand 7 operand.tightness operand.words
  | .step _ op false operand =>
    SyntaxWord.operand 8 operand.tightness operand.words ++ [.symbol op.symbol]
  | .assign _ target value =>
    SyntaxWord.operand 1 target.tightness target.words ++ .symbol .assign :: value.words
  | .member _ object field =>
    SyntaxWord.operand 8 object.tightness object.words ++ [.symbol .dot, .name field]
  | .index _ object place =>
    SyntaxWord.operand 8 object.tightness object.words ++
      .symbol .leftBracket :: (place.words ++ [.symbol .rightBracket])
  | .cast _ type value =>
    .keyword .castTo :: .symbol .less :: (type.words ++
      .symbol .greater :: SyntaxWord.parens value.words)
  | .sizeof _ type => .keyword .sizeofType :: SyntaxWord.parens type.words

/-- The words of each of some expressions. -/
def wordsOfAll : List Expr → List (List SyntaxWord)
  | [] => []
  | expr :: exprs => expr.words :: wordsOfAll exprs

end

/-- An equals sign and a value, if there is one. -/
def initialWords : Option Expr → List SyntaxWord
  | none => []
  | some value => .symbol .assign :: value.words

end Expr

/-- A colon and a written type, if there is one. -/
def TypeExpr.annotation : Option TypeExpr → List SyntaxWord
  | none => []
  | some type => .symbol .colon :: type.words

/-- The words of a name with its type. -/
def Field.words (field : Field) : List SyntaxWord :=
  .name field.name :: .symbol .colon :: field.type.words

/-- The words of a constant. -/
def ConstDecl.words (declaration : ConstDecl) : List SyntaxWord :=
  .keyword .constDecl :: .name declaration.name :: (TypeExpr.annotation declaration.type ++
    .symbol .assign :: (declaration.value.words ++ [.symbol .semicolon]))

mutual

/-- The words of a statement. -/
def Stmt.words : Stmt → List SyntaxWord
  | .declare _ name type value =>
    .name name :: .symbol .colon :: (type.words ++ (Expr.initialWords value ++
      [.symbol .semicolon]))
  | .constant declaration => declaration.words
  | .evaluate _ expr => expr.words ++ [.symbol .semicolon]
  | .branch _ condition body otherwise =>
    .keyword .ifBranch :: (condition.words ++ (body.words ++ wordsOfOtherwise otherwise))
  | .loop _ condition body => .keyword .whileLoop :: (condition.words ++ body.words)
  | .leave _ => [.keyword .breakLoop, .symbol .semicolon]
  | .again _ => [.keyword .continueLoop, .symbol .semicolon]
  | .result _ none => [.keyword .returnValue, .symbol .semicolon]
  | .result _ (some value) => .keyword .returnValue :: (value.words ++ [.symbol .semicolon])
  | .block body => body.words

/-- The words of the other side of a choice, if it has one. -/
def wordsOfOtherwise : Option Stmt → List SyntaxWord
  | none => []
  | some statement => .keyword .elseBranch :: statement.words

/-- The words of a block. -/
def Block.words : Block → List SyntaxWord
  | .mk _ statements =>
    .symbol .leftBrace :: (wordsOfStatements statements ++ [.symbol .rightBrace])

/-- The words of some statements. -/
def wordsOfStatements : List Stmt → List SyntaxWord
  | [] => []
  | statement :: statements => statement.words ++ wordsOfStatements statements

end

/-- A declaration of a file. -/
inductive Declaration where
  | struct (declaration : StructDecl)
  | constant (declaration : ConstDecl)
  | global (declaration : GlobalDecl)
  | function (declaration : FuncDecl)

namespace Declaration

/-- The words of a declaration. -/
def words : Declaration → List SyntaxWord
  | .struct declaration =>
    .keyword .structDecl :: .name declaration.name :: .symbol .leftBrace ::
      (SyntaxWord.commas (declaration.members.map Field.words) ++ [.symbol .rightBrace])
  | .constant declaration => declaration.words
  | .global declaration =>
    .keyword .globalDecl :: .name declaration.name :: .symbol .colon ::
      (declaration.type.words ++ (Expr.initialWords declaration.value ++ [.symbol .semicolon]))
  | .function declaration =>
    .keyword .funDecl :: .name declaration.name ::
      (SyntaxWord.parens (SyntaxWord.commas (declaration.params.map Field.words)) ++
        (TypeExpr.annotation declaration.result ++ declaration.body.words))

/-- Where a declaration starts. -/
def start : Declaration → Position
  | .struct declaration => declaration.span.start
  | .constant declaration => declaration.span.start
  | .global declaration => declaration.span.start
  | .function declaration => declaration.span.start

end Declaration

/-- The text of some declarations, with single blanks between its words. -/
def Declaration.print (declarations : List Declaration) : Text :=
  Text.join " " ((declarations.flatMap Declaration.words).map SyntaxWord.text)

namespace SourceFile

/-- The file with one more declaration after those of its kind. -/
def add (file : SourceFile) : Declaration → SourceFile
  | .struct declaration => { file with structs := file.structs ++ [declaration] }
  | .constant declaration => { file with consts := file.consts ++ [declaration] }
  | .global declaration => { file with globals := file.globals ++ [declaration] }
  | .function declaration => { file with funcs := file.funcs ++ [declaration] }

/-- The file of some declarations. -/
def ofDeclarations (name source : Text) (declarations : List Declaration) : SourceFile :=
  declarations.foldl add ⟨name, source, [], [], [], []⟩

/-- The declarations of a file, one kind after another. -/
def declarations (file : SourceFile) : List Declaration :=
  file.structs.map .struct ++ file.consts.map .constant ++ file.globals.map .global ++
    file.funcs.map .function

end SourceFile

end TinLang
