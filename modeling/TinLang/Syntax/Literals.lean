import TinLang.Syntax.Tree

/-!
# String literals

The string literals of a program in the order of the source: for each file those of the
constants, then those of the global variables, then those of the functions.
-/
namespace TinLang

namespace Expr

mutual

/-- The string literals of an expression. -/
def strings : Expr → List Text
  | .string _ value => [value]
  | .call _ _ arguments => stringsOfAll arguments
  | .binary _ _ left right => left.strings ++ right.strings
  | .unary _ _ operand => operand.strings
  | .step _ _ _ operand => operand.strings
  | .assign _ target value => target.strings ++ value.strings
  | .member _ object _ => object.strings
  | .index _ object place => object.strings ++ place.strings
  | .cast _ _ value => value.strings
  | .int .. | .float .. | .character .. | .bool .. | .null _ | .name .. | .sizeof .. => []

/-- The string literals of some expressions. -/
def stringsOfAll : List Expr → List Text
  | [] => []
  | expr :: exprs => expr.strings ++ stringsOfAll exprs

end

/-- The string literals of an expression that may be missing. -/
def stringsOf? (expr : Option Expr) : List Text := (expr.map strings).getD []

end Expr

mutual

/-- The string literals of a statement. -/
def Stmt.strings : Stmt → List Text
  | .declare _ _ _ value => Expr.stringsOf? value
  | .constant declaration => declaration.value.strings
  | .evaluate _ expr => expr.strings
  | .branch _ condition body otherwise =>
    condition.strings ++ body.strings ++ stringsOfOtherwise otherwise
  | .loop _ condition body => condition.strings ++ body.strings
  | .result _ value => Expr.stringsOf? value
  | .block body => body.strings
  | .leave _ | .again _ => []

/-- The string literals of a statement that may be missing. -/
def stringsOfOtherwise : Option Stmt → List Text
  | none => []
  | some statement => statement.strings

/-- The string literals of a block. -/
def Block.strings : Block → List Text
  | .mk _ statements => stringsOfStatements statements

/-- The string literals of some statements. -/
def stringsOfStatements : List Stmt → List Text
  | [] => []
  | statement :: statements => statement.strings ++ stringsOfStatements statements

end

/-- The string literals of a file. -/
def SourceFile.strings (file : SourceFile) : List Text :=
  file.consts.flatMap (fun declaration => declaration.value.strings) ++
    file.globals.flatMap (fun declaration => Expr.stringsOf? declaration.value) ++
    file.funcs.flatMap (fun declaration => declaration.body.strings)

end TinLang
