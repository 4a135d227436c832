import TinLang.Syntax.Print

/-!
# Trees without places

A bare tree has the same place for all its nodes. Two trees have the same bare tree when they
differ in their places only.
-/
namespace TinLang

/-- The written type without its place. -/
def TypeExpr.bare (type : TypeExpr) : TypeExpr := { type with span := default }

namespace Expr

mutual

/-- The expression without its places. -/
def bare : Expr → Expr
  | .int _ value => .int default value
  | .float _ bits => .float default bits
  | .string _ value => .string default value
  | .character _ value => .character default value
  | .bool _ value => .bool default value
  | .null _ => .null default
  | .name _ spelling => .name default spelling
  | .call _ callee arguments => .call default callee (bareAll arguments)
  | .binary _ op left right => .binary default op left.bare right.bare
  | .unary _ op operand => .unary default op operand.bare
  | .step _ op early operand => .step default op early operand.bare
  | .assign _ target value => .assign default target.bare value.bare
  | .member _ object field => .member default object.bare field
  | .index _ object place => .index default object.bare place.bare
  | .cast _ type value => .cast default type.bare value.bare
  | .sizeof _ type => .sizeof default type.bare

/-- Some expressions without their places. -/
def bareAll : List Expr → List Expr
  | [] => []
  | expr :: exprs => expr.bare :: bareAll exprs

end

end Expr

/-- The constant without its places. -/
def ConstDecl.bare (declaration : ConstDecl) : ConstDecl :=
  { span := default, name := declaration.name, type := declaration.type.map TypeExpr.bare,
    value := declaration.value.bare }

mutual

/-- The statement without its places. -/
def Stmt.bare : Stmt → Stmt
  | .declare _ name type value => .declare default name type.bare (value.map Expr.bare)
  | .constant declaration => .constant declaration.bare
  | .evaluate _ expr => .evaluate default expr.bare
  | .branch _ condition body otherwise =>
    .branch default condition.bare body.bare (bareOtherwise otherwise)
  | .loop _ condition body => .loop default condition.bare body.bare
  | .leave _ => .leave default
  | .again _ => .again default
  | .result _ value => .result default (value.map Expr.bare)
  | .block body => .block body.bare

/-- The other side of a choice without its places. -/
def bareOtherwise : Option Stmt → Option Stmt
  | none => none
  | some statement => some statement.bare

/-- The block without its places. -/
def Block.bare : Block → Block
  | .mk _ statements => .mk default (bareStatements statements)

/-- Some statements without their places. -/
def bareStatements : List Stmt → List Stmt
  | [] => []
  | statement :: statements => statement.bare :: bareStatements statements

end

/-- The field without its places. -/
def Field.bare (field : Field) : Field :=
  { span := default, name := field.name, type := field.type.bare }

/-- The struct without its places. -/
def StructDecl.bare (declaration : StructDecl) : StructDecl :=
  { span := default, name := declaration.name, members := declaration.members.map Field.bare }

/-- The function without its places. -/
def FuncDecl.bare (declaration : FuncDecl) : FuncDecl where
  span := default
  name := declaration.name
  params := declaration.params.map Field.bare
  result := declaration.result.map TypeExpr.bare
  body := declaration.body.bare

/-- The global variable without its places. -/
def GlobalDecl.bare (declaration : GlobalDecl) : GlobalDecl where
  span := default
  name := declaration.name
  type := declaration.type.bare
  value := declaration.value.map Expr.bare

/-- The file with bare declarations. -/
def SourceFile.bare (file : SourceFile) : SourceFile :=
  { file with
    structs := file.structs.map StructDecl.bare
    funcs := file.funcs.map FuncDecl.bare
    globals := file.globals.map GlobalDecl.bare
    consts := file.consts.map ConstDecl.bare }

/-- The declaration without its places. -/
def Declaration.bare : Declaration → Declaration
  | .struct declaration => .struct declaration.bare
  | .constant declaration => .constant declaration.bare
  | .global declaration => .global declaration.bare
  | .function declaration => .function declaration.bare

end TinLang
