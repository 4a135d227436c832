import TinLang.Semantics.Expression

/-!
# Programs without pointers

A program is direct when nothing in its text makes or follows a pointer: it writes no type of
pointers, no string and no null pointer, takes no address, reads nothing through a pointer or an
index, and calls only its own functions and the natives that work on numbers alone. What it assigns
to are variables and their members, since without pointers there are no other places.
-/
namespace TinLang

/-- The type is no type of pointers. -/
def TypeExpr.isDirect (type : TypeExpr) : Bool := type.pointer == 0

/-- The native works on numbers alone. -/
def Native.isDirect : Native → Bool
  | .printInt | .printFloat | .printChar | .power | .squareRoot => true
  | _ => false

mutual

/-- The expression has nothing to do with pointers. -/
def Expr.isDirect : Expr → Bool
  | .int _ _ | .float _ _ | .character _ _ | .bool _ _ | .name _ _ => true
  | .string _ _ | .null _ | .index _ _ _ => false
  | .call _ callee arguments =>
    ((Native.ofName? callee).map Native.isDirect).getD true && isDirectAll arguments
  | .binary _ _ left right => left.isDirect && right.isDirect
  | .unary _ op operand => (op == .negate || op == .not) && operand.isDirect
  | .step _ _ _ operand => operand.isPlace
  | .assign _ target value => target.isPlace && value.isDirect
  | .member _ object _ => object.isDirect
  | .cast _ type value => type.isDirect && value.isDirect
  | .sizeof _ type => type.isDirect

/-- Some expressions have nothing to do with pointers. -/
def isDirectAll : List Expr → Bool
  | [] => true
  | value :: values => value.isDirect && isDirectAll values

end

/-- The constant is no pointer. -/
def ConstDecl.isDirect (declaration : ConstDecl) : Bool :=
  declaration.value.isDirect && declaration.type.all TypeExpr.isDirect

/-- The statement may follow else. -/
def Stmt.isAlternative : Stmt → Bool
  | .block _ | .branch _ _ _ _ => true
  | _ => false

mutual

/-- The statement has nothing to do with pointers. -/
def Stmt.isDirect : Stmt → Bool
  | .declare _ _ type value => type.isDirect && value.all Expr.isDirect
  | .constant declaration => declaration.isDirect
  | .evaluate _ value => value.isDirect
  | .branch _ condition body otherwise =>
    condition.isDirect && body.isDirect && isDirectOtherwise otherwise
  | .loop _ condition body => condition.isDirect && body.isDirect
  | .leave _ | .again _ => true
  | .result _ value => value.all Expr.isDirect
  | .block body => body.isDirect

/-- What may follow else, a block or another choice, has nothing to do with pointers. -/
def isDirectOtherwise : Option Stmt → Bool
  | none => true
  | some other => other.isAlternative && other.isDirect

/-- The block has nothing to do with pointers. -/
def Block.isDirect : Block → Bool
  | .mk _ body => isDirectStatements body

/-- Some statements have nothing to do with pointers. -/
def isDirectStatements : List Stmt → Bool
  | [] => true
  | first :: rest => first.isDirect && isDirectStatements rest

end

/-- The declarations of the file have nothing to do with pointers. -/
def SourceFile.isDirect (file : SourceFile) : Bool :=
  (file.structs.all fun struct => struct.members.all fun member => member.type.isDirect) &&
  (file.funcs.all fun function => (function.params.all fun param => param.type.isDirect) &&
    function.result.all TypeExpr.isDirect && function.body.isDirect) &&
  (file.globals.all fun global => global.type.isDirect && global.value.all Expr.isDirect) &&
  file.consts.all ConstDecl.isDirect

/-- The type is that of integers. -/
def TypeExpr.isInteger (type : TypeExpr) : Bool := type.name == Text.ofString "int" &&
    type.pointer == 0

/-- The expression is a name. -/
def Expr.isName : Expr → Bool
  | .name _ _ => true
  | _ => false

mutual

/-- The expression computes with integers and truth values, and calls functions or prints integers.
-/
def Expr.isIntegral : Expr → Bool
  | .int _ _ | .bool _ _ | .name _ _ => true
  | .call _ callee arguments =>
    ((Native.ofName? callee).map fun native => native == .printInt).getD true &&
    isIntegralAll arguments
  | .binary _ _ left right => left.isIntegral && right.isIntegral
  | .unary _ op operand => (op == .negate || op == .not) && operand.isIntegral
  | .step _ _ _ operand => operand.isName
  | .assign _ target value => target.isName && value.isIntegral
  | _ => false

/-- Some expressions compute with integers and truth values. -/
def isIntegralAll : List Expr → Bool
  | [] => true
  | value :: values => value.isIntegral && isIntegralAll values

end

/-- The constant is an integer. -/
def ConstDecl.isIntegral (declaration : ConstDecl) : Bool :=
  declaration.value.literalType? == some .int && declaration.type.all TypeExpr.isInteger

mutual

/-- The statement declares only integers and computes with integers and truth values. -/
def Stmt.isIntegral : Stmt → Bool
  | .declare _ _ type value => type.isInteger && value.all Expr.isIntegral
  | .constant declaration => declaration.isIntegral
  | .evaluate _ value => value.isIntegral
  | .branch _ condition body otherwise =>
    condition.isIntegral && body.isIntegral && isIntegralOtherwise otherwise
  | .loop _ condition body => condition.isIntegral && body.isIntegral
  | .leave _ | .again _ => true
  | .result _ value => value.all Expr.isIntegral
  | .block body => body.isIntegral

/-- What may follow else, a block or another choice, computes with integers. -/
def isIntegralOtherwise : Option Stmt → Bool
  | none => true
  | some other => other.isAlternative && other.isIntegral

/-- The block computes with integers. -/
def Block.isIntegral : Block → Bool
  | .mk _ body => isIntegralStatements body

/-- Some statements compute with integers. -/
def isIntegralStatements : List Stmt → Bool
  | [] => true
  | first :: rest => first.isIntegral && isIntegralStatements rest

end

/-- The file declares functions of integers, and integers. -/
def SourceFile.isIntegral (file : SourceFile) : Bool :=
  file.structs.isEmpty &&
  (file.funcs.all fun function => (function.params.all fun param => param.type.isInteger) &&
    function.result.all TypeExpr.isInteger && function.body.isIntegral) &&
  (file.globals.all fun global => global.type.isInteger && global.value.all Expr.isIntegral) &&
  file.consts.all ConstDecl.isIntegral

end TinLang
