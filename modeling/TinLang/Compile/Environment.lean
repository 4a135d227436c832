import TinLang.Program.Basic
import TinLang.Syntax.Tree
import TinLang.Types.Struct

/-!
# Environments

An environment holds what the declarations of a program mean: its structs, the signatures of its
functions, the places of its global variables and the values of its constants.
-/
namespace TinLang

/-- A parameter of a function. -/
structure Parameter where
  /-- Its name. -/
  name : Text
  /-- Its type, unless the written type is unknown. -/
  type : Option ValueType
  /-- Its offset in the argument block. -/
  offset : Nat
  deriving DecidableEq, Repr

/-- A function with its checked signature. -/
structure Function where
  /-- The declaration. -/
  declaration : FuncDecl
  /-- The file it stands in. -/
  file : SourceFile
  /-- Its parameters in order. -/
  params : List Parameter
  /-- The type of its result. -/
  result : ValueType
  /-- The size of the argument block. -/
  block : Nat

/-- The name of a function. -/
def Function.name (function : Function) : Text := function.declaration.name

/-- A variable in the data segment. -/
structure Global where
  /-- The declaration. -/
  declaration : GlobalDecl
  /-- The file it stands in. -/
  file : SourceFile
  /-- Its type. -/
  type : ValueType
  /-- Its offset in the data segment. -/
  offset : Nat

/-- The name of a global variable. -/
def Global.name (global : Global) : Text := global.declaration.name

/-- A named literal. -/
structure Constant where
  /-- Its name. -/
  name : Text
  /-- Its type. -/
  type : ValueType
  /-- The literal. -/
  value : Expr
  deriving Repr

/-- The meaning of the declarations of a program, each kind in the order of declaration. -/
structure Environment where
  /-- The structs. -/
  structs : StructTable := []
  /-- The functions. -/
  functions : List Function := []
  /-- The global variables. -/
  globals : List Global := []
  /-- The constants. -/
  constants : List Constant := []

namespace Environment

/-- The type that a written type names. -/
def resolve? (environment : Environment) (type : TypeExpr) : Option ValueType :=
  match BaseType.builtin? type.name with
  | some base => some ⟨base, type.pointer⟩
  | none =>
    (environment.structs.get? type.name).map fun struct => ⟨.struct struct.name, type.pointer⟩

/-- The function of a name, with its place among the functions. -/
def function? (environment : Environment) (name : Text) : Option (Nat × Function) :=
  (environment.functions.zipIdx.find? fun (function, _) => function.name == name).map Prod.swap

/-- The global variable of a name. -/
def global? (environment : Environment) (name : Text) : Option Global :=
  environment.globals.find? fun global => global.name == name

/-- The constant of a name. -/
def constant? (environment : Environment) (name : Text) : Option Constant :=
  environment.constants.find? fun constant => constant.name == name

/-- The bytes of a value in memory; none for an unknown type. -/
def sizeOf (environment : Environment) (type : Option ValueType) : Nat :=
  (type.map environment.structs.sizeOf).getD 0

/-- How a value lies in memory; an unknown type has no value. -/
def shapeOf (environment : Environment) (type : Option ValueType) : Shape :=
  (type.map environment.structs.shapeOf).getD (.scalar 0)

/-- The words of a value on the operand stack; none for an unknown type. -/
def leavesOf (environment : Environment) (type : Option ValueType) : Nat :=
  (environment.shapeOf type).leaves

end Environment

/-- The type of a literal; none for every other expression. A minus before a number belongs to
the literal. -/
def Expr.literalType? : Expr → Option ValueType
  | .int _ _ => some .int
  | .float _ _ => some .float
  | .string _ _ => some .charPointer
  | .character _ _ => some .char
  | .bool _ _ => some .bool
  | .null _ => some .voidPointer
  | .unary _ .negate (.int _ _) => some .int
  | .unary _ .negate (.float _ _) => some .float
  | _ => none

end TinLang
