import TinLang.Syntax.Token

/-!
# Syntax trees

The declarations, statements and expressions of the language, each with the stretch of source
it was read from.
-/
namespace TinLang

/-- A written type: a name and the number of stars after it. -/
structure TypeExpr where
  /-- The stretch from the name to the last star. -/
  span : Span
  /-- The name of the base type. -/
  name : Text
  /-- How many stars follow the name. -/
  pointer : Nat
  deriving DecidableEq, Repr

/-- The type as it is written. -/
def TypeExpr.text (type : TypeExpr) : Text :=
  type.name ++ List.replicate type.pointer (Text.byte '*')

/-- An operator between two values. -/
inductive BinaryOp where
  | add | sub | mul | div | and | or
  | equal | notEqual | less | greater | lessEqual | greaterEqual
  deriving DecidableEq, Repr

namespace BinaryOp

/-- The symbol that writes an operator. -/
def symbol : BinaryOp → Symbol
  | .add => .plus
  | .sub => .minus
  | .mul => .star
  | .div => .slash
  | .and => .andAnd
  | .or => .orOr
  | .equal => .equal
  | .notEqual => .notEqual
  | .less => .less
  | .greater => .greater
  | .lessEqual => .lessEqual
  | .greaterEqual => .greaterEqual

/-- The operator that a symbol writes between two values. -/
def ofSymbol? : Symbol → Option BinaryOp
  | .plus => some .add
  | .minus => some .sub
  | .star => some .mul
  | .slash => some .div
  | .andAnd => some .and
  | .orOr => some .or
  | .equal => some .equal
  | .notEqual => some .notEqual
  | .less => some .less
  | .greater => some .greater
  | .lessEqual => some .lessEqual
  | .greaterEqual => some .greaterEqual
  | _ => none

/-- How tightly an operator binds; all operators group to the left. -/
def precedence : BinaryOp → Nat
  | .or => 1
  | .and => 2
  | .equal | .notEqual => 3
  | .less | .greater | .lessEqual | .greaterEqual => 4
  | .add | .sub => 5
  | .mul | .div => 6

/-- An operator is read back from its symbol. -/
@[simp] theorem ofSymbol?_symbol (op : BinaryOp) : ofSymbol? op.symbol = some op := by
  cases op <;> rfl

end BinaryOp

/-- An operator before one value. -/
inductive UnaryOp where
  | negate | not | address | deref
  deriving DecidableEq, Repr

/-- The symbol that writes an operator. -/
def UnaryOp.symbol : UnaryOp → Symbol
  | .negate => .minus
  | .not => .bang
  | .address => .amp
  | .deref => .star

/-- A change of a variable by one. -/
inductive StepOp where
  | increment | decrement
  deriving DecidableEq, Repr

/-- The symbol that writes a step. -/
def StepOp.symbol : StepOp → Symbol
  | .increment => .plusPlus
  | .decrement => .minusMinus

/-- An expression. -/
inductive Expr where
  /-- An integer literal. -/
  | int (span : Span) (value : Nat)
  /-- A floating-point literal, as the bits of its single-precision value. -/
  | float (span : Span) (bits : BitVec 32)
  /-- A string literal; its value is a pointer to its characters. -/
  | string (span : Span) (value : Text)
  /-- A character literal. -/
  | character (span : Span) (value : UInt8)
  /-- A truth value. -/
  | bool (span : Span) (value : Bool)
  /-- The null pointer. -/
  | null (span : Span)
  /-- A variable or constant. -/
  | name (span : Span) (name : Text)
  /-- A call of a function by name. -/
  | call (span : Span) (callee : Text) (arguments : List Expr)
  /-- An operator between two values. -/
  | binary (span : Span) (op : BinaryOp) (left right : Expr)
  /-- An operator before a value. -/
  | unary (span : Span) (op : UnaryOp) (operand : Expr)
  /-- A change of a variable by one; `early` says that the value is taken after it. -/
  | step (span : Span) (op : StepOp) (early : Bool) (operand : Expr)
  /-- A store of a value, which is also the value of the expression. -/
  | assign (span : Span) (target value : Expr)
  /-- A member of a struct, or of the struct that a pointer points to. -/
  | member (span : Span) (object : Expr) (member : Text)
  /-- An element that a pointer points to. -/
  | index (span : Span) (object index : Expr)
  /-- A conversion to a written type. -/
  | cast (span : Span) (type : TypeExpr) (value : Expr)
  /-- The size of a written type. -/
  | sizeof (span : Span) (type : TypeExpr)
  deriving Repr

/-- The stretch of source of an expression. -/
def Expr.span : Expr → Span
  | .int span _ | .float span _ | .string span _ | .character span _ | .bool span _ | .null span
  | .name span _ | .call span _ _ | .binary span _ _ _ | .unary span _ _ | .step span _ _ _
  | .assign span _ _ | .member span _ _ | .index span _ _ | .cast span _ _ | .sizeof span _ => span

/-- A constant: a name, perhaps a type, and a value. -/
structure ConstDecl where
  /-- The stretch from the reserved word to the semicolon. -/
  span : Span
  /-- The name of the constant. -/
  name : Text
  /-- The written type, if any. -/
  type : Option TypeExpr
  /-- The value, which a check requires to be a literal. -/
  value : Expr
  deriving Repr

mutual

/-- A statement. -/
inductive Stmt where
  /-- A local variable. -/
  | declare (span : Span) (name : Text) (type : TypeExpr) (value : Option Expr)
  /-- A local constant. -/
  | constant (declaration : ConstDecl)
  /-- An expression evaluated for its effects. -/
  | evaluate (span : Span) (expr : Expr)
  /-- A choice between a block and perhaps a block or another choice. -/
  | branch (span : Span) (condition : Expr) (body : Block) (otherwise : Option Stmt)
  /-- A block repeated while a condition holds. -/
  | loop (span : Span) (condition : Expr) (body : Block)
  /-- A jump out of the innermost loop. -/
  | leave (span : Span)
  /-- A jump to the condition of the innermost loop. -/
  | again (span : Span)
  /-- A return, perhaps with a value. -/
  | result (span : Span) (value : Option Expr)
  /-- A block in its own scope. -/
  | block (body : Block)

/-- Statements between braces. -/
inductive Block where
  | mk (span : Span) (statements : List Stmt)

end

/-- The stretch between the braces of a block. -/
def Block.span : Block → Span
  | .mk span _ => span

/-- The statements of a block. -/
def Block.statements : Block → List Stmt
  | .mk _ statements => statements

/-- The stretch of source of a statement. -/
def Stmt.span : Stmt → Span
  | .declare span _ _ _ | .evaluate span _ | .branch span _ _ _ | .loop span _ _ | .leave span
  | .again span | .result span _ => span
  | .constant declaration => declaration.span
  | .block body => body.span

/-- A struct member or a function parameter. -/
structure Field where
  /-- The stretch from the name to the end of the type. -/
  span : Span
  /-- The name of the field. -/
  name : Text
  /-- Its written type. -/
  type : TypeExpr
  deriving DecidableEq, Repr

/-- A struct type. -/
structure StructDecl where
  /-- The stretch from the reserved word to the closing brace. -/
  span : Span
  /-- The name of the struct. -/
  name : Text
  /-- Its members in order. -/
  members : List Field
  deriving DecidableEq, Repr

/-- A function. -/
structure FuncDecl where
  /-- The stretch of its header, from the reserved word to the result type. -/
  span : Span
  /-- The name of the function. -/
  name : Text
  /-- Its parameters in order. -/
  params : List Field
  /-- The type of its result, if it returns a value. -/
  result : Option TypeExpr
  /-- Its body. -/
  body : Block

/-- A variable of the whole program. -/
structure GlobalDecl where
  /-- The stretch from the reserved word to the semicolon. -/
  span : Span
  /-- The name of the variable. -/
  name : Text
  /-- Its written type. -/
  type : TypeExpr
  /-- Its initial value, if one is written. -/
  value : Option Expr
  deriving Repr

/-- One source file with the declarations read from it. -/
structure SourceFile where
  /-- The name that diagnostics show. -/
  name : Text
  /-- The whole text. -/
  source : Text
  /-- The structs in order. -/
  structs : List StructDecl
  /-- The functions in order. -/
  funcs : List FuncDecl
  /-- The globals in order. -/
  globals : List GlobalDecl
  /-- The constants in order. -/
  consts : List ConstDecl

/-- The text after a number of line ends; empty when it has fewer. -/
def Text.afterLines : (lines : Nat) → Text → Text
  | 0, text => text
  | _ + 1, [] => []
  | lines + 1, head :: text =>
    if head = byte '\n' then afterLines lines text else afterLines (lines + 1) text

/-- The text of a line, counted from one, without its line end; empty past the last line. Lines
below the first are the first. -/
def Text.line (text : Text) (number : Nat) : Text :=
  trimEnd (byte '\r') ((text.afterLines (number - 1)).takeWhile (· != byte '\n'))

/-- The text of a line of the file. -/
def SourceFile.line (file : SourceFile) (number : Nat) : Text := file.source.line number

end TinLang
