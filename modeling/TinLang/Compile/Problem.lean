import TinLang.Diagnostic
import TinLang.Syntax.Tree
import TinLang.Types.Basic

/-!
# Problems of a program

What is wrong with a program that can be read: its declarations do not fit together, or the types
of an expression do not. A problem names its cause and the place of the node that has it.
-/
namespace TinLang

/-- What a value is used for. -/
inductive Use where
  | globalValue (name : Text)
  | variableValue (name : Text)
  | returnValue
  | assignment
  | argument (callee : Text)
  deriving DecidableEq, Repr

/-- The words for a use. -/
def Use.text : Use → Text
  | .globalValue name => "global " ++ name
  | .variableValue name => "variable " ++ name
  | .returnValue => "return value"
  | .assignment => "assignment"
  | .argument callee => "argument to " ++ callee

/-- What is wrong. -/
inductive ProblemCause where
  | redefinesBuiltin (name : Text)
  | structDeclared (name : Text)
  | containsItself (name : Text)
  | duplicateMember (member struct : Text)
  | unknownType (type : TypeExpr)
  | voidMember (name : Text)
  | redefinesNative (name : Text)
  | functionDeclared (name : Text)
  | voidParameter (name : Text)
  | mainParameters
  | mainResult (type : ValueType)
  | notLiteral (name : Text)
  | constantType (value type : ValueType)
  | voidGlobal (name : Text)
  | alreadyDeclared (name : Text)
  | missingReturn (name : Text)
  | declaredInScope (name : Text)
  /-- The code of a statement moves the stack pointer by more than its locals. -/
  | unbalanced (depth expected : Int)
  /-- The code before a return does not give back the whole frame. -/
  | unbalancedReturn (depth : Int)
  | voidVariable (name : Text)
  | conditionType (type : ValueType)
  | leaveOutside
  | againOutside
  | returnsValue (name : Text) (type : ValueType)
  | returnsNothing (name : Text)
  | mismatch (value place : ValueType) (use : Use)
  | undefinedName (name : Text)
  | constantAddress (name : Text)
  | notAddressable
  | temporaryMember (type : ValueType)
  | noMembers (type : ValueType)
  | noMember (type : ValueType) (name : Text)
  | notIndexable (type : ValueType)
  | indexType (type : ValueType)
  | notDereferenceable (type : ValueType)
  | mainCalled
  | undefinedFunction (name : Text)
  | argumentCount (name : Text) (wanted given : Nat)
  | operands (left right : ValueType) (op : BinaryOp)
  | notNegatable (type : ValueType)
  | notInvertible (type : ValueType)
  | stepOperand (type : ValueType) (op : StepOp)
  | noConversion (value type : ValueType)
  deriving DecidableEq, Repr

namespace ProblemCause

/-- The message of a cause. -/
def message : ProblemCause → Text
  | redefinesBuiltin name => "cannot redefine built-in type " ++ name
  | structDeclared name => "struct " ++ name ++ " is already declared"
  | containsItself name => "struct " ++ name ++ " contains itself"
  | duplicateMember member struct => "duplicate member " ++ member ++ " in struct " ++ struct
  | unknownType type => "unknown type " ++ type.text
  | voidMember name => "member " ++ name ++ " cannot have type void"
  | redefinesNative name => "function " ++ name ++ " redefines a native"
  | functionDeclared name => "function " ++ name ++ " is already declared"
  | voidParameter name => "parameter " ++ name ++ " cannot have type void"
  | mainParameters => "main cannot take parameters"
  | mainResult type => "main must return int or nothing, not " ++ type.text
  | notLiteral name => "constant " ++ name ++ " must be a literal"
  | constantType value type =>
    "cannot use " ++ value.text ++ " value as constant of type " ++ type.text
  | voidGlobal name => "global " ++ name ++ " cannot have type void"
  | alreadyDeclared name => name ++ " is already declared"
  | missingReturn name => "missing return at end of " ++ name
  | declaredInScope name => name ++ " is already declared in this scope"
  | unbalanced depth expected =>
    "internal error: stack depth " ++ Text.ofInt depth ++ " after statement, expected " ++
      Text.ofInt expected
  | unbalancedReturn depth => "internal error: stack depth " ++ Text.ofInt depth ++ " at return"
  | voidVariable name => "variable " ++ name ++ " cannot have type void"
  | conditionType type => "condition must be a scalar, not " ++ type.text
  | leaveOutside => "break outside a loop"
  | againOutside => "continue outside a loop"
  | returnsValue name type => name ++ " must return a " ++ type.text ++ " value"
  | returnsNothing name => name ++ " does not return a value"
  | mismatch value place use =>
    "cannot use " ++ value.text ++ " as " ++ place.text ++ " in " ++ use.text
  | undefinedName name => "undefined: " ++ name
  | constantAddress name => "cannot take the address of constant " ++ name
  | notAddressable => "expression is not addressable"
  | temporaryMember type => "cannot take the address of a member of a temporary " ++ type.text
  | noMembers type => type.text ++ " has no members"
  | noMember type name => type.text ++ " has no member " ++ name
  | notIndexable type => "cannot index " ++ type.text
  | indexType type => "index must be an integer, not " ++ type.text
  | notDereferenceable type => "cannot dereference " ++ type.text
  | mainCalled => "main cannot be called"
  | undefinedFunction name => "undefined function: " ++ name
  | argumentCount name wanted given =>
    name ++ " takes " ++ Text.ofNat wanted ++ " arguments, got " ++ Text.ofNat given
  | operands left right op =>
    "invalid operands " ++ left.text ++ " and " ++ right.text ++ " for " ++ op.symbol.text
  | notNegatable type => "cannot negate " ++ type.text
  | notInvertible type => "invalid operand " ++ type.text ++ " for !"
  | stepOperand type op => "invalid operand " ++ type.text ++ " for " ++ op.symbol.text
  | noConversion value type => "cannot cast " ++ value.text ++ " to " ++ type.text

end ProblemCause

/-- A cause at a place. -/
structure Problem where
  /-- The name of the source file. -/
  file : Text
  /-- The place of the node. -/
  position : Position
  /-- What is wrong there. -/
  cause : ProblemCause
  deriving DecidableEq, Repr

/-- The diagnostic of a problem. -/
def Problem.diagnostic (problem : Problem) : Diagnostic :=
  .located problem.file problem.position problem.cause.message

end TinLang
