import TinLang.Text

/-!
# Types

A type is a base type and a number of pointers to it. Structs are named, and two types are the
same when their base and their pointers are. A pointer to void converts to and from every other
pointer; all other values keep their type.
-/
namespace TinLang

/-- What a type is without its pointers. -/
inductive BaseType where
  | void
  | int
  | float
  | char
  | bool
  /-- A declared struct. -/
  | struct (name : Text)
  deriving DecidableEq, Repr, Inhabited

namespace BaseType

/-- The built-in base types. -/
def builtins : List BaseType := [.void, .int, .float, .char, .bool]

/-- The name of a base type. -/
def name : BaseType → Text
  | .void => "void"
  | .int => "int"
  | .float => "float"
  | .char => "char"
  | .bool => "bool"
  | .struct name => name

/-- The built-in base type of a name. -/
def builtin? (name : Text) : Option BaseType := builtins.find? fun base => base.name == name

end BaseType

/-- The type of a value. -/
structure ValueType where
  /-- What the value is, or what it points to in the end. -/
  base : BaseType
  /-- How many pointers lead to it. -/
  pointer : Nat := 0
  deriving DecidableEq, Repr, Inhabited

namespace ValueType

/-- The type of nothing. -/
def void : ValueType := ⟨.void, 0⟩

/-- The type of 32-bit integers. -/
def int : ValueType := ⟨.int, 0⟩

/-- The type of single-precision numbers. -/
def float : ValueType := ⟨.float, 0⟩

/-- The type of characters. -/
def char : ValueType := ⟨.char, 0⟩

/-- The type of truth values. -/
def bool : ValueType := ⟨.bool, 0⟩

/-- The type of pointers to anything. -/
def voidPointer : ValueType := ⟨.void, 1⟩

/-- The type of strings. -/
def charPointer : ValueType := ⟨.char, 1⟩

/-- The type as it is written. -/
def text (type : ValueType) : Text :=
  type.base.name ++ List.replicate type.pointer (Text.byte '*')

/-- A written or unknown type. -/
def describe? (type : Option ValueType) : Text := (type.map text).getD "<invalid>"

/-- A pointer. -/
def isPointer (type : ValueType) : Bool := decide (0 < type.pointer)

/-- No value at all. -/
def isVoid (type : ValueType) : Bool := decide (type = void)

/-- The name of the struct that values of the type are. -/
def structName? : ValueType → Option Text
  | ⟨.struct name, 0⟩ => some name
  | _ => none

/-- The name of the struct that values of the type point to. -/
def pointedStruct? : ValueType → Option Text
  | ⟨.struct name, 1⟩ => some name
  | _ => none

/-- The type that a pointer points to. -/
def element (type : ValueType) : ValueType := { type with pointer := type.pointer - 1 }

/-- The type of pointers to a type. -/
def pointerTo (type : ValueType) : ValueType := { type with pointer := type.pointer + 1 }

/-- Integers, characters and truth values. -/
def isIntegral (type : ValueType) : Bool := decide (type = int ∨ type = char ∨ type = bool)

/-- Characters and truth values, which are one byte wide. -/
def isByte (type : ValueType) : Bool := decide (type = char ∨ type = bool)

/-- Values that arithmetic and comparison take. -/
def isNumeric (type : ValueType) : Bool := type.isIntegral || decide (type = float)

/-- A value of one type may be stored in a place of another. -/
def accepts (place value : ValueType) : Bool :=
  decide (place = value) ||
    (place.isPointer && value.isPointer && decide (place = voidPointer ∨ value = voidPointer))

/-- The type that a name and stars write, when the name is built in. -/
def ofText? (text : Text) : Option ValueType :=
  let name := text.trimEnd (Text.byte '*')
  (BaseType.builtin? name).map fun base => ⟨base, text.length - name.length⟩

end ValueType

end TinLang
