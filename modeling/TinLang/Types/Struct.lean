import TinLang.Native
import TinLang.Types.Basic

/-!
# Values in memory

A value in memory is a scalar or a record of parts at offsets; its shape says which. On the
operand stack a value is one word for each scalar. Members of a struct follow one another, each
at the next offset that its alignment admits, and the size of a struct is a multiple of its
alignment.
-/
namespace TinLang

/-- How a value lies in memory. -/
inductive Shape where
  /-- A number or pointer of some bytes; no value when there are none. -/
  | scalar (size : Nat)
  /-- Parts at offsets from the start. -/
  | record (parts : List (Nat × Shape))
  deriving Repr, Inhabited

/-- The place of a scalar. -/
structure Slot where
  /-- Its offset. -/
  offset : Int
  /-- Its bytes. -/
  size : Nat
  deriving DecidableEq, Repr

namespace Shape

mutual

/-- How many scalars a value holds. -/
def leaves : Shape → Nat
  | .scalar size => if size = 0 then 0 else 1
  | .record parts => partLeaves parts

/-- How many scalars some parts hold. -/
def partLeaves : List (Nat × Shape) → Nat
  | [] => 0
  | (_, shape) :: parts => shape.leaves + partLeaves parts

end

mutual

/-- The places of the scalars of a value at an offset, in order. -/
def slots (offset : Int) : Shape → List Slot
  | .scalar size => [⟨offset, size⟩]
  | .record parts => partSlots offset parts

/-- The places of the scalars of some parts. -/
def partSlots (offset : Int) : List (Nat × Shape) → List Slot
  | [] => []
  | (distance, shape) :: parts => shape.slots (offset + distance) ++ partSlots offset parts

end

end Shape

/-- A member of a struct. Offsets and sizes are kept in 64 bits. -/
structure Member where
  /-- Its name. -/
  name : Text
  /-- Its type. -/
  type : ValueType
  /-- Its offset from the start of the struct. -/
  offset : Nat
  /-- How its values lie in memory. -/
  shape : Shape
  deriving Repr, Inhabited

/-- A struct with the offsets of its members. -/
structure StructType where
  /-- Its name. -/
  name : Text
  /-- Its members in order. -/
  members : List Member := []
  /-- Its size in bytes. -/
  size : Nat := 0
  /-- The alignment of its values. -/
  align : Nat := 1
  deriving Repr, Inhabited

namespace StructType

/-- How values of the struct lie in memory. -/
def shape (type : StructType) : Shape :=
  .record (type.members.map fun member => (member.offset, member.shape))

/-- The member of a name. -/
def member? (type : StructType) (name : Text) : Option Member :=
  type.members.find? fun member => member.name == name

/-- The scalars before the member of a name. -/
def leavesBefore (type : StructType) (name : Text) : Nat :=
  ((type.members.takeWhile fun member => member.name != name).map fun member =>
    member.shape.leaves).foldr (· + ·) 0

end StructType

/-- The structs of a program in the order of their declarations. -/
abbrev StructTable := List StructType

namespace StructTable

/-- The struct of a name. -/
def get? (table : StructTable) (name : Text) : Option StructType :=
  table.find? fun type => type.name == name

/-- The struct of a name, empty when there is none. -/
def get (table : StructTable) (name : Text) : StructType := (table.get? name).getD { name }

/-- How many bytes a value of a type takes in memory. -/
def sizeOf (table : StructTable) : ValueType → Nat
  | ⟨_, _ + 1⟩ => 8
  | ⟨.void, 0⟩ => 0
  | ⟨.int, 0⟩ => 4
  | ⟨.float, 0⟩ => 4
  | ⟨.char, 0⟩ => 1
  | ⟨.bool, 0⟩ => 1
  | ⟨.struct name, 0⟩ => (table.get name).size

/-- The alignment of a value of a type. -/
def alignOf (table : StructTable) (type : ValueType) : Nat :=
  match type.structName? with
  | some name => (table.get name).align
  | none => naturalAlignment (table.sizeOf type)

/-- How a value of a type lies in memory. -/
def shapeOf (table : StructTable) (type : ValueType) : Shape :=
  match type.structName? with
  | some name => (table.get name).shape
  | none => .scalar (table.sizeOf type)

/-- How many words a value of a type takes on the operand stack. -/
def leavesOf (table : StructTable) (type : ValueType) : Nat := (table.shapeOf type).leaves

/-- The table with one of its structs changed. -/
def modify (table : StructTable) (name : Text) (change : StructType → StructType) : StructTable :=
  table.map fun type => if type.name = name then change type else type

end StructTable

end TinLang
