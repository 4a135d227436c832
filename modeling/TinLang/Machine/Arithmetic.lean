import TinLang.Machine.Fault
import TinLang.Machine.Memory

/-!
# Arithmetic

The operations on two words. Integers are 64 bits and wrap, bytes are the low eight bits as a
signed number, and single-precision numbers are the low 32 bits. A truth value is one or zero.
Division rounds toward zero and refuses a zero divisor, except between single-precision numbers.
-/
namespace TinLang.Arithmetic

/-- The word of a truth value. -/
def ofBool (value : Bool) : Word := if value then 1 else 0

/-- The single-precision number in the low half of a word. -/
def toSingle (word : Word) : Float32 := Float32.ofBits (UInt32.ofBitVec (word.setWidth 32))

/-- The word whose low half is a single-precision number and whose high half is zero. -/
def ofSingle (number : Float32) : Word := number.toBits.toBitVec.setWidth 64

/-- An operation on signed numbers of some width. -/
def signed {width : Nat} (op : Opcode) (left right : BitVec width) :
    Except FaultCause (BitVec width ⊕ Bool) :=
  match op with
  | .add => .ok (.inl (left + right))
  | .sub => .ok (.inl (left - right))
  | .mul => .ok (.inl (left * right))
  | .div => if right = 0 then .error .division else .ok (.inl (left.sdiv right))
  | .and => .ok (.inr (left != 0 && right != 0))
  | .or => .ok (.inr (left != 0 || right != 0))
  | .equal => .ok (.inr (left == right))
  | .notEqual => .ok (.inr (left != right))
  | .less => .ok (.inr (left.slt right))
  | .greater => .ok (.inr (right.slt left))
  | .lessEqual => .ok (.inr (left.sle right))
  | _ => .ok (.inr (right.sle left))

/-- An operation on single-precision numbers. -/
def single (op : Opcode) (left right : Float32) : Float32 ⊕ Bool :=
  match op with
  | .add => .inl (left + right)
  | .sub => .inl (left - right)
  | .mul => .inl (left * right)
  | .div => .inl (left / right)
  | .and => .inr (left != 0 && right != 0)
  | .or => .inr (left != 0 || right != 0)
  | .equal => .inr (left == right)
  | .notEqual => .inr (left != right)
  | .less => .inr (decide (left < right))
  | .greater => .inr (decide (right < left))
  | .lessEqual => .inr (decide (left ≤ right))
  | _ => .inr (decide (right ≤ left))

/-- An operation on two words as its modifier says. -/
def apply (op : Opcode) (modifier : UInt8) (left right : Word) : Except FaultCause Word :=
  match Control.ofCode? modifier with
  | some .single =>
    match single op (toSingle left) (toSingle right) with
    | .inl number => .ok (ofSingle number)
    | .inr truth => .ok (ofBool truth)
  | some .byte => do
    match ← signed op (left.setWidth 8) (right.setWidth 8) with
    | .inl byte => .ok (byte.signExtend 64)
    | .inr truth => .ok (ofBool truth)
  | some .word => do
    match ← signed op left right with
    | .inl word => .ok word
    | .inr truth => .ok (ofBool truth)
  | none => .error (.undefinedControl modifier)

/-- A conversion of a word between number formats. -/
def convert (conversion : Conversion) (word : Word) : Word :=
  match conversion with
  | .singleToInt => (toSingle word).toInt32.toBitVec.signExtend 64
  | .intToSingle => ofSingle (Int32.ofBitVec (word.setWidth 32)).toFloat32

/-- The first number to the power of the second, found in double precision. -/
def power (base exponent : Float32) : Float32 :=
  (Float.pow base.toFloat exponent.toFloat).toFloat32

/-- The square root of a number. -/
def squareRoot (number : Float32) : Float32 := (Float.sqrt number.toFloat).toFloat32

end TinLang.Arithmetic
