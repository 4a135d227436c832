import TinLang.Compile.Environment
import TinLang.Machine.Natives

/-!
# Values of expressions

What the expressions of a program without pointers mean, told without a machine. A value is a type
and one word for each of its scalars. An expression computes with whole words; a variable keeps of
a word what fits its type, extended by its sign.
-/
namespace TinLang

/-- How an evaluation ends without a value. -/
inductive Stop where
  /-- An integer is divided by zero. -/
  | divided
  /-- The bound on rounds and calls is used up. -/
  | unfinished
  /-- The program makes no sense, which a check of it rules out. -/
  | stuck
  deriving DecidableEq, Repr

/-- A value: its type, and its scalars in order. -/
structure Value where
  /-- The type. -/
  type : ValueType
  /-- The words of its scalars. -/
  words : List Word
  deriving DecidableEq, Repr

namespace Value

/-- The value of nothing. -/
def void : Value := ⟨.void, []⟩

/-- A truth value. -/
def truth (value : Bool) : Value := ⟨.bool, [Arithmetic.ofBool value]⟩

/-- A number in a program keeps its low 32 bits. -/
def literalWord (number : Int) : Word := (BitVec.ofInt 32 number).signExtend 64

/-- The value of a literal that is no pointer, with a minus that belongs to it. -/
def ofLiteral? : Expr → Option Value
  | .int _ value => some ⟨.int, [literalWord value]⟩
  | .float _ bits => some ⟨.float, [literalWord bits.toInt]⟩
  | .character _ value => some ⟨.char, [literalWord (BitVec.ofNat 8 value.toNat).toInt]⟩
  | .bool _ value => some ⟨.bool, [literalWord (if value then 1 else 0)]⟩
  | .unary _ .negate (.int _ value) => some ⟨.int, [literalWord (-(value : Int))]⟩
  | .unary _ .negate (.float _ bits) => some ⟨.float, [literalWord (bits ^^^ 0x80000000).toInt]⟩
  | _ => none

/-- An integer where a floating-point number is wanted is converted. -/
def coerce (value : Value) (wanted : ValueType) : Value :=
  if value.type = .int ∧ wanted = .float then
    ⟨.float, value.words.map (Arithmetic.convert .intToSingle)⟩
  else value

end Value

namespace BinaryOp

/-- An operator between signed numbers of some width, which wrap; none for a division by zero. -/
def integers {width : Nat} (op : BinaryOp) (left right : BitVec width) :
    Option (BitVec width ⊕ Bool) :=
  match op with
  | .add => some (.inl (left + right))
  | .sub => some (.inl (left - right))
  | .mul => some (.inl (left * right))
  | .div => if right = 0 then none else some (.inl (left.sdiv right))
  | .and => some (.inr (left != 0 && right != 0))
  | .or => some (.inr (left != 0 || right != 0))
  | .equal => some (.inr (left == right))
  | .notEqual => some (.inr (left != right))
  | .less => some (.inr (left.slt right))
  | .greater => some (.inr (right.slt left))
  | .lessEqual => some (.inr (left.sle right))
  | .greaterEqual => some (.inr (right.sle left))

/-- An operator between single-precision numbers. -/
def singles (op : BinaryOp) (left right : Float32) : Float32 ⊕ Bool :=
  match op with
  | .add => .inl (left + right)
  | .sub => .inl (left - right)
  | .mul => .inl (left * right)
  | .div => .inl (left / right)
  | .and => .inr (left != 0 && right != 0)
  | .or => .inr (left != 0 || right != 0)
  | .equal => .inr (left == right)
  | .notEqual => .inr (left != right)
  | .less => .inr (decide (left < right))
  | .greater => .inr (decide (right < left))
  | .lessEqual => .inr (decide (left ≤ right))
  | .greaterEqual => .inr (decide (right ≤ left))

end BinaryOp

namespace Value

/-- The single-precision number of a scalar, converted when it is none. -/
def single (type : ValueType) (word : Word) : Float32 :=
  Arithmetic.toSingle (if type = .float then word else Arithmetic.convert .intToSingle word)

/-- Combine two single-precision numbers. -/
def ofSingles (op : BinaryOp) (left right : Float32) : Value :=
  match op.singles left right with
  | .inl number => ⟨.float, [Arithmetic.ofSingle number]⟩
  | .inr value => truth value

/-- Combine two bytes of a type. -/
def ofBytes (op : BinaryOp) (type : ValueType) (left right : BitVec 8) : Except Stop Value :=
  match op.integers left right with
  | some (.inl byte) => .ok ⟨type, [byte.signExtend 64]⟩
  | some (.inr value) => .ok (truth value)
  | none => .error .divided

/-- Combine two whole words. -/
def ofWords (op : BinaryOp) (left right : Word) : Except Stop Value :=
  match op.integers left right with
  | some (.inl word) => .ok ⟨.int, [word]⟩
  | some (.inr value) => .ok (truth value)
  | none => .error .divided

/-- Combine two scalars: as single-precision numbers if one is such a number, as bytes if both are
bytes, else as whole words. -/
def combine (op : BinaryOp) (left right : Value) : Except Stop Value :=
  match left.words, right.words with
  | [first], [second] =>
    if left.type = .float ∨ right.type = .float then
      .ok (ofSingles op (single left.type first) (single right.type second))
    else if left.type.isByte && right.type.isByte then
      ofBytes op left.type (first.setWidth 8) (second.setWidth 8)
    else ofWords op first second
  | _, _ => .error .stuck

/-- The number taken from zero. -/
def negate (value : Value) : Except Stop Value := combine .sub ⟨value.type, [0]⟩ value

/-- Whether the scalar is zero. -/
def invert (value : Value) : Except Stop Value :=
  match value.words with
  | [word] => .ok (truth (word == 0))
  | _ => .error .stuck

/-- Convert a value to a type. Between integers, only a truth value changes its word. -/
def cast (value : Value) (type : ValueType) : Except Stop Value :=
  if value.type = type then .ok value
  else match value.words with
  | [word] =>
    if value.type.isIntegral && type.isIntegral then
      if type = .bool then .ok (truth (word != 0)) else .ok ⟨type, [word]⟩
    else if value.type = .int ∧ type = .float then
      .ok ⟨type, [Arithmetic.convert .intToSingle word]⟩
    else if value.type = .float ∧ type = .int then
      .ok ⟨type, [Arithmetic.convert .singleToInt word]⟩
    else .error .stuck
  | _ => .error .stuck

end Value

/-- What a native that works on numbers alone prints and returns. -/
def Native.effect? : Native → List Word → Option (Text × Option Word)
  | .printInt, [number] => some (Text.ofInt (Machine.signedHalf number), none)
  | .printFloat, [number] => some (Single.fixed 6 (number.setWidth 32), none)
  | .printChar, [character] => some ([(character.toNat % 256).toUInt8], none)
  | .power, [base, exponent] =>
    let power := Arithmetic.power (Arithmetic.toSingle base) (Arithmetic.toSingle exponent)
    some ([], some (Memory.narrow .four (Arithmetic.ofSingle power).toNat))
  | .squareRoot, [number] =>
    let root := Arithmetic.squareRoot (Arithmetic.toSingle number)
    some ([], some (Memory.narrow .four (Arithmetic.ofSingle root).toNat))
  | _, _ => none

/-- What a scalar of some bytes keeps of a word. -/
def narrowTo (size : Nat) (word : Word) : Word :=
  match AccessSize.ofCode? size.toUInt8 with
  | some width => Memory.narrow width word.toNat
  | none => word

namespace StructTable

/-- The sizes of the scalars of a type. -/
def widths (table : StructTable) (type : ValueType) : List Nat :=
  ((table.shapeOf type).slots 0).map Slot.size

/-- What a variable of a type keeps of the words of a value. -/
def narrowed (table : StructTable) (type : ValueType) (words : List Word) : List Word :=
  List.zipWith narrowTo (table.widths type) words

/-- The value that a variable of a type has at first. -/
def zero (table : StructTable) (type : ValueType) : Value :=
  ⟨type, (table.widths type).map fun _ => 0⟩

end StructTable

end TinLang
