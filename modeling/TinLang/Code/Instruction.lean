import TinLang.Code.Opcode
import TinLang.Code.Register

/-!
# Instructions

An instruction is an opcode, two registers and a modifier byte. The modifier is the size of a
memory access, the control flag of an arithmetic operation or the kind of a conversion.
-/
namespace TinLang

/-- A decoded instruction. -/
structure Instruction where
  /-- What it does. -/
  op : Opcode
  /-- The first operand. -/
  first : Register := .unused
  /-- The second operand. -/
  second : Register := .unused
  /-- Access size, control flag or kind of conversion. -/
  modifier : UInt8 := 0
  deriving DecidableEq, Repr

/-- The instruction with all its fields shown. -/
def Instruction.describe (instruction : Instruction) : Text :=
  instruction.op.name ++ " " ++ instruction.first.name ++ ", " ++ instruction.second.name ++ ", " ++
    Text.ofNat instruction.modifier.toNat

/-- How an arithmetic operation reads its operands. -/
inductive Control where
  /-- As 64-bit integers. -/
  | word
  /-- As single-precision numbers in the low 32 bits. -/
  | single
  /-- As signed bytes. -/
  | byte
  deriving DecidableEq, Repr

namespace Control

/-- The modifier byte of a control. -/
def code : Control → UInt8
  | .word => 0
  | .single => 1
  | .byte => 2

/-- The control of a modifier byte. -/
def ofCode? (modifier : UInt8) : Option Control :=
  if modifier = 0 then some .word
  else if modifier = 1 then some .single
  else if modifier = 2 then some .byte
  else none

/-- A control is read back from its byte. -/
@[simp] theorem ofCode?_code (control : Control) : ofCode? control.code = some control := by
  cases control <;> rfl

end Control

/-- A conversion between number formats. -/
inductive Conversion where
  | singleToInt
  | intToSingle
  deriving DecidableEq, Repr

namespace Conversion

/-- The modifier byte of a conversion. -/
def code : Conversion → UInt8
  | .singleToInt => 0
  | .intToSingle => 1

/-- The conversion of a modifier byte. -/
def ofCode? (modifier : UInt8) : Option Conversion :=
  if modifier = 0 then some .singleToInt
  else if modifier = 1 then some .intToSingle
  else none

/-- A conversion is read back from its byte. -/
@[simp] theorem ofCode?_code (conversion : Conversion) :
    ofCode? conversion.code = some conversion := by
  cases conversion <;> rfl

end Conversion

/-- The size of a memory access in bytes. -/
inductive AccessSize where
  | one | two | four | eight
  deriving DecidableEq, Repr

namespace AccessSize

/-- The number of bytes. -/
def bytes : AccessSize → Nat
  | .one => 1
  | .two => 2
  | .four => 4
  | .eight => 8

/-- The access size of a modifier byte. -/
def ofCode? (modifier : UInt8) : Option AccessSize :=
  if modifier = 1 then some .one
  else if modifier = 2 then some .two
  else if modifier = 4 then some .four
  else if modifier = 8 then some .eight
  else none

/-- The word that names the size in listings. -/
def keyword : AccessSize → Text
  | .one => "byte"
  | .two => "word"
  | .four => "dword"
  | .eight => "qword"

/-- The size that a listing names. -/
def ofKeyword? (text : Text) : Option AccessSize :=
  [AccessSize.one, .two, .four, .eight].find? fun size => size.keyword == text

/-- A size is found by its word. -/
@[simp] theorem ofKeyword?_keyword (size : AccessSize) : ofKeyword? size.keyword = some size := by
  cases size <;> decide

/-- The word for any modifier byte that stands for a size. -/
def describe (modifier : UInt8) : Text :=
  match ofCode? modifier with
  | some size => size.keyword
  | none => "size" ++ Text.ofNat modifier.toNat

end AccessSize

end TinLang
