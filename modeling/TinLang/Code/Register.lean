import TinLang.Text

/-!
# Registers

The register file has twelve slots. Slot zero stands where an instruction has no operand and has
no name of its own; the bytes past the last slot are registers that the machine refuses.
-/
namespace TinLang

/-- The register that an operand byte names. -/
inductive Register where
  /-- The slot that stands for no operand. -/
  | unused
  | a | b | c | d | e | f
  /-- The stack pointer. -/
  | stackPointer
  /-- The base pointer of the current frame. -/
  | basePointer
  /-- The cell of the next instruction. -/
  | counter
  | scratch0 | scratch1
  /-- A byte past the last slot, counted from the first such byte. -/
  | undefined (excess : Fin 244)
  deriving DecidableEq, Repr

namespace Register

/-- The registers with a slot, in slot order. -/
def all : List Register :=
  [.unused, .a, .b, .c, .d, .e, .f, .stackPointer, .basePointer, .counter, .scratch0, .scratch1]

/-- The byte of a register. -/
def code : Register → UInt8
  | .unused => 0
  | .a => 1
  | .b => 2
  | .c => 3
  | .d => 4
  | .e => 5
  | .f => 6
  | .stackPointer => 7
  | .basePointer => 8
  | .counter => 9
  | .scratch0 => 10
  | .scratch1 => 11
  | .undefined excess => (12 + excess.val).toUInt8

/-- The register of a byte. -/
def ofCode (byte : UInt8) : Register :=
  match all[byte.toNat]? with
  | some register => register
  | none => .undefined (Fin.ofNat 244 (byte.toNat - 12))

/-- The slot of a register, if it has one. -/
def slot? : Register → Option (Fin 12)
  | .unused => some 0
  | .a => some 1
  | .b => some 2
  | .c => some 3
  | .d => some 4
  | .e => some 5
  | .f => some 6
  | .stackPointer => some 7
  | .basePointer => some 8
  | .counter => some 9
  | .scratch0 => some 10
  | .scratch1 => some 11
  | .undefined _ => none

/-- The name of a register. -/
def name : Register → Text
  | .unused => "invalid"
  | .a => "a"
  | .b => "b"
  | .c => "c"
  | .d => "d"
  | .e => "e"
  | .f => "f"
  | .stackPointer => "sp"
  | .basePointer => "bp"
  | .counter => "pc"
  | .scratch0 => "t0"
  | .scratch1 => "t1"
  | .undefined excess => "r" ++ Text.ofNat (12 + excess.val)

/-- The registers that programs may name. -/
def named : List Register := all.tail

/-- The register with a name. -/
def ofName? (text : Text) : Option Register := named.find? fun register => register.name == text

/-- A register is read back from its byte. -/
@[simp] theorem ofCode_code (register : Register) : ofCode register.code = register := by
  cases register with
  | undefined excess => revert excess; decide +kernel
  | _ => rfl

/-- A byte is written back by its register. -/
@[simp] theorem code_ofCode (byte : UInt8) : (ofCode byte).code = byte := by
  have all : ∀ index : Fin 256, (ofCode (UInt8.ofFin index)).code = UInt8.ofFin index := by
    decide +kernel
  simpa using all byte.toFin

/-- A nameable register is found by its name. -/
theorem ofName?_name {register : Register} (nameable : register ∈ named) :
    ofName? register.name = some register := by
  revert register
  decide

end Register

end TinLang
