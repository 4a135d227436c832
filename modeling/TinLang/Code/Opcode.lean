import TinLang.Text

/-!
# Opcodes

The operations of the machine. Each is one byte of an instruction; the bytes past the defined
ones are opcodes too, which no listing names and the machine refuses. The opcodes from
`loadImmediate` on are followed by an immediate cell.
-/
namespace TinLang

/-- The first byte of an instruction. -/
inductive Opcode where
  /-- Stop the machine. -/
  | halt
  /-- Do nothing. -/
  | nop
  /-- Convert a register between integer and floating point. -/
  | cast
  /-- Copy a register. -/
  | move
  /-- Store a register at the address in another. -/
  | store
  /-- Load a register from the address in another. -/
  | load
  /-- Push a register on the stack. -/
  | push
  /-- Pop a register from the stack. -/
  | pop
  /-- Add. -/
  | add
  /-- Subtract. -/
  | sub
  /-- Multiply. -/
  | mul
  /-- Divide. -/
  | div
  /-- Both operands are nonzero. -/
  | and
  /-- Some operand is nonzero. -/
  | or
  /-- The operand is zero. -/
  | not
  /-- The operands are equal. -/
  | equal
  /-- The operands differ. -/
  | notEqual
  /-- The first operand is below the second. -/
  | less
  /-- The first operand is above the second. -/
  | greater
  /-- The first operand is not above the second. -/
  | lessEqual
  /-- The first operand is not below the second. -/
  | greaterEqual
  /-- Return from a function. -/
  | giveBack
  /-- Clear a range of memory. -/
  | memzero
  /-- Load an immediate. -/
  | loadImmediate
  /-- Jump by an immediate. -/
  | jump
  /-- Jump by an immediate when a register is zero. -/
  | jumpZero
  /-- Call the function that an immediate names. -/
  | call
  /-- Store at an address and a displacement. -/
  | storeAt
  /-- Load from an address and a displacement. -/
  | loadAt
  /-- Load an address of the data segment. -/
  | dataPointer
  /-- Add an immediate. -/
  | increase
  /-- A byte past the defined opcodes, counted from the first such byte. -/
  | undefined (excess : Fin 225)
  deriving DecidableEq, Repr

namespace Opcode

/-- The defined opcodes in the order of their codes. -/
def all : List Opcode :=
  [.halt, .nop, .cast, .move, .store, .load, .push, .pop, .add, .sub, .mul, .div, .and, .or, .not,
    .equal, .notEqual, .less, .greater, .lessEqual, .greaterEqual, .giveBack, .memzero,
    .loadImmediate, .jump, .jumpZero, .call, .storeAt, .loadAt, .dataPointer, .increase]

/-- The byte of an opcode. -/
def code : Opcode → UInt8
  | .halt => 0
  | .nop => 1
  | .cast => 2
  | .move => 3
  | .store => 4
  | .load => 5
  | .push => 6
  | .pop => 7
  | .add => 8
  | .sub => 9
  | .mul => 10
  | .div => 11
  | .and => 12
  | .or => 13
  | .not => 14
  | .equal => 15
  | .notEqual => 16
  | .less => 17
  | .greater => 18
  | .lessEqual => 19
  | .greaterEqual => 20
  | .giveBack => 21
  | .memzero => 22
  | .loadImmediate => 23
  | .jump => 24
  | .jumpZero => 25
  | .call => 26
  | .storeAt => 27
  | .loadAt => 28
  | .dataPointer => 29
  | .increase => 30
  | .undefined excess => (31 + excess.val).toUInt8

/-- The opcode of a byte. -/
def ofCode (byte : UInt8) : Opcode :=
  match all[byte.toNat]? with
  | some op => op
  | none => .undefined (Fin.ofNat 225 (byte.toNat - 31))

/-- The mnemonic of an opcode. -/
def name : Opcode → Text
  | .halt => "halt"
  | .nop => "nop"
  | .cast => "cast"
  | .move => "mov_rr"
  | .store => "mov_mr"
  | .load => "mov_rm"
  | .push => "push"
  | .pop => "pop"
  | .add => "add"
  | .sub => "sub"
  | .mul => "mul"
  | .div => "div"
  | .and => "and"
  | .or => "or"
  | .not => "not"
  | .equal => "equal"
  | .notEqual => "not_equal"
  | .less => "less"
  | .greater => "greater"
  | .lessEqual => "less_equal"
  | .greaterEqual => "greater_equal"
  | .giveBack => "ret"
  | .memzero => "memzero"
  | .loadImmediate => "li"
  | .jump => "jmp"
  | .jumpZero => "jz"
  | .call => "call"
  | .storeAt => "mov_mr_disp"
  | .loadAt => "mov_rm_disp"
  | .dataPointer => "dataptr"
  | .increase => "incr"
  | .undefined excess => "op(" ++ Text.ofNat (31 + excess.val) ++ ")"

/-- The opcode is defined. -/
def isDefined : Opcode → Bool
  | .undefined _ => false
  | _ => true

/-- The instruction is followed by an immediate cell. -/
def hasImmediate : Opcode → Bool
  | .loadImmediate | .jump | .jumpZero | .call | .storeAt | .loadAt | .dataPointer | .increase =>
    true
  | _ => false

/-- The operation combines two registers as its control flag says. -/
def isBinary : Opcode → Bool
  | .add | .sub | .mul | .div | .and | .or | .equal | .notEqual | .less | .greater | .lessEqual
  | .greaterEqual => true
  | _ => false

/-- The defined opcode with a mnemonic. -/
def ofName? (text : Text) : Option Opcode := all.find? fun op => op.name == text

/-- An opcode is read back from its byte. -/
@[simp] theorem ofCode_code (op : Opcode) : ofCode op.code = op := by
  cases op with
  | undefined excess => revert excess; decide +kernel
  | _ => rfl

/-- A byte is written back by its opcode. -/
@[simp] theorem code_ofCode (byte : UInt8) : (ofCode byte).code = byte := by
  have all : ∀ index : Fin 256, (ofCode (UInt8.ofFin index)).code = UInt8.ofFin index := by
    decide +kernel
  simpa using all byte.toFin

/-- A defined opcode is found by its mnemonic. -/
theorem ofName?_name {op : Opcode} (defined : op.isDefined) : ofName? op.name = some op := by
  cases op with
  | undefined excess => simp [isDefined] at defined
  | _ => decide

end Opcode

end TinLang
