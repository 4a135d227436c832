import TinLang.Code.Instruction

/-!
# Code

Code is a sequence of cells. A cell is an instruction or the immediate that belongs to the
instruction before it. Encoded, every cell is four bytes: an instruction is its opcode, registers
and modifier, an immediate is little-endian. Decoding recovers from the opcodes which cells are
immediates.
-/
namespace TinLang

/-- One slot of an instruction stream. -/
inductive Cell where
  | instruction (decoded : Instruction)
  | immediate (value : BitVec 32)
  deriving DecidableEq, Repr

/-- An instruction stream. -/
abbrev Code := Array Cell

/-- The four bytes of a 32-bit word, least significant first. -/
def littleEndian (value : BitVec 32) : Text :=
  [(value.toNat % 256).toUInt8, (value.toNat / 256 % 256).toUInt8,
    (value.toNat / 65536 % 256).toUInt8, (value.toNat / 16777216).toUInt8]

/-- The 32-bit word of four bytes, least significant first. -/
def ofLittleEndian (first second third fourth : UInt8) : BitVec 32 :=
  BitVec.ofNat 32 (first.toNat + 256 * (second.toNat + 256 * (third.toNat + 256 * fourth.toNat)))

/-- The bytes of a cell. -/
def Cell.encode : Cell → Text
  | .instruction decoded =>
    [decoded.op.code, decoded.first.code, decoded.second.code, decoded.modifier]
  | .immediate value => littleEndian value

/-- Why bytes are not an instruction stream. -/
inductive CodeError where
  | length (bytes : Nat)
  | invalidOpcode (cell : Nat) (byte : UInt8)
  | missingImmediate (cell : Nat) (op : Opcode)
  deriving DecidableEq, Repr

/-- The message of a code error. -/
def CodeError.message : CodeError → Text
  | .length bytes => "code length " ++ Text.ofNat bytes ++ " is not a multiple of 4"
  | .invalidOpcode cell byte =>
    "cell " ++ Text.ofNat cell ++ ": invalid opcode " ++ Text.ofNat byte.toNat
  | .missingImmediate cell op =>
    "cell " ++ Text.ofNat cell ++ ": " ++ op.name ++ " is missing its immediate"

namespace Code

/-- The cell at an index, if the index is inside. -/
def cell? (code : Code) (index : Int) : Option Cell :=
  if index < 0 then none else code[index.toNat]?

/-- The instruction at an index, unless the index is outside or holds an immediate. -/
def instruction? (code : Code) (index : Int) : Option Instruction :=
  match code.cell? index with
  | some (.instruction instruction) => some instruction
  | _ => none

/-- The immediate at an index, unless the index is outside or holds an instruction. -/
def immediate? (code : Code) (index : Int) : Option (BitVec 32) :=
  match code.cell? index with
  | some (.immediate value) => some value
  | _ => none

/-- The code with another immediate at an index, if it holds one. -/
def patch? (code : Code) (index : Int) (value : BitVec 32) : Option Code :=
  match code.immediate? index with
  | some _ => some (code.setIfInBounds index.toNat (.immediate value))
  | none => none

/-- The bytes of the code. -/
def encode (code : Code) : Text := code.toList.flatMap Cell.encode

/-- The cells that a whole number of encoded cells holds, after those already read. `pending` is
the opcode that still needs its immediate. -/
def decodeCells : (pending : Option Opcode) → Text → Code → Except CodeError Code
  | none, op :: first :: second :: modifier :: rest, code =>
    let opcode := Opcode.ofCode op
    if opcode.isDefined then
      let instruction : Instruction :=
        ⟨opcode, Register.ofCode first, Register.ofCode second, modifier⟩
      decodeCells (if opcode.hasImmediate then some opcode else none) rest
        (code.push (.instruction instruction))
    else .error (.invalidOpcode code.size op)
  | some _, first :: second :: third :: fourth :: rest, code =>
    decodeCells none rest (code.push (.immediate (ofLittleEndian first second third fourth)))
  | some opcode, _, code => .error (.missingImmediate (code.size - 1) opcode)
  | none, _, code => .ok code

/-- The code that bytes encode. -/
def decode (bytes : Text) : Except CodeError Code :=
  if bytes.length % 4 ≠ 0 then .error (.length bytes.length) else decodeCells none bytes #[]

/-- The code that is put in the place of another by the bytes that encode it. Bytes that encode
none leave the other as it is. -/
def reload (bytes : Text) (receiver : Code) : Except CodeError Unit × Code :=
  match decode bytes with
  | .ok code => (.ok (), code)
  | .error cause => (.error cause, receiver)

end Code

end TinLang
