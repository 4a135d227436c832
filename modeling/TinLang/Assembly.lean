import TinLang.Numeral
import TinLang.Program.Basic
import TinLang.Text.Lines
import TinLang.Text.Quoted

/-!
# Assembly

Assembling reads a listing back into a new piece. Blank lines, comments and the header with the
name are skipped; every other line is the cell it starts at, a mnemonic and operands. Call targets
are natives or pieces of the program by name. The first error ends the reading and leaves the
cells read before it.
-/
namespace TinLang

/-- Why a line of assembly cannot be read. -/
inductive AssemblyError where
  | missingAddress
  | wrongAddress (found : Text) (expected : Nat)
  | unknownMnemonic (text : Text)
  | missingOperand (index : Nat)
  | unknownRegister (text : Text)
  | unknownSize (text : Text)
  | unknownConversion (text : Text)
  | unknownControl (text : Text)
  | badInteger (text : Text)
  | expectedTarget (text : Text)
  | expectedData (text : Text)
  | unknownCallTarget (text : Text)
  deriving DecidableEq, Repr

/-- The message of an assembly error. -/
def AssemblyError.message : AssemblyError → Text
  | .missingAddress => "missing address"
  | .wrongAddress found expected =>
    "address " ++ found.quoted ++ ", expected " ++ Text.ofNat expected
  | .unknownMnemonic text => "unknown mnemonic " ++ text.quoted
  | .missingOperand index => "missing operand " ++ Text.ofNat index
  | .unknownRegister text => "unknown register " ++ text.quoted
  | .unknownSize text => "unknown size " ++ text.quoted
  | .unknownConversion text => "unknown cast " ++ text.quoted
  | .unknownControl text => "unknown control flag " ++ text.quoted
  | .badInteger text => "bad integer " ++ text.quoted
  | .expectedTarget text => "expected jump target, got " ++ text.quoted
  | .expectedData text => "expected data+offset, got " ++ text.quoted
  | .unknownCallTarget text => "unknown call target " ++ text.quoted

/-- Why a listing cannot be assembled. -/
inductive AssemblyFailure where
  /-- An error in a line, counted from one. -/
  | line (number : Nat) (error : AssemblyError)
  | tooLong (error : LineTooLong)
  deriving DecidableEq, Repr

/-- The message of a failed assembly. -/
def AssemblyFailure.message : AssemblyFailure → Text
  | .line number error => "line " ++ Text.ofNat number ++ ": " ++ error.message
  | .tooLong error => error.message

namespace Assembly

/-- An operand by its place. -/
def operand (operands : List Text) (index : Nat) : Except AssemblyError Text :=
  match operands[index]? with
  | some text => .ok text
  | none => .error (.missingOperand index)

/-- A register operand. -/
def register (operands : List Text) (index : Nat) : Except AssemblyError Register := do
  let text ← operand operands index
  match Register.ofName? text with
  | some register => .ok register
  | none => .error (.unknownRegister text)

/-- An access size operand, as a modifier. -/
def size (operands : List Text) (index : Nat) : Except AssemblyError UInt8 := do
  let text ← operand operands index
  match AccessSize.ofKeyword? text with
  | some size => .ok size.bytes.toUInt8
  | none => .error (.unknownSize text)

/-- A 32-bit integer in decimal. -/
def integer (text : Text) : Except AssemblyError (BitVec 32) :=
  match Numeral.signedWithin? 32 text with
  | some value => .ok (BitVec.ofInt 32 value)
  | none => .error (.badInteger text)

/-- An integer operand. -/
def immediate (operands : List Text) (index : Nat) : Except AssemblyError (BitVec 32) := do
  integer (← operand operands index)

/-- A jump target operand: a cell and a colon. -/
def destination (operands : List Text) (index : Nat) : Except AssemblyError (BitVec 32) := do
  let text ← operand operands index
  match Text.dropTrailing? ":" text with
  | some cell => integer cell
  | none => .error (.expectedTarget text)

/-- A data address operand. -/
def dataOffset (operands : List Text) (index : Nat) : Except AssemblyError (BitVec 32) := do
  let text ← operand operands index
  match Text.dropLeading? "data+" text with
  | some offset => integer offset
  | none => .error (.expectedData text)

/-- A conversion operand, as a modifier. -/
def conversion (operands : List Text) (index : Nat) : Except AssemblyError UInt8 := do
  let text ← operand operands index
  if text = "float_to_int" then .ok Conversion.singleToInt.code
  else if text = "int_to_float" then .ok Conversion.intToSingle.code
  else .error (.unknownConversion text)

/-- A control operand, as a modifier; integer control when there is none. -/
def control (operands : List Text) (index : Nat) : Except AssemblyError UInt8 :=
  match operands[index]? with
  | none => .ok Control.word.code
  | some text =>
    if text = "float" then .ok Control.single.code
    else if text = "byte" then .ok Control.byte.code
    else .error (.unknownControl text)

/-- A call target operand: a native or a piece of the program. -/
def callTarget (program : Program) (operands : List Text) (index : Nat) :
    Except AssemblyError (BitVec 32) := do
  let name ← operand operands index
  match Native.ofName? name, program.lookup? name with
  | some native, _ => .ok (BitVec.ofInt 32 native.id)
  | none, some piece => .ok (BitVec.ofNat 32 (piece + 1))
  | none, none => .error (.unknownCallTarget name)

/-- The cells of an instruction at a cell: itself, and its immediate if it has one. -/
def cells (program : Program) (cell : Nat) (op : Opcode) (operands : List Text) :
    Except AssemblyError (List Cell) := do
  let after : BitVec 32 := BitVec.ofNat 32 (cell + 1)
  match op with
  | .halt | .nop | .giveBack | .undefined _ => return [.instruction { op }]
  | .push | .pop => return [.instruction { op, first := ← register operands 0 }]
  | .cast =>
    let first ← register operands 0
    return [.instruction { op, first, modifier := ← conversion operands 1 }]
  | .move | .not | .memzero =>
    let first ← register operands 0
    return [.instruction { op, first, second := ← register operands 1 }]
  | .store | .load =>
    let first ← register operands 0
    let second ← register operands 1
    return [.instruction { op, first, second, modifier := ← size operands 2 }]
  | .loadImmediate | .increase =>
    let first ← register operands 0
    return [.instruction { op, first }, .immediate (← immediate operands 1)]
  | .jump => return [.instruction { op }, .immediate ((← destination operands 0) - after)]
  | .jumpZero =>
    let first ← register operands 0
    return [.instruction { op, first }, .immediate ((← destination operands 1) - after)]
  | .call => return [.instruction { op }, .immediate (← callTarget program operands 0)]
  | .storeAt | .loadAt =>
    let first ← register operands 0
    let second ← register operands 1
    let modifier ← size operands 2
    return [.instruction { op, first, second, modifier }, .immediate (← immediate operands 3)]
  | .dataPointer =>
    let first ← register operands 0
    return [.instruction { op, first }, .immediate (← dataOffset operands 1)]
  | .add | .sub | .mul | .div | .and | .or | .equal | .notEqual | .less | .greater | .lessEqual
  | .greaterEqual =>
    let first ← register operands 0
    let second ← register operands 1
    return [.instruction { op, first, second, modifier := ← control operands 2 }]

/-- The cells of a line after its address. -/
def instruction (program : Program) (cell : Nat) (text : Text) :
    Except AssemblyError (List Cell) := do
  let (mnemonic, rest) := (text.cut (Text.byte ' ')).getD (text, [])
  match Opcode.ofName? mnemonic with
  | none => .error (.unknownMnemonic mnemonic)
  | some op =>
    let shown := Text.trim rest
    let operands := if shown.isEmpty then []
      else Text.splitAtPair (Text.byte ',') (Text.byte ' ') shown
    cells program cell op operands

/-- The cells of a line, which has to start with the next cell. -/
def line (program : Program) (cell : Nat) (text : Text) : Except AssemblyError (List Cell) := do
  let trimmed := text.trim
  if trimmed.isEmpty ∨ trimmed.head? = some (Text.byte ';') then return []
  match trimmed.cut (Text.byte ':') with
  | none => .error .missingAddress
  | some (address, rest) =>
    if rest.isEmpty then return []
    if Numeral.signedWithin? 64 (Text.trim address) = some (cell : Int) then
      instruction program cell (Text.trim rest)
    else .error (.wrongAddress address cell)

/-- The piece with the cells of some lines, the first of which has a number, and the first
error. -/
def extend (program : Program) : (number : Nat) → List Text → Piece →
    Piece × Option AssemblyFailure
  | _, [], piece => (piece, none)
  | number, text :: texts, piece =>
    match line program piece.size text with
    | .ok cells => extend program (number + 1) texts (cells.foldl Piece.push piece)
    | .error error => (piece, some (.line number error))

end Assembly

/-- The program with a new piece assembled from a listing, the index of the piece, and why the
listing was not read to its end, if it was not. -/
def Program.assemble (program : Program) (name listing : Text) :
    Program × Nat × Option AssemblyFailure :=
  let (added, index) := program.addPiece name
  let (lines, long) := listing.lines
  let (piece, failure) := Assembly.extend added 1 lines { name }
  (added.modifyPiece index fun _ => piece, index, failure.or (long.map .tooLong))

end TinLang
