import TinLang.Program.Basic
import TinLang.Text.Quoted

/-!
# Listings

A listing shows a piece as text: its name, and for each instruction its cell, mnemonic and
operands. Jumps show the cell they lead to, calls the name of their target. A source line stands
as a comment before the first instruction that came from it. The listing of a program ends with
its strings.
-/
namespace TinLang.Listing

/-- How a listing shows a control flag; the integer control is not shown. -/
def controlText (modifier : UInt8) : List Text :=
  match Control.ofCode? modifier with
  | some .word => []
  | some .single => ["float"]
  | some .byte => ["byte"]
  | none => ["flag" ++ Text.ofNat modifier.toNat]

/-- How a listing shows a kind of conversion. -/
def conversionText (modifier : UInt8) : Text :=
  match Conversion.ofCode? modifier with
  | some .singleToInt => "float_to_int"
  | some .intToSingle => "int_to_float"
  | none => "cast" ++ Text.ofNat modifier.toNat

/-- How a listing shows the target of a call: the name recorded for the linker if there is one,
else what the immediate names in the program, else the immediate itself. -/
def callText (program : Option Program) (targets : Array CallTarget) (piece : Piece) (cell : Nat)
    (immediate : Int) : Text :=
  let recorded := piece.relocations.findSome? fun relocation =>
    if relocation.cell = cell then relocation.target.bind (targets[·]?) else none
  match recorded, program with
  | some target, _ => target.name
  | none, some program => program.targetName immediate
  | none, none => Text.ofInt immediate

/-- The operands that a listing shows for an instruction. -/
def operands (program : Option Program) (targets : Array CallTarget) (piece : Piece) (cell : Nat)
    (instruction : Instruction) : List Text :=
  let immediate := ((piece.code.immediate? (cell + 1)).getD 0).toInt
  let first := instruction.first.name
  let second := instruction.second.name
  let size := AccessSize.describe instruction.modifier
  let destination : Text := Text.ofInt (cell + 1 + immediate) ++ ":"
  match instruction.op with
  | .halt | .nop | .giveBack => []
  | .push | .pop => [first]
  | .cast => [first, conversionText instruction.modifier]
  | .move | .not | .memzero => [first, second]
  | .store | .load => [first, second, size]
  | .loadImmediate | .increase => [first, Text.ofInt immediate]
  | .jump => [destination]
  | .jumpZero => [first, destination]
  | .call => [callText program targets piece (cell + 1) immediate]
  | .storeAt | .loadAt => [first, second, size, Text.ofInt immediate]
  | .dataPointer => [first, "data+" ++ Text.ofInt immediate]
  | .add | .sub | .mul | .div | .and | .or | .equal | .notEqual | .less | .greater | .lessEqual
  | .greaterEqual => [first, second] ++ controlText instruction.modifier
  | .undefined _ => [first, second, Text.ofNat instruction.modifier.toNat]

/-- The line of a cell, its immediate included. -/
def cellText (program : Option Program) (targets : Array CallTarget) (piece : Piece) (cell : Int) :
    Text :=
  let address : Text := Text.padLeft 4 (Text.ofInt cell) ++ ": "
  match piece.code.instruction? cell with
  | none => address ++ "<immediate>"
  | some instruction =>
    match operands program targets piece cell.toNat instruction with
    | [] => address ++ instruction.op.name
    | shown => address ++ instruction.op.name ++ " " ++ Text.join ", " shown

/-- The lines of a piece from a cell on, for a number of cells; `latest` is the line shown last. -/
def lines (program : Option Program) (targets : Array CallTarget) (piece : Piece) :
    (count cell : Nat) → (latest : Option Nat) → Text
  | 0, _, _ => []
  | count + 1, cell, latest =>
    match piece.code.instruction? cell with
    | none => lines program targets piece count (cell + 1) latest
    | some _ =>
      let shown := (piece.lineOf[cell]?).getD none
      let comment : Text :=
        if shown.isNone ∨ shown = latest then []
        else match shown.bind (piece.lines[·]?) with
          | some line => "; " ++ Text.ofInt line.number ++ ": " ++ line.text.trim ++ "\n"
          | none => []
      comment ++ cellText program targets piece cell ++ "\n" ++
        lines program targets piece count (cell + 1) (shown.or latest)

/-- The listing of a piece. -/
def ofPiece (program : Option Program) (targets : Array CallTarget) (piece : Piece) : Text :=
  piece.name ++ ":\n" ++ lines program targets piece piece.size 0 none

/-- The line of an interned string. -/
def stringText (string : InternedString) : Text :=
  ";   [" ++ Text.padLeft 4 (Text.ofInt string.offset) ++ "] " ++ string.text.quoted ++ "\n"

/-- The listing of the strings of a program. -/
def ofStrings (strings : List InternedString) : Text :=
  if strings.isEmpty then [] else "\n; data:\n" ++ strings.flatMap stringText

/-- The listing of a program. -/
def ofProgram (program : Program) : Text :=
  Text.join "\n" (program.pieces.toList.map (ofPiece (some program) program.targets)) ++
    ofStrings program.strings

end TinLang.Listing
