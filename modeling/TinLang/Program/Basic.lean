import TinLang.Native
import TinLang.Program.Piece

/-!
# Programs

A program holds the pieces of its functions, the targets that calls refer to, and a data segment
with the global variables and the interned strings. Equal strings share one place in the data.
-/
namespace TinLang

/-- The target of a call. Its number is zero until it is known, one more than a piece's index
for a function and negative for a native. -/
structure CallTarget where
  /-- The name of the function or native. -/
  name : Text
  /-- Its number. -/
  id : Int
  deriving DecidableEq, Repr, Inhabited

namespace CallTarget

/-- A function whose piece is not known yet. -/
def unresolved (name : Text) : CallTarget := ⟨name, 0⟩

/-- The native with a number. -/
def native (id : Int) : CallTarget := ⟨Native.describeId id, id⟩

/-- The target bound to the piece at an index; the number is kept in 32 bits. -/
def bind (target : CallTarget) (index : Int) : CallTarget :=
  { target with id := (BitVec.ofInt 32 (index + 1)).toInt }

end CallTarget

/-- A string in the data segment. -/
structure InternedString where
  /-- Where its bytes start. -/
  offset : Int
  /-- Its bytes, without the zero after them. -/
  text : Text
  deriving DecidableEq, Repr, Inhabited

/-- Everything that a build produces. -/
structure Program where
  /-- The pieces; a piece's index is its place here. -/
  pieces : Array Piece := #[]
  /-- The targets that relocations refer to. -/
  targets : Array CallTarget := #[]
  /-- The data segment; none until something is stored. -/
  segment : Option (Array UInt8) := none
  /-- The interned strings in the order they were stored. -/
  interned : List InternedString := []
  /-- All call immediates are filled in. -/
  linked : Bool := false
  deriving Repr

namespace Program

/-- The bytes of the data segment. -/
def data (program : Program) : Array UInt8 := program.segment.getD #[]

/-- The program with one more, empty piece, and its index. -/
def addPiece (program : Program) (name : Text) : Program × Nat :=
  ({ program with pieces := program.pieces.push { name } }, program.pieces.size)

/-- The program with one of its pieces changed. -/
def modifyPiece (program : Program) (index : Nat) (change : Piece → Piece) : Program :=
  { program with pieces := program.pieces.modify index change }

/-- The program with one more call target, and its index. -/
def addTarget (program : Program) (target : CallTarget) : Program × Nat :=
  ({ program with targets := program.targets.push target }, program.targets.size)

/-- The index of the latest piece with a name. -/
def lookup? (program : Program) (name : Text) : Option Nat :=
  (List.range program.pieces.size).reverse.find? fun index =>
    decide (program.pieces[index]?.map Piece.name = some name)

/-- The program with some bytes more in its data segment, zeros past the given ones, and the
offset of the first. -/
def appendData (program : Program) (size : Nat) (initial : Text) : Program × Nat :=
  let bytes : Text := initial.take size ++ List.replicate (size - initial.length) 0
  let segment := if size = 0 then program.segment else some (program.data ++ bytes)
  ({ program with segment }, program.data.size)

/-- The program with a string in its data segment, followed by a zero, and its offset. -/
def intern (program : Program) (text : Text) : Program × Int :=
  match program.interned.find? fun string => string.text == text with
  | some string => (program, string.offset)
  | none =>
    let (stored, offset) := program.appendData (text.length + 1) text
    ({ stored with interned := stored.interned ++ [⟨offset, text⟩] }, offset)

/-- The interned strings in the order of their offsets. -/
def strings (program : Program) : List InternedString :=
  program.interned.mergeSort fun left right => decide (left.offset ≤ right.offset)

/-- How a listing shows the target of a call immediate. -/
def targetName (program : Program) (immediate : Int) : Text :=
  if immediate < 0 then Native.describeId immediate
  else if immediate = 0 then "<unresolved>"
  else match program.pieces[(immediate - 1).toNat]? with
    | some piece => piece.name
    | none => "<unresolved>"

end Program

end TinLang
