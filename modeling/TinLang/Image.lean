import TinLang.Program.Basic
import TinLang.Sha256
import TinLang.Text.Quoted

/-!
# Images

An image is a linked program as a byte sequence. The outer record holds a mark, a version, the
digest of the body and the body; the body holds the pieces, the data segment and the interned
strings. How the two records are written as bytes is left to a codec. Decoding checks the digest,
the code of every piece, the line tables and that every call has a target.
-/
namespace TinLang

/-- Why bytes are not the image of a program. -/
inductive ImageError where
  | malformedFile
  | malformedBody
  | mark (found : Text)
  | version (found : Nat)
  | digest
  | code (piece : Text) (cause : CodeError)
  | lineIndex (piece : Text) (index : Int)
  | unresolvedCall (piece : Text) (cell : Nat)
  | unknownNative (piece : Text) (id : Int) (cell : Nat)
  | missingPiece (piece : Text) (index : Int) (cell : Nat)
  deriving DecidableEq, Repr

namespace ImageError

/-- The message of an image error. -/
def message : ImageError → Text
  | malformedFile => "vm: unmarshal image"
  | malformedBody => "vm: unmarshal image body"
  | mark found => "vm: not a tin image (magic " ++ found.quoted ++ ")"
  | version found => "vm: unsupported image version " ++ Text.ofNat found ++ " (want 1)"
  | digest => "vm: image hash mismatch"
  | code piece cause => "vm: piece " ++ piece ++ ": " ++ cause.message
  | lineIndex piece index => "vm: piece " ++ piece ++ ": bad line index " ++ Text.ofInt index
  | unresolvedCall piece cell => "vm: " ++ piece ++ ": unresolved call at " ++ Text.ofNat cell
  | unknownNative piece id cell =>
    "vm: " ++ piece ++ ": unknown native " ++ Text.ofInt id ++ " at " ++ Text.ofNat cell
  | missingPiece piece index cell =>
    "vm: " ++ piece ++ ": call to missing piece " ++ Text.ofInt index ++ " at " ++ Text.ofNat cell

/-- The bytes are not even a record of the right form. -/
def isMalformed : ImageError → Bool
  | malformedFile => true
  | malformedBody => true
  | _ => false

end ImageError

namespace Image

/-- The mark at the front of every image. -/
def mark : Text := "TINI"

/-- The version of the encoding. -/
def version : Nat := 1

/-- The parts of the outer record. -/
structure File where
  /-- The mark. -/
  mark : Text
  /-- The version. -/
  version : Nat
  /-- The digest of the body. -/
  digest : Text
  /-- The body. -/
  body : Text
  deriving DecidableEq, Repr

/-- A piece as it is stored. -/
structure StoredPiece where
  /-- The name. -/
  name : Text
  /-- The encoded cells. -/
  code : Text
  /-- The source lines. -/
  lines : List SourceLine
  /-- For each cell the index of its line, or -1. -/
  lineOf : List Int
  deriving DecidableEq, Repr

/-- The parts of the body. -/
structure Body where
  /-- The pieces in order. -/
  pieces : List StoredPiece
  /-- The data segment. -/
  segment : Option Text
  /-- The interned strings, in no order. -/
  strings : List InternedString
  deriving DecidableEq, Repr

/-- How the records of images are written as bytes and read back. -/
structure Codec where
  /-- The bytes of an outer record. -/
  writeFile : File → Text
  /-- The outer record that bytes hold. -/
  readFile? : Text → Option File
  /-- The bytes of a body. -/
  writeBody : Body → Text
  /-- The body that bytes hold. -/
  readBody? : Text → Option Body

/-- The line table of a piece is stored. -/
def kept (stripLines : Bool) (piece : Piece) : Bool := !stripLines && !piece.lines.isEmpty

/-- A piece as it is stored, with or without its line table. -/
def storedPiece (stripLines : Bool) (piece : Piece) : StoredPiece where
  name := piece.name
  code := piece.code.encode
  lines := if kept stripLines piece then piece.lines.toList else []
  lineOf := if kept stripLines piece then
      piece.lineOf.toList.map fun index? => index?.elim (-1) fun index => (index : Int)
    else []

/-- A program as it is stored. -/
def storedBody (stripLines : Bool) (program : Program) : Body where
  pieces := program.pieces.toList.map (storedPiece stripLines)
  segment := program.segment.map Array.toList
  strings := program.interned

/-- The outer record around the bytes of a body. -/
def fileOf (body : Text) : File := ⟨mark, version, Sha256.hash body, body⟩

/-- The image of a linked program; an unlinked program has none. -/
def encode? (codec : Codec) (stripLines : Bool) (program : Program) : Option Text :=
  if program.linked then
    some (codec.writeFile (fileOf (codec.writeBody (storedBody stripLines program))))
  else none

/-- The index of a line, where -1 stands for none. -/
def lineIndex (index : Int) : Option Nat := if index = -1 then none else some index.toNat

/-- The piece of a stored one. A line table of another length than the code is dropped. -/
def StoredPiece.restore (stored : StoredPiece) : Except ImageError Piece :=
  match Code.decode stored.code with
  | .error cause => .error (.code stored.name cause)
  | .ok code =>
    if stored.lineOf.length = code.size then
      match stored.lineOf.find? fun index =>
          decide (index < -1 ∨ (stored.lines.length : Int) ≤ index) with
      | some index => .error (.lineIndex stored.name index)
      | none => .ok
          { name := stored.name
            code := code
            lines := stored.lines.toArray
            lineOf := (stored.lineOf.map lineIndex).toArray }
    else .ok { name := stored.name, code := code, lineOf := Array.replicate code.size none }

/-- Why the call immediate after a cell names no target, if it names none. -/
def callError? (pieces : Nat) (piece : Piece) (cell : Nat) : Option ImageError :=
  match piece.code.instruction? cell, piece.code.immediate? (cell + 1) with
  | some instruction, immediate? =>
    if instruction.op = .call then
      let id := (immediate?.getD 0).toInt
      if id = 0 then some (.unresolvedCall piece.name cell)
      else if id < 0 then
        if (Native.ofId? id).isNone then some (.unknownNative piece.name id cell) else none
      else if (pieces : Int) < id then some (.missingPiece piece.name (id - 1) cell)
      else none
    else none
  | none, _ => none

/-- Why some call of a program names no target. -/
def linkError? (program : Program) : Option ImageError :=
  program.pieces.toList.findSome? fun piece =>
    (List.range piece.size).findSome? (callError? program.pieces.size piece)

/-- The program of a body. -/
def Body.restore (body : Body) : Except ImageError Program := do
  let pieces ← body.pieces.mapM StoredPiece.restore
  let program : Program :=
    { pieces := pieces.toArray
      segment := body.segment.map List.toArray
      interned := body.strings
      linked := true }
  match linkError? program with
  | some error => .error error
  | none => .ok program

/-- The program of an image. -/
def decode (codec : Codec) (bytes : Text) : Except ImageError Program :=
  match codec.readFile? bytes with
  | none => .error .malformedFile
  | some file =>
    if file.mark ≠ mark then .error (.mark file.mark)
    else if file.version ≠ version then .error (.version file.version)
    else if Sha256.hash file.body ≠ file.digest then .error .digest
    else match codec.readBody? file.body with
      | none => .error .malformedBody
      | some body => body.restore

end Image

end TinLang
