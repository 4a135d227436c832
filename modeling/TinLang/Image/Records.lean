import TinLang.Cbor.Decode
import TinLang.Image

/-!
# Images in binary objects

The records of images as binary object values. Fields are numbered, a list of a piece is left out
when it is empty, and the table of strings is in the canonical order, so a program has one image.
-/
namespace TinLang.Image

open Cbor (Value)

/-- The fields of a record from the first number on, without those left out. -/
def record (fields : List (Nat × Option Value)) : Value :=
  .map (fields.filterMap fun (number, value?) => value?.map fun value => (.unsigned number, value))

/-- A field that is left out when its list is empty. -/
def unlessEmpty (items : List Value) : Option Value :=
  if items.isEmpty then none else some (.array items)

/-- The outer record. -/
def File.value (file : File) : Value :=
  record [(1, some (.bytes file.mark)), (2, some (.unsigned file.version)),
    (3, some (.bytes file.digest)), (4, some (.bytes file.body))]

/-- The record of a source line. -/
def lineValue (line : SourceLine) : Value :=
  record [(1, some (.int line.number)), (2, some (.string line.text))]

/-- The record of a piece. -/
def StoredPiece.value (piece : StoredPiece) : Value :=
  record [(1, some (.string piece.name)), (2, some (.bytes piece.code)),
    (3, unlessEmpty (piece.lines.map lineValue)), (4, unlessEmpty (piece.lineOf.map .int))]

/-- The interned strings in the canonical order of their texts: shorter ones first, those of one
length in the order of their bytes. -/
def canonical (strings : List InternedString) : List InternedString :=
  strings.mergeSort fun left right => decide (left.text.length < right.text.length) ||
    (decide (left.text.length = right.text.length) && !Text.precedes right.text left.text)

/-- The entry of an interned string. -/
def stringEntry (string : InternedString) : Value × Value :=
  (.string string.text, .int string.offset)

/-- The table of the interned strings, left out when it is empty. -/
def stringsValue (strings : List InternedString) : Option Value :=
  if strings.isEmpty then none else some (.map ((canonical strings).map stringEntry))

/-- The record of a program. -/
def Body.value (body : Body) : Value :=
  record [(1, some ((unlessEmpty (body.pieces.map StoredPiece.value)).getD .null)),
    (2, some (body.segment.elim .null .bytes)), (3, stringsValue body.strings)]

/-- The outer record that a value holds. -/
def File.ofValue? (value : Value) : Option File := do
  let fields ← value.toRecord?
  let mark ← (fields.field 1).toFixedBytes? 4
  let version ← (fields.field 2).toInt? 0 0xffffffff
  let digest ← (fields.field 3).toFixedBytes? 32
  let body ← (fields.field 4).toBytes?
  some ⟨mark, version.toNat, digest, body.getD []⟩

/-- The source line that a value holds. -/
def lineOfValue? (value : Value) : Option SourceLine := do
  let fields ← value.toRecord?
  some ⟨← (fields.field 1).toInt64?, ← (fields.field 2).toText?⟩

/-- The stored piece that a value holds. -/
def StoredPiece.ofValue? (value : Value) : Option StoredPiece := do
  let fields ← value.toRecord?
  let name ← (fields.field 1).toText?
  let code ← (fields.field 2).toBytes?
  let lines ← (fields.field 3).toItems? lineOfValue?
  let lineOf ← (fields.field 4).toItems? (Value.toInt? (-0x80000000) 0x7fffffff)
  some ⟨name, code.getD [], lines, lineOf⟩

/-- The body that a value holds. -/
def Body.ofValue? (value : Value) : Option Body := do
  let fields ← value.toRecord?
  let pieces ← (fields.field 1).toItems? StoredPiece.ofValue?
  let segment ← (fields.field 2).toBytes?
  let strings ← (fields.field 3).toTable?
  some ⟨pieces, segment, strings.map fun (text, offset) => ⟨offset, text⟩⟩

/-- Records as binary objects, with arrays and maps of up to some number of items or entries. -/
def Codec.cbor (limit : Nat) : Codec where
  writeFile file := file.value.write
  readFile? bytes := (Cbor.read? limit bytes).bind File.ofValue?
  writeBody body := body.value.write
  readBody? bytes := (Cbor.read? limit bytes).bind Body.ofValue?

end TinLang.Image
