import TinLang.Text.Glyph
import TinLang.Toml.Value

/-!
# Records from tables

A record takes the entries of a table that have the names of its fields, whatever their case, and
passes over all others. A value of the wrong type makes the table unfit.
-/
namespace TinLang.Toml

/-- A field of a record, and how a value is entered into it. -/
structure Field (Record : Type) where
  /-- The name of the entry, in small letters. -/
  name : Text
  /-- Enter a value; none when it has the wrong type. -/
  enter : Value → Record → Option Record

/-- The small form of a character that equals an ASCII letter but for its case; other characters
are kept. The long s and the Kelvin sign are such characters. -/
def smallForm (code : Nat) : Nat :=
  if 65 ≤ code ∧ code ≤ 90 then code + 32
  else if code = 0x17F then 115
  else if code = 0x212A then 107
  else code

/-- Two names are equal but for their case; the first is in small ASCII letters. -/
def sameName (name key : Text) : Bool :=
  name.map UInt8.toNat == key.glyphs.map fun glyph => smallForm glyph.code

/-- Enter the entries of a table into a record. -/
def Table.decode? {Record : Type} (fields : List (Field Record)) (table : Table) (record : Record) :
    Option Record :=
  table.foldlM (fun record (key, value) =>
    match fields.find? fun field => sameName field.name key with
    | some field => field.enter value record
    | none => some record) record

namespace Value

/-- The content of a string. -/
def string? : Value → Option Text
  | .string text => some text
  | _ => none

/-- The value of an integer. -/
def integer? : Value → Option Int
  | .integer number => some number
  | _ => none

/-- The value of a truth value. -/
def boolean? : Value → Option Bool
  | .boolean value => some value
  | _ => none

/-- The contents of an array of strings. -/
def strings? : Value → Option (List Text)
  | .array elements => elements.mapM string?
  | _ => none

/-- The entries of a table. -/
def table? : Value → Option Table
  | .table entries => some entries
  | _ => none

end Value

end TinLang.Toml
