import TinLang.Cbor.Read

/-!
# From binary object values to data

A field of a record is found by its number, and its value must have the form that the field
asks for. A missing field and a null leave the empty value of the field's type. Tags that say
nothing about the form are passed over.
-/
namespace TinLang.Cbor.Value

/-- A value may stand under a tag: dates are text, times are numbers, big numbers are byte
strings. -/
def admissible : (tag : Nat) → Value → Bool
  | 0, .text _ => true
  | 0, _ => false
  | 1, .unsigned _ => true
  | 1, .negative _ => true
  | 1, .float _ _ => true
  | 1, _ => false
  | 2, .bytes _ => true
  | 2, _ => false
  | 3, .bytes _ => true
  | 3, _ => false
  | _, _ => true

/-- The value under its tags; the tags of big numbers stay. None when a tag does not fit. -/
def untagged? : Value → Option Value
  | .tag number content =>
    if admissible number content then
      if number = 2 ∨ number = 3 then some (.tag number content) else content.untagged?
    else none
  | value => some value

/-- A value stands for a missing one: null or undefined. -/
def isMissing : Value → Bool
  | .simple number => decide (number = 22 ∨ number = 23)
  | _ => false

/-- The integer of a value between two bounds, zero when it is missing. -/
def toInt? (low high : Int) (value : Value) : Option Int := do
  let plain ← value.untagged?
  let number : Int ← match plain with
    | .unsigned number => some number
    | .negative number => some (Int.negSucc number)
    | .simple 20 => none
    | .simple 21 => none
    | .simple number => if plain.isMissing then some 0 else some number
    | .tag 2 (.bytes content) => some (Text.ofBigEndian content)
    | .tag 3 (.bytes content) => some (Int.negSucc (Text.ofBigEndian content))
    | _ => none
  if low ≤ number ∧ number ≤ high then some number else none

/-- A 64-bit integer. -/
def toInt64? : Value → Option Int := toInt? (-0x8000000000000000) 0x7fffffffffffffff

/-- The text of a value, empty when it is missing. -/
def toText? (value : Value) : Option Text := do
  match ← value.untagged? with
  | .text parts => if parts.all Text.isUtf8 then some parts.flatten else none
  | plain => if plain.isMissing then some [] else none

/-- The items of a value read one by one; none inside when the value is missing. -/
def toList? {α : Type} (item : Value → Option α) (value : Value) : Option (Option (List α)) := do
  match ← value.untagged? with
  | .array items => some (some (← items.mapM item))
  | plain => if plain.isMissing then some none else none

/-- The items of a value read one by one; no items when the value is missing. -/
def toItems? {α : Type} (item : Value → Option α) (value : Value) : Option (List α) :=
  (value.toList? item).map (·.getD [])

/-- The bytes of a value; none inside when the value is missing. -/
def toBytes? (value : Value) : Option (Option Text) := do
  match ← value.untagged? with
  | .bytes content => some (some content)
  | .tag _ (.bytes content) => some (some content)
  | plain => toList? (fun item => (item.toInt? 0 255).map fun number => number.toNat.toUInt8) plain

/-- A given number of bytes of a value, with zeros past its end. -/
def toFixedBytes? (size : Nat) (value : Value) : Option Text := do
  let first (content : Text) : Text :=
    content.take size ++ List.replicate (size - content.length) 0
  match ← value.untagged? with
  | .array items => (first <$> ·) <| (items.take size).mapM fun item =>
      (item.toInt? 0 255).map fun number => number.toNat.toUInt8
  | plain => (plain.toBytes?).map fun content => first (content.getD [])

/-- The keys that a record looks for: a number, or its decimal numeral as text. -/
inductive Key where
  | number (value : Int)
  | name (value : Text)
  deriving DecidableEq, Repr

/-- The key of an entry of a record; none for a value that cannot be one. -/
def key? : Value → Option Key
  | .unsigned number => some (.number (BitVec.ofNat 64 number).toInt)
  | .negative number => some (.number (BitVec.ofInt 64 (Int.negSucc number)).toInt)
  | .text parts => if parts.all Text.isUtf8 then some (.name parts.flatten) else none
  | _ => none

/-- The fields of a record. -/
abbrev Record := List (Key × Value)

/-- The fields of a value, none of them when it is missing. -/
def toRecord? (value : Value) : Option Record := do
  match ← value.untagged? with
  | .map entries => entries.mapM fun (key, value) => do some (← key.key?, value)
  | plain => if plain.isMissing then some [] else none

/-- The value of a field, null when there is none. The first entry of a field counts. -/
def Record.field (record : Record) (number : Nat) : Value :=
  match record.find? fun (key, _) =>
      decide (key = .number number ∨ key = .name (Text.ofNat number)) with
  | some (_, value) => value
  | none => .null

/-- The entries of a value as a table from texts to integers, in which a later entry replaces an
earlier one of the same key. -/
def toTable? (value : Value) : Option (List (Text × Int)) := do
  match ← value.untagged? with
  | .map entries =>
    let pairs ← entries.mapM fun (key, value) => do some (← key.toText?, ← value.toInt64?)
    some (pairs.foldl (fun table (key, number) =>
      table.filter (fun entry => entry.1 != key) ++ [(key, number)]) [])
  | plain => if plain.isMissing then some [] else none

end TinLang.Cbor.Value
