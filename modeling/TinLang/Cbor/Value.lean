import TinLang.Text.Glyph

/-!
# Binary object values

The values of the concise binary object representation, and how they are written: every head has
the shortest form, and every string, array and map says its length first. Values are read back in
`TinLang.Cbor.Read`, which also accepts longer heads and lengths that are not known in advance.
-/
namespace TinLang.Cbor

/-- A value. -/
inductive Value where
  /-- A number that is not negative. -/
  | unsigned (number : Nat)
  /-- The number `-1 - number`. -/
  | negative (number : Nat)
  /-- A byte string. -/
  | bytes (content : Text)
  /-- A text string in the parts it is written in. -/
  | text (parts : List Text)
  /-- A sequence of values. -/
  | array (items : List Value)
  /-- Keys with their values, in the order they are written. -/
  | map (entries : List (Value × Value))
  /-- A value with a tag on it. -/
  | tag (number : Nat) (content : Value)
  /-- One of the simple values, such as 22, null. -/
  | simple (number : Nat)
  /-- The bits of a floating-point number of two, four or eight bytes. -/
  | float (size : Nat) (bits : Nat)
  deriving Repr, Inhabited

namespace Value

/-- The value that stands for a missing one. -/
def null : Value := .simple 22

/-- An integer. -/
def int : Int → Value
  | .ofNat number => .unsigned number
  | .negSucc number => .negative number

/-- A text string in one part. -/
def string (content : Text) : Value := .text [content]

end Value

/-- The shortest head of a kind of item with an argument below `2 ^ 64`. -/
def head (major argument : Nat) : Text :=
  if argument < 24 then [(major * 32 + argument).toUInt8]
  else if argument < 256 then (major * 32 + 24).toUInt8 :: Text.bigEndian 1 argument
  else if argument < 65536 then (major * 32 + 25).toUInt8 :: Text.bigEndian 2 argument
  else if argument < 4294967296 then (major * 32 + 26).toUInt8 :: Text.bigEndian 4 argument
  else (major * 32 + 27).toUInt8 :: Text.bigEndian 8 argument

mutual

/-- The bytes of a value. -/
def Value.write : Value → Text
  | .unsigned number => head 0 number
  | .negative number => head 1 number
  | .bytes content => head 2 content.length ++ content
  | .text parts => head 3 parts.flatten.length ++ parts.flatten
  | .array items => head 4 items.length ++ writeItems items
  | .map entries => head 5 entries.length ++ writeEntries entries
  | .tag number content => head 6 number ++ content.write
  | .simple number => head 7 number
  | .float size bits => (7 * 32 + 24 + size.log2).toUInt8 :: Text.bigEndian size bits

/-- The bytes of some values one after another. -/
def writeItems : List Value → Text
  | [] => []
  | item :: items => item.write ++ writeItems items

/-- The bytes of some keys and values one after another. -/
def writeEntries : List (Value × Value) → Text
  | [] => []
  | (key, value) :: entries => key.write ++ value.write ++ writeEntries entries

end

end TinLang.Cbor
