import TinLang.Cbor.Value

/-!
# Reading binary object values

A reader takes one value from the front of a byte sequence and returns the bytes after it. Values
nest at most 32 levels deep, and an array or map holds at most some number of items or entries, so
the recursion follows the remaining levels and the counts.
-/
namespace TinLang.Cbor

/-- Takes one value from the front of a byte sequence. -/
abbrev Reader := Text → Option (Value × Text)

/-- How deep arrays, maps and tags on tags may nest. -/
def maxDepth : Nat := 32

/-- How many items an array, or entries a map, may hold when nothing else is said. -/
def maxCount : Nat := 131072

/-- The argument of a head. -/
inductive Argument where
  /-- A number, in the head itself. -/
  | direct (number : Nat)
  /-- A number in the bytes after the head. -/
  | following (size number : Nat)
  /-- The length is not known in advance. -/
  | indefinite
  deriving DecidableEq, Repr

/-- The number of an argument that has one. -/
def Argument.number? : Argument → Option Nat
  | .direct number => some number
  | .following _ number => some number
  | .indefinite => none

/-- The bytes of a given number at the front, and the bytes after them. -/
def take? (count : Nat) (bytes : Text) : Option (Text × Text) :=
  if count ≤ bytes.length then some (bytes.take count, bytes.drop count) else none

/-- The kind and the argument at the front, and the bytes after them. -/
def head? : Text → Option (Nat × Argument × Text)
  | [] => none
  | first :: rest => do
    let major := first.toNat / 32
    let info := first.toNat % 32
    if info < 24 then some (major, .direct info, rest)
    else if info < 28 then
      let (bytes, rest) ← take? (Nat.pow 2 (info - 24)) rest
      some (major, .following bytes.length (Text.ofBigEndian bytes), rest)
    else if info = 31 then some (major, .indefinite, rest)
    else none

/-- The byte that ends an item of indefinite length. -/
def breakCode : UInt8 := 0xff

/-- The parts of a string of indefinite length: strings of the same kind with lengths of their
own, up to the break. -/
def readParts (kind : Nat) : (fuel : Nat) → Text → Option (List Text × Text)
  | 0, _ => none
  | fuel + 1, bytes =>
    match bytes with
    | [] => none
    | first :: rest =>
      if first = breakCode then some ([], rest)
      else do
        let (major, argument, rest) ← head? bytes
        if major ≠ kind then none else
          let (part, rest) ← take? (← argument.number?) rest
          let (parts, rest) ← readParts kind fuel rest
          some (part :: parts, rest)

/-- The parts of a string after its head. -/
def readString (kind : Nat) (argument : Argument) (rest : Text) : Option (List Text × Text) :=
  match argument.number? with
  | some length => (take? length rest).map fun (part, rest) => ([part], rest)
  | none => readParts kind rest.length rest

/-- A given number of values. -/
def readCount (reader : Reader) : Nat → Text → Option (List Value × Text)
  | 0, bytes => some ([], bytes)
  | count + 1, bytes => do
    let (item, rest) ← reader bytes
    let (items, rest) ← readCount reader count rest
    some (item :: items, rest)

/-- Values up to the break. -/
def readToBreak (reader : Reader) : (fuel : Nat) → Text → Option (List Value × Text)
  | 0, _ => none
  | fuel + 1, bytes =>
    match bytes with
    | [] => none
    | first :: rest =>
      if first = breakCode then some ([], rest)
      else do
        let (item, rest) ← reader bytes
        let (items, rest) ← readToBreak reader fuel rest
        some (item :: items, rest)

/-- The values of an array after its head, or the keys and values of a map. -/
def readItems (limit : Nat) (reader : Reader) (argument : Argument) (perItem : Nat) (rest : Text) :
    Option (List Value × Text) :=
  match argument.number? with
  | some count => if count ≤ limit then readCount reader (count * perItem) rest else none
  | none => (readToBreak reader rest.length rest).filter fun (items, _) =>
      decide (items.length ≤ limit * perItem)

/-- Keys and values that alternate, as entries; none when a value is missing. -/
def entries? : List Value → Option (List (Value × Value))
  | [] => some []
  | [_] => none
  | key :: value :: rest => (entries? rest).map ((key, value) :: ·)

/-- The value of a head of the last kind: a simple value or a floating-point number. -/
def primitive? : Argument → Option Value
  | .direct number => some (.simple number)
  | .following 1 number => if number < 32 then none else some (.simple number)
  | .following size number => some (.float size number)
  | .indefinite => none

/-- One value without a tag; `inner` reads the values inside it. -/
def readPlain (limit : Nat) (inner : Reader) (major : Nat) (argument : Argument) (rest : Text) :
    Option (Value × Text) :=
  match major with
  | 0 => argument.number?.map fun number => (.unsigned number, rest)
  | 1 => argument.number?.map fun number => (.negative number, rest)
  | 2 => (readString 2 argument rest).map fun (parts, rest) => (.bytes parts.flatten, rest)
  | 3 => (readString 3 argument rest).map fun (parts, rest) => (.text parts, rest)
  | 4 => (readItems limit inner argument 1 rest).map fun (items, rest) => (.array items, rest)
  | 5 => do
    let (items, rest) ← readItems limit inner argument 2 rest
    some (.map (← entries? items), rest)
  | _ => (primitive? argument).map (·, rest)

/-- One value; `inner` reads the values one level deeper. A tag on a tag is one level deeper,
the content of a single tag is not. -/
def readItem (limit : Nat) (inner : Reader) (bytes : Text) : Option (Value × Text) := do
  let (major, argument, rest) ← head? bytes
  if major = 6 then
    let number ← argument.number?
    let (contentMajor, contentArgument, contentRest) ← head? rest
    let (content, after) ←
      if contentMajor = 6 then inner rest
      else readPlain limit inner contentMajor contentArgument contentRest
    some (.tag number content, after)
  else readPlain limit inner major argument rest

/-- One value with at most some levels inside it. -/
def readDeep (limit : Nat) : (depth : Nat) → Reader
  | 0 => readItem limit fun _ => none
  | depth + 1 => readItem limit (readDeep limit depth)

/-- The one value that a whole byte sequence holds. -/
def read? (limit : Nat) (bytes : Text) : Option Value :=
  match readDeep limit maxDepth bytes with
  | some (value, []) => some value
  | _ => none

end TinLang.Cbor
