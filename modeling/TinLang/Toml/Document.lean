import TinLang.Toml.Draft
import TinLang.Toml.Lexeme

/-!
# TOML documents

A document is a sequence of lines with headers and pairs of a key and a value. Values may be arrays
and tables in braces, which nest; line ends and comments may stand between their parts.
-/
namespace TinLang.Toml

/-- A document that is being read: the draft so far and the text that is left. -/
structure Reading where
  /-- The document so far. -/
  draft : Draft := {}
  /-- The text that is left. -/
  text : Text

/-- A step of reading, which fails when the text is not well formed. -/
abbrev Read := StateT Reading Option

namespace Read

/-- Change the draft. -/
def edit (change : Draft → Option Draft) : Read Unit := do
  let reading ← get
  let draft ← change reading.draft
  set { reading with draft }

/-- Read a lexeme. -/
def lexeme {α : Type} (read : Text → Option (α × Text)) : Read α := do
  let reading ← get
  let (found, text) ← read reading.text
  set { reading with text }
  return found

/-- Pass over a part of the text. -/
def skip (pass : Text → Text) : Read Unit := modify fun reading =>
    { reading with text := pass reading.text }

/-- Take a text that comes next; says whether it was there. -/
def take (expected : Text) : Read Bool := do
  match Text.dropLeading? expected (← get).text with
  | some text =>
    modify fun reading => { reading with text }
    return true
  | none => return false

/-- Take a text that has to come next. -/
def expect (expected : Text) : Read Unit := do
  unless ← take expected do failure

/-- Put a value into a table that is not part of the draft, under a key of several names. -/
def putDeep? (value : Value) : Key → Table → Option Table
  | [], _ => none
  | [name], table => some (table.put name value)
  | name :: key, table => do
    let inner ← match table.get? name with
      | none => some []
      | some (.table inner) => some inner
      | some _ => none
    return table.put name (.table (← putDeep? value key inner))

/-- The names before the last one of a key, and the last one. -/
def key : Read (List Text × Text) := do
  let key ← lexeme key?
  let last ← key.getLast?
  return (key.dropLast, last)

/-- An array was read. -/
def isArray : Value → Bool
  | .array _ => true
  | _ => false

mutual

/-- Read a value that belongs to a name; `element` tells whether it is part of an array. -/
def value (name : Text) (element : Bool) : (bound : Nat) → Read Value
  | 0 => failure
  | bound + 1 => do
    skip skipBlanks
    if ← take "[" then
      edit fun draft => some (draft.noteArray name true)
      return .array (← elements name bound [])
    else if ← take "\x7b" then
      let outer := (← get).draft.context
      let context := outer ++ [name]
      edit fun draft =>
        let draft := draft.markImplicit context
        if element then draft.enterElement? context else draft.enter? context
      let entries ← pairs context bound []
      edit fun draft => some { draft with context := outer }
      return .table entries
    else lexeme scalar?

/-- Read the rest of an array after the elements found. -/
def elements (name : Text) : (bound : Nat) → (found : List Value) → Read (List Value)
  | 0, _ => failure
  | bound + 1, found => do
    skip (skipFiller false)
    if ← take "]" then return found
    let element ← value name true bound
    skip (skipFiller false)
    if ← take "," then elements name bound (found ++ [element])
    else
      expect "]"
      return found ++ [element]

/-- Read the rest of a table in braces after the entries found. -/
def pairs (context : Key) : (bound : Nat) → (found : Table) → Read Table
  | 0, _ => failure
  | bound + 1, found => do
    skip (skipFiller false)
    if ← take "\x7d" then return found
    let (parents, last) ← key
    expect "="
    edit fun draft => draft.descend? parents
    let entry ← value last false bound
    edit fun draft => (draft.define? last entry).map fun draft => draft.noteArray last
      (isArray entry)
    let found ← putDeep? entry (parents ++ [last]) found
    edit fun draft => some { draft with context }
    skip (skipFiller false)
    if ← take "," then pairs context bound found
    else
      expect "\x7d"
      return found

end

/-- Read the rest of the line after a header or a pair, where only a comment may stand. -/
def lineEnd : Read Unit := do
  skip skipBlanks
  match (← get).text with
  | [] => return
  | byte :: _ => unless isNewline byte || byte == Text.byte '#' do failure

/-- Read the header of a table. -/
def header : Read Unit := do
  if ← take "[" then
    let key ← lexeme key?
    expect "]]"
    edit fun draft => (draft.enterElement? key).map fun draft => draft.noteArray [] false
  else
    let key ← lexeme key?
    expect "]"
    edit fun draft => (draft.enter? key).map fun draft => draft.noteArray [] false

/-- Read a key with its value. -/
def pair (bound : Nat) : Read Unit := do
  let outer := (← get).draft.context
  let (parents, last) ← key
  expect "="
  edit fun draft => draft.descend? parents
  let entry ← value last false bound
  edit fun draft => (draft.define? last entry).map fun draft =>
    { draft.noteArray last (isArray entry) with context := outer }

/-- Read the headers and pairs that are left, at most as many as the bound. -/
def lines (depth : Nat) : (bound : Nat) → Read Unit
  | 0 => failure
  | bound + 1 => do
    skip (skipFiller false)
    match (← get).text with
    | [] => return
    | _ :: _ =>
      if ← take "[" then header else pair depth
      lineEnd
      lines depth bound

end Read

/-- Read a document; none when it is not well formed. -/
def document? (text : Text) : Option Table := do
  let text := withoutMark text
  guard (isPlain text.glyphs)
  let (_, reading) ← (Read.lines (2 * text.length + 2) (text.length + 1)).run { text }
  return reading.draft.root

end TinLang.Toml
