import TinLang.Toml.Value

/-!
# Drafts of documents

A draft is a document as far as it was read, with the key of the table that new values belong to.
A table that only came to be as part of a longer key is implicit: it may be defined once more. A
value that was last written as an array may be replaced.
-/
namespace TinLang.Toml

/-- A document as far as it was read. -/
structure Draft where
  /-- The values so far. -/
  root : Table := []
  /-- The keys of the tables that only came to be as parts of longer keys. -/
  implicit : List Key := []
  /-- The keys whose value was last written as an array. -/
  arrays : List Key := []
  /-- The key of the table that new values belong to. -/
  context : Key := []

namespace Draft

/-- The key now belongs to an implicit table. -/
def markImplicit (draft : Draft) (key : Key) : Draft :=
    { draft with implicit := key :: draft.implicit }

/-- The key no longer belongs to an implicit table. -/
def unmarkImplicit (draft : Draft) (key : Key) : Draft :=
  { draft with implicit := draft.implicit.filter (· != key) }

/-- The value of a name in the table that new values belong to. -/
def current? (draft : Draft) (name : Text) : Option Value :=
  (draft.root.at? draft.context).bind (Table.get? · name)

/-- The draft with a value in the table that new values belong to. -/
def replace? (draft : Draft) (name : Text) (value : Value) : Option Draft := do
  let root ← draft.root.modifyAt? (fun table => some (table.put name value)) draft.context
  return { draft with root }

/-- Define a value. A name that has a value is an error, unless the value was an array, which is
replaced, or an implicit table, which is kept. -/
def define? (draft : Draft) (name : Text) (value : Value) : Option Draft := do
  let _ ← draft.root.at? draft.context
  let key := draft.context ++ [name]
  match draft.current? name with
  | none => draft.replace? name value
  | some _ =>
    if draft.arrays.contains key then (draft.unmarkImplicit key).replace? name value
    else if draft.implicit.contains key then return draft.unmarkImplicit key
    else none

/-- The key that a note about a name of the current table is kept under; an empty name stands for
the table itself. -/
def noteKey (draft : Draft) (name : Text) : Key :=
  match (if name.isEmpty then draft.context else draft.context ++ [name]) with
  | [] => [[]]
  | key => key

/-- Note whether the value of a name was written as an array. -/
def noteArray (draft : Draft) (name : Text) (isArray : Bool) : Draft :=
  let key := draft.noteKey name
  let others := draft.arrays.filter (· != key)
  { draft with arrays := if isArray then key :: others else others }

/-- Make the table at a key the one that new values belong to, and let it be implicit when it is
missing. -/
def step? (draft : Draft) (name : Text) : Option Draft := do
  let key := draft.context ++ [name]
  let draft ← match draft.current? name with
    | none => (draft.markImplicit key).replace? name (.table [])
    | some _ => some draft
  let _ ← draft.root.at? key
  return { draft with context := key }

/-- Walk to the parent of a key from the top of the document. -/
def enterParent? (draft : Draft) (key : Key) : Option Draft :=
  key.dropLast.foldlM step? { draft with context := [] }

/-- Define the table at a key and make it the one that new values belong to. -/
def enter? (draft : Draft) (key : Key) : Option Draft := do
  let last ← key.getLast?
  let draft ← (← draft.enterParent? key).define? last (.table [])
  return { draft with context := key }

/-- Add a table to the array of tables at a key and make it the one that new values belong to. -/
def enterElement? (draft : Draft) (key : Key) : Option Draft := do
  let last ← key.getLast?
  let draft ← draft.enterParent? key
  let elements ← match draft.current? last with
    | none => some []
    | some (.tables elements) => some elements
    | some _ => none
  let draft ← draft.replace? last (.tables (elements ++ [[]]))
  return { draft with context := key }

/-- Walk down from the table that new values belong to, along the names before the last one of a
key. -/
def descend? (draft : Draft) (names : List Text) : Option Draft :=
  names.foldlM (fun draft name =>
    let key := draft.context ++ [name]
    (draft.markImplicit key).enter? key) draft

end Draft

end TinLang.Toml
