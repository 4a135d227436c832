import TinLang.Text

/-!
# TOML values

A TOML document is a table of named values. Tables keep their entries in the order in which they
were entered, and a name has one entry.
-/
namespace TinLang.Toml

/-- A value of a document. Real numbers and moments are kept as they are written. -/
inductive Value where
  | string (text : Text)
  | integer (number : Int)
  | real (text : Text)
  | boolean (value : Bool)
  | moment (text : Text)
  | array (elements : List Value)
  | table (entries : List (Text × Value))
  | tables (elements : List (List (Text × Value)))
  deriving Repr

/-- The names on the way from the top of a document to a value. -/
abbrev Key := List Text

/-- Named values. -/
abbrev Table := List (Text × Value)

namespace Table

/-- The value of a name. -/
def get? (table : Table) (name : Text) : Option Value := table.lookup name

/-- The table with a value under a name. -/
def put (table : Table) (name : Text) (value : Value) : Table :=
  match table with
  | [] => [(name, value)]
  | (other, old) :: entries =>
    if other = name then (name, value) :: entries else (other, old) :: put entries name value

/-- Change the table at a key. An array of tables stands for its last table, and every other value
on the way is an obstacle. -/
def modifyAt? (change : Table → Option Table) : Key → Table → Option Table
  | [], table => change table
  | name :: key, table =>
    match table.get? name with
    | some (.table inner) =>
      (modifyAt? change key inner).map fun changed => table.put name (.table changed)
    | some (.tables elements) =>
      match elements.getLast? with
      | some last =>
        (modifyAt? change key last).map fun changed =>
          table.put name (.tables (elements.dropLast ++ [changed]))
      | none => none
    | _ => none

/-- The table at a key. -/
def at? : Key → Table → Option Table
  | [], table => some table
  | name :: key, table =>
    match table.get? name with
    | some (.table inner) => at? key inner
    | some (.tables elements) => elements.getLast?.bind (at? key)
    | _ => none

end Table

end TinLang.Toml
