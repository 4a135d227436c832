import TinLang.Semantics.Value

/-!
# Stores

What a running program knows: the names in scope with their values, innermost first, the names of
the whole program, and what was printed. A place is a variable or some consecutive scalars of one.
-/
namespace TinLang

/-- What a name is bound to. -/
inductive Binding where
  | variable (value : Value)
  | constant (value : Value)
  deriving DecidableEq, Repr

/-- Names and what they are bound to. -/
abbrev Bindings := List (Text × Binding)

/-- What a running program knows. -/
structure Store where
  /-- The names declared in the current function, the latest first. -/
  locals : Bindings := []
  /-- The variables and constants of the whole program. -/
  globals : Bindings := []
  /-- What was printed. -/
  output : Array UInt8 := #[]

/-- The scalars of a variable from one on, as a value of a type. -/
structure Place where
  /-- The name of the variable. -/
  name : Text
  /-- The first scalar. -/
  first : Nat
  /-- The type of what is there. -/
  type : ValueType
  deriving DecidableEq, Repr

namespace Binding

/-- The value of a name. -/
def value : Binding → Value
  | .variable value | .constant value => value

/-- The binding with other words from a scalar on. -/
def overwrite (first : Nat) (words : List Word) : Binding → Binding
  | .variable value => .variable { value with
      words := value.words.take first ++ words ++ value.words.drop (first + words.length) }
  | .constant value => .constant value

end Binding

/-- The bindings with other words in the first variable of a name. -/
def Bindings.overwrite (name : Text) (first : Nat) (words : List Word) : Bindings → Bindings
  | [] => []
  | (other, binding) :: rest =>
    if name == other then (other, binding.overwrite first words) :: rest
    else (other, binding) :: Bindings.overwrite name first words rest

namespace Store

/-- All names that can be used. -/
def visible (store : Store) : Bindings := store.locals ++ store.globals

/-- The store with other words at a place. -/
def write (store : Store) (place : Place) (words : List Word) : Store :=
  if (store.locals.lookup place.name).isSome then
    { store with locals := Bindings.overwrite place.name place.first words store.locals }
  else { store with globals := Bindings.overwrite place.name place.first words store.globals }

end Store

/-- An evaluation: it changes the store, and it may stop without a result. -/
abbrev Eval := ExceptT Stop (StateM Store)

namespace Eval

/-- What a name is bound to. -/
def find (name : Text) : Eval Binding := do
  match (← getThe Store).visible.lookup name with
  | some binding => return binding
  | none => throw .stuck

/-- The value at a place. -/
def read (structs : StructTable) (place : Place) : Eval Value := do
  let binding ← find place.name
  return ⟨place.type, (binding.value.words.drop place.first).take (structs.leavesOf place.type)⟩

/-- Give a place a value, of which it keeps what fits. -/
def assign (structs : StructTable) (place : Place) (value : Value) : Eval Unit :=
  modify fun store => store.write place (structs.narrowed place.type value.words)

/-- Declare a name in the innermost scope. -/
def declare (name : Text) (binding : Binding) : Eval Unit :=
  modify fun store => { store with locals := (name, binding) :: store.locals }

/-- Print bytes. -/
def print (text : Text) : Eval Unit :=
  modify fun store => { store with output := store.output ++ text }

/-- A result that may be missing. -/
def lift {α : Type} (result : Except Stop α) : Eval α :=
  match result with
  | .ok value => return value
  | .error stop => throw stop

/-- Evaluate in a scope of its own: the names declared there are forgotten afterwards. -/
def inScope {α : Type} (inner : Eval α) : Eval α := do
  let depth := (← getThe Store).locals.length
  let result ← inner
  modify fun store => { store with locals := store.locals.drop (store.locals.length - depth) }
  return result

end Eval

end TinLang
