import TinLang.Sample.Dice
import TinLang.Text

/-!
# Sampling programs

The limits and the state of writing a random program, and the draws that every part of it is made
of. The same draws write the same program.
-/
namespace TinLang

/-- An inclusive range of counts. -/
structure CountRange where
  /-- The least count. -/
  low : Int
  /-- The greatest count. -/
  high : Int
  deriving DecidableEq, Repr

/-- The limits of random programs. -/
structure SampleSettings where
  /-- The seed of the draws. -/
  seed : Nat := 0
  /-- How many structs. -/
  structs : CountRange := ⟨0, 3⟩
  /-- How many members a struct has, at least one. -/
  members : CountRange := ⟨1, 4⟩
  /-- How many functions besides main. -/
  functions : CountRange := ⟨1, 6⟩
  /-- How many arguments a function takes. -/
  arguments : CountRange := ⟨0, 4⟩
  /-- How many statements a body has; nested blocks get fewer. -/
  statements : CountRange := ⟨2, 10⟩
  /-- How many global variables. -/
  globals : CountRange := ⟨0, 3⟩
  /-- How many constants. -/
  constants : CountRange := ⟨0, 2⟩
  /-- How deep blocks and expressions nest. -/
  depth : Int := 3
  deriving DecidableEq, Repr

/-- The nesting that applies, at least one. -/
def SampleSettings.effectiveDepth (settings : SampleSettings) : Nat := max settings.depth.toNat 1

/-- A struct of a random program. -/
structure SampleStruct where
  /-- Its name. -/
  name : Text
  /-- The ways to its integers, such as `.mem0.mem2`. -/
  paths : List Text
  deriving DecidableEq, Repr

/-- A name that stands for an integer. -/
structure SampleVariable where
  /-- The name. -/
  name : Text
  /-- It may be assigned. -/
  writable : Bool
  deriving DecidableEq, Repr

/-- The state of writing a random program. -/
structure SampleState (σ : Type) where
  /-- The state of the draws. -/
  draws : σ
  /-- The lines so far, the latest first. -/
  lines : List Text := []
  /-- How far the next line is indented. -/
  indent : Nat := 0
  /-- The structs so far. -/
  structs : List SampleStruct := []
  /-- How many arguments each function takes. -/
  functions : List Nat := []
  /-- The global variables. -/
  globals : List Text := []
  /-- The constants. -/
  constants : List Text := []
  /-- The functions that the current one may call. -/
  callable : Nat := 0
  /-- The integers in scope. -/
  integers : List SampleVariable := []
  /-- The struct variables in scope, with their structs. -/
  locals : List (Text × SampleStruct) := []
  /-- How many names the current function has made up. -/
  fresh : Nat := 0
  /-- How many calls the current function has. -/
  calls : Nat := 0
  /-- How many loops are around. -/
  loops : Nat := 0

/-- What writing a random program depends on. -/
structure SampleContext (σ : Type) where
  /-- The source of draws. -/
  dice : Dice σ
  /-- The limits. -/
  settings : SampleSettings

/-- A step of writing a random program. -/
abbrev Sample (σ : Type) := ReaderT (SampleContext σ) (StateM (SampleState σ))

namespace Sample

variable {σ : Type}

/-- Draw a number below a number of sides. -/
def roll (sides : Nat) : Sample σ Nat := do
  let dice := (← read).dice
  modifyGet fun state =>
    let (drawn, draws) := dice.roll sides state.draws
    (drawn, { state with draws })

/-- Draw a count of a range; a range with at most one count needs no draw. -/
def count (range : CountRange) : Sample σ Int := do
  if range.high ≤ range.low then return max range.low 0
  else return range.low + (← roll (range.high - range.low + 1).toNat)

/-- One chance in a number. -/
def chance (sides : Nat) : Sample σ Bool := return (← roll sides) == 0

/-- Draw one of some values. -/
def choose {α : Type} (values : List α) (default : α) : Sample σ α :=
  return values.getD (← roll values.length) default

/-- Write a line of parts. -/
def line (parts : List Text) : Sample σ Unit :=
  modify fun state => { state with
    lines := (List.replicate (4 * state.indent) (Text.byte ' ') ++ parts.flatten ++ "\n") ::
      state.lines }

/-- Write what follows one step further in. -/
def indented {α : Type} (body : Sample σ α) : Sample σ α := do
  modify fun state => { state with indent := state.indent + 1 }
  let result ← body
  modify fun state => { state with indent := state.indent - 1 }
  return result

/-- A name that the current function does not have yet. -/
def freshName (stem : Text) : Sample σ Text :=
  modifyGet fun state => (stem ++ Text.ofNat state.fresh, { state with fresh := state.fresh + 1 })

/-- Bring an integer into scope. -/
def addVariable (name : Text) (writable : Bool) : Sample σ Unit :=
  modify fun state => { state with integers := state.integers ++ [⟨name, writable⟩] }

end Sample

end TinLang
