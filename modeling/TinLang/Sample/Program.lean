import TinLang.Sample.Basic

/-!
# Random programs

A random program is well formed and ends: its loops are counted, a function calls only functions
before it and never from inside a loop, and nothing is divided. Every value is an integer, but
structs are declared, filled and read.
-/
namespace TinLang.Sample

variable {σ : Type}

/-- How many calls one function may hold. -/
def maxCalls : Nat := 2

/-- The operators of expressions. -/
def operators : List Text := ["+", "-", "*"]

/-- The operators of conditions. -/
def comparisons : List Text := ["<", ">", "<=", ">=", "==", "!="]

/-- An integer inside a struct variable, if there is one. -/
def memberPath? : Sample σ (Option Text) := do
  match (← get).locals with
  | [] => return none
  | locals =>
    let (name, struct) ← choose locals ([], ⟨[], []⟩)
    return some (name ++ (← choose struct.paths []))

/-- An integer literal. -/
def number : Sample σ Text := do
  if ← chance 4 then return Text.byte '-' :: Text.ofNat (← roll 100)
  else return Text.ofNat (← roll 100)

/-- An expression without parts: a variable, a member, a size or a number. -/
def leaf : Sample σ Text := do
  let kind ← roll 5
  let state ← get
  if kind < 2 ∧ state.integers ≠ [] then
    return (← choose state.integers ⟨[], false⟩).name
  else if kind = 2 then
    match ← memberPath? with
    | some path => return path
    | none => number
  else if kind = 3 ∧ state.structs ≠ [] then
    return "sizeof(" ++ (← choose state.structs ⟨[], []⟩).name ++ ")"
  else number

/-- A function that may be called here, if there is one. -/
def callee? : Sample σ (Option Nat) := do
  let state ← get
  if state.callable = 0 ∨ 0 < state.loops ∨ maxCalls ≤ state.calls then return none
  else return some (← roll state.callable)

/-- Run a step a number of times and keep the results. -/
def collect {α : Type} (step : Sample σ α) : Nat → Sample σ (List α)
  | 0 => return []
  | times + 1 => do
    let first ← step
    return first :: (← collect step times)

/-- A call of a function, whose arguments a step writes. -/
def call (argument : Sample σ Text) (callee : Nat) : Sample σ Text := do
  modify fun state => { state with calls := state.calls + 1 }
  let arguments ← collect argument ((← get).functions.getD callee 0)
  return "proc" ++ Text.ofNat callee ++ "(" ++ Text.join ", " arguments ++ ")"

/-- An expression of at most some levels. -/
def expression : (levels : Nat) → Sample σ Text
  | 0 => leaf
  | levels + 1 => do
    let kind ← roll 6
    if kind < 2 then
      let left ← expression levels
      let op ← choose operators []
      let right ← expression levels
      return "(" ++ left ++ " " ++ op ++ " " ++ right ++ ")"
    else if kind = 2 then
      match ← callee? with
      | some callee => call (expression levels) callee
      | none => leaf
    else leaf

/-- An expression of as many levels as the settings admit, less some. -/
def expressionBelow (less : Nat) : Sample σ Text := do
  expression ((← read).settings.effectiveDepth - less)

/-- A comparison of two expressions. -/
def comparison : Sample σ Text := do
  let left ← expressionBelow 1
  let op ← choose comparisons []
  let right ← expressionBelow 1
  return left ++ " " ++ op ++ " " ++ right

/-- Assign the integers of a new struct variable. -/
def assignPaths (name : Text) : List Text → Sample σ Unit
  | [] => return ()
  | path :: paths => do
    line [name, path, " = ", ← expressionBelow 1, ";"]
    assignPaths name paths

/-- Declare an integer variable. -/
def declareInteger : Sample σ Unit := do
  let name ← freshName "v"
  line [name, ": int = ", ← expressionBelow 0, ";"]
  addVariable name true

/-- Declare a struct variable and fill it. -/
def declareStruct (structs : List SampleStruct) : Sample σ Unit := do
  let struct ← choose structs ⟨[], []⟩
  let name ← freshName "s"
  line [name, ": ", struct.name, ";"]
  assignPaths name struct.paths
  modify fun state => { state with locals := state.locals ++ [(name, struct)] }

/-- Assign a variable that may be assigned, if there is one. -/
def assignVariable : Sample σ Unit := do
  match ((← get).integers.filter SampleVariable.writable).map SampleVariable.name with
  | [] => return ()
  | names =>
    let name ← choose names []
    line [name, " = ", ← expressionBelow 0, ";"]

/-- Assign an integer inside a struct variable, if there is one. -/
def assignMember : Sample σ Unit := do
  match ← memberPath? with
  | none => return ()
  | some path => line [path, " = ", ← expressionBelow 0, ";"]

/-- A choice whose blocks a step writes. -/
def choice (block : Sample σ Unit) : Sample σ Unit := do
  line ["if ", ← comparison, " \x7b"]
  block
  if ← chance 2 then
    line ["\x7d else \x7b"]
    block
  line ["\x7d"]

/-- A counted loop whose block a step writes. -/
def countedLoop (block : Sample σ Unit) : Sample σ Unit := do
  let counter ← freshName "w"
  line [counter, ": int = 0;"]
  line ["while ", counter, " < ", Text.ofNat (1 + (← roll 5)), " \x7b"]
  indented (line [counter, " = ", counter, " + 1;"])
  addVariable counter false
  modify fun state => { state with loops := state.loops + 1 }
  block
  modify fun state => { state with loops := state.loops - 1 }
  line ["\x7d"]

/-- A jump inside a loop, sometimes; says whether there is one. -/
def loopJump : Sample σ Bool := do
  if 0 < (← get).loops then
    if ← chance 2 then
      line [if ← chance 2 then "break;" else "continue;"]
      return true
  return false

/-- A return inside a block, sometimes; says whether there is one. -/
def innerReturn (depth : Nat) : Sample σ Bool := do
  if 0 < depth then
    if ← chance 3 then
      line ["return ", ← expressionBelow 0, ";"]
      return true
  return false

/-- A statement at some depth of blocks, inside which `block` writes one more, if there may be
one; says whether what follows is out of reach. -/
def statement (depth : Nat) (block : Option (Sample σ Unit)) : Sample σ Bool := do
  let kind ← roll 10
  let structs := (← get).structs
  match kind with
  | 2 =>
    if structs = [] then declareInteger else declareStruct structs
    return false
  | 3 =>
    assignVariable
    return false
  | 4 =>
    line ["printi(", ← expressionBelow 0, ");"]
    return false
  | 5 =>
    match block with
    | some block => choice block
    | none => pure ()
    return false
  | 6 =>
    match block with
    | some block => countedLoop block
    | none => pure ()
    return false
  | 7 => loopJump
  | 8 => innerReturn depth
  | 9 =>
    assignMember
    return false
  | _ =>
    declareInteger
    return false

/-- At most a number of statements, up to one after which nothing is reached. -/
def statements (statement : Sample σ Bool) : Nat → Sample σ Unit
  | 0 => return ()
  | count + 1 => do
    if ← statement then return () else statements statement count

/-- A nested block at some depth; its names go out of scope at its end. `levels` is how many more
blocks may nest in it. -/
def block : (levels : Nat) → (depth : Nat) → Sample σ Unit
  | levels, depth => do
    let outer ← get
    indented do
      let count ← count (← read).settings.statements
      let inner : Option (Sample σ Unit) := match levels with
        | 0 => none
        | levels + 1 => some (block levels (depth + 1))
      statements (statement depth inner) (max (count / (Nat.pow 2 depth : Nat)) 1).toNat
    modify fun state => { state with integers := outer.integers, locals := outer.locals }

/-- The names and types of the members of a struct, and the ways to their integers. -/
def members : (count : Nat) → (index : Nat) → Sample σ (List (Text × List Text))
  | 0, _ => return []
  | count + 1, index => do
    let structs := (← get).structs
    let name := "mem" ++ Text.ofNat index
    let nested ← if structs = [] then pure false else chance 4
    let member ← if nested then do
        let struct ← choose structs ⟨[], []⟩
        pure (name ++ ": " ++ struct.name, struct.paths.map fun path => "." ++ name ++ path)
      else pure (name ++ ": int", ["." ++ name])
    return member :: (← members count (index + 1))

/-- Structs, from an index on. -/
def structs : (count : Nat) → (index : Nat) → Sample σ Unit
  | 0, _ => return ()
  | number + 1, index => do
    let name := "Type" ++ Text.ofNat index
    let members ← members (max (← count (← read).settings.members) 1).toNat 0
    modify fun state => { state with
      structs := state.structs ++ [⟨name, members.flatMap Prod.snd⟩] }
    line ["struct ", name, " \x7b ", Text.join ", " (members.map Prod.fst), " \x7d"]
    structs number (index + 1)

/-- Constants, from an index on. -/
def constants : (count : Nat) → (index : Nat) → Sample σ Unit
  | 0, _ => return ()
  | count + 1, index => do
    let name := "K" ++ Text.ofNat index
    modify fun state => { state with constants := state.constants ++ [name] }
    line ["const ", name, " = ", Text.ofNat (← roll 100), ";"]
    constants count (index + 1)

/-- Global variables, from an index on. -/
def globals : (count : Nat) → (index : Nat) → Sample σ Unit
  | 0, _ => return ()
  | count + 1, index => do
    let name := "g" ++ Text.ofNat index
    modify fun state => { state with globals := state.globals ++ [name] }
    if ← chance 2 then line ["global ", name, ": int;"]
    else line ["global ", name, ": int = ", Text.ofNat (← roll 100), ";"]
    globals count (index + 1)

/-- Start a function that may call some of the functions before it. -/
def startFunction (callable : Nat) : Sample σ Unit :=
  modify fun state => { state with
    callable
    integers := state.constants.map (⟨·, false⟩) ++ state.globals.map (⟨·, true⟩)
    locals := []
    fresh := 0
    calls := 0
    loops := 0 }

/-- The statements of a function body. -/
def body : Sample σ Unit := do
  let settings := (← read).settings
  let count ← count settings.statements
  statements (statement 0 (some (block (settings.effectiveDepth - 1) 1))) count.toNat

/-- The name of an argument. -/
def argumentName (index : Nat) : Text := "arg" ++ Text.ofNat index

/-- How a parameter is written. -/
def parameterText (name : Text) : Text := name ++ ": int"

/-- A function other than main. -/
def procedure (index : Nat) : Sample σ Unit := do
  startFunction index
  let arguments := (List.range (← count (← read).settings.arguments).toNat).map argumentName
  modify fun state => { state with
    integers := state.integers ++ arguments.map (⟨·, true⟩)
    functions := state.functions ++ [arguments.length] }
  let params := arguments.map parameterText
  line ["fun proc", Text.ofNat index, "(", Text.join ", " params, "): int \x7b"]
  indented do
    body
    line ["return ", ← expressionBelow 0, ";"]
  line ["\x7d"]

/-- Functions other than main, from an index on. -/
def procedures : (count : Nat) → (index : Nat) → Sample σ Unit
  | 0, _ => return ()
  | count + 1, index => do
    procedure index
    procedures count (index + 1)

/-- Main, which calls the last function at its end so that every program does some work. -/
def mainFunction : Sample σ Unit := do
  let functions := (← get).functions
  startFunction functions.length
  line ["fun main(): int \x7b"]
  indented do
    body
    if functions ≠ [] then
      modify fun state => { state with calls := 0 }
      line ["printi(", ← call (expressionBelow 1) (functions.length - 1), ");"]
    line ["return 0;"]
  line ["\x7d"]

/-- A whole program. -/
def program : Sample σ Unit := do
  let settings := (← read).settings
  structs (← count settings.structs).toNat 0
  constants (← count settings.constants).toNat 0
  globals (← count settings.globals).toNat 0
  procedures (← count settings.functions).toNat 0
  mainFunction

end TinLang.Sample

namespace TinLang.SampleSettings

/-- The random program that some draws write. -/
def writeWith {σ : Type} (settings : SampleSettings) (dice : Dice σ) (draws : σ) : Text :=
  let state := ((Sample.program.run ⟨dice, settings⟩).run { draws }).2
  state.lines.reverse.flatten

/-- The random program of the seed. -/
def write (settings : SampleSettings) : Text :=
  settings.writeWith Pcg.dice (Pcg.seed settings.seed 0x74696e)

end TinLang.SampleSettings
