import TinLang.Code.Opcode
import TinLang.Text.Glyph

/-!
# Profiles

A profile counts the instructions executed by opcode and the calls by piece name. A piece is hot
once its calls reach the threshold; the moment it becomes hot is remembered.
-/
namespace TinLang

/-- The calls into the pieces of one name. -/
structure CallCount where
  /-- The name. -/
  name : Text
  /-- How many calls were counted. -/
  calls : Nat
  /-- The count has reached the threshold. -/
  hot : Bool
  deriving DecidableEq, Repr

/-- Counts of a run. -/
structure Profile where
  /-- The call count at which a piece becomes hot; zero stands for never. -/
  threshold : Nat := 1000
  /-- For each code of a defined opcode how often it was executed. -/
  instructions : Array Nat := Array.replicate 31 0
  /-- The call counts in the order of first calls. -/
  calls : List CallCount := []
  /-- The pieces that became hot, with their counts then, in order. -/
  becameHot : List CallCount := []
  deriving Repr

namespace Profile

/-- The profile with an instruction counted; undefined opcodes are not counted. -/
def countInstruction (profile : Profile) (op : Opcode) : Profile :=
  { profile with instructions := profile.instructions.modify op.code.toNat (· + 1) }

/-- The count of a name after one more call. -/
def bump (profile : Profile) (count : CallCount) : CallCount :=
  let calls := count.calls + 1
  { count with calls, hot := count.hot || (decide (0 < profile.threshold) &&
      decide (profile.threshold ≤ calls)) }

/-- The profile with a call counted, and whether the piece became hot by it. -/
def countCall (profile : Profile) (name : Text) : Profile × Bool :=
  let previous := (profile.calls.find? fun count => count.name == name).getD ⟨name, 0, false⟩
  let current := profile.bump previous
  let calls := if profile.calls.any fun count => count.name == name then
      profile.calls.map fun count => if count.name == name then current else count
    else profile.calls ++ [current]
  let becomes := current.hot && !previous.hot
  let becameHot := if becomes then profile.becameHot ++ [current] else profile.becameHot
  ({ profile with calls, becameHot }, becomes)

/-- How often an opcode was executed. -/
def instructionCount (profile : Profile) (op : Opcode) : Nat :=
  (profile.instructions[op.code.toNat]?).getD 0

/-- How often the pieces of a name were called. -/
def callCount (profile : Profile) (name : Text) : Nat :=
  ((profile.calls.find? fun count => count.name == name).map CallCount.calls).getD 0

/-- How many instructions were executed. -/
def instructionTotal (profile : Profile) : Nat := profile.instructions.toList.foldr (· + ·) 0

/-- How many calls were counted. -/
def callTotal (profile : Profile) : Nat := (profile.calls.map CallCount.calls).foldr (· + ·) 0

/-- How many names are hot. -/
def hotTotal (profile : Profile) : Nat := (profile.calls.filter CallCount.hot).length

/-- The most called come first, names in the order of their bytes among equals. -/
def ranks (left right : CallCount) : Bool :=
  if left.calls ≠ right.calls then decide (right.calls < left.calls)
  else !Text.precedes right.name left.name

/-- The names called most, at most `count` of them. -/
def top (profile : Profile) (count : Nat) : List Text :=
  ((profile.calls.mergeSort ranks).take count).map CallCount.name

/-- The profile without counts. -/
def reset (profile : Profile) : Profile :=
  { profile with instructions := Array.replicate 31 0, calls := [] }

/-- The line of an opcode that was executed. -/
def opcodeLine (profile : Profile) (op : Opcode) : Text :=
  if profile.instructionCount op = 0 then []
  else "  " ++ Text.padRight 14 op.name ++ " " ++ Text.ofNat (profile.instructionCount op) ++ "\n"

/-- The line of a name that was called. -/
def callLine (profile : Profile) (name : Text) : Text :=
  "  call " ++ Text.padRight 16 name ++ " " ++ Text.ofNat (profile.callCount name) ++ "\n"

/-- The report: the totals, the opcodes executed and the ten names called most. -/
def report (profile : Profile) : Text :=
  "instructions: " ++ Text.ofNat profile.instructionTotal ++ ", calls: " ++
    Text.ofNat profile.callTotal ++ "\n" ++ Opcode.all.flatMap profile.opcodeLine ++
    (profile.top 10).flatMap profile.callLine

end Profile

end TinLang
