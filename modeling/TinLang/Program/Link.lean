import TinLang.Program.Basic
import TinLang.Text.Quoted

/-!
# Linking

Linking fills every recorded call immediate with the number of its target. Every bad relocation
is reported; the program counts as linked, and forgets its relocations, only when there is none.
The good relocations of a failed link stay filled in, so it can be repeated once the missing
targets are bound.
-/
namespace TinLang

/-- Why a relocation cannot be filled in. -/
inductive RelocationError where
  | noTarget (cell : Nat)
  | unresolved (target : Text) (cell : Nat)
  | missingPiece (target : Text) (index : Int)
  | notImmediate (cell : Nat)
  deriving DecidableEq, Repr

/-- The message of a relocation error in a piece. -/
def RelocationError.message (piece : Text) : RelocationError → Text
  | .noTarget cell => piece ++ ": relocation at cell " ++ Text.ofNat cell ++ " has no target"
  | .unresolved target cell =>
    piece ++ ": call to " ++ target.quoted ++ " at cell " ++ Text.ofNat cell ++ " is unresolved"
  | .missingPiece target index =>
    piece ++ ": call to " ++ target.quoted ++ " resolves to missing piece " ++ Text.ofInt index
  | .notImmediate cell => piece ++ ": cell " ++ Text.ofNat cell ++ " is not an immediate"

/-- Why a program cannot be linked. -/
inductive LinkError where
  | alreadyLinked
  /-- The messages of the bad relocations in order. -/
  | relocations (messages : List Text)
  deriving DecidableEq, Repr

/-- The message of a link error. -/
def LinkError.message : LinkError → Text
  | .alreadyLinked => "program is already linked"
  | .relocations messages => "link: " ++ Text.join "\n" messages

namespace Program

/-- The number that a relocation fills in. -/
def resolve (program : Program) (relocation : Relocation) : Except RelocationError Int :=
  match relocation.target.bind (program.targets[·]?) with
  | none => .error (.noTarget relocation.cell)
  | some target =>
    if target.id = 0 then .error (.unresolved target.name relocation.cell)
    else if 0 < target.id ∧ (program.pieces.size : Int) < target.id then
      .error (.missingPiece target.name (target.id - 1))
    else .ok target.id

/-- The code with one relocation filled in, or why it cannot be. -/
def relocate (program : Program) (code : Code) (relocation : Relocation) :
    Except RelocationError Code := do
  let id ← program.resolve relocation
  match code.patch? relocation.cell (BitVec.ofInt 32 id) with
  | some code => .ok code
  | none => .error (.notImmediate relocation.cell)

/-- The code with its good relocations filled in, and the errors of the others. -/
def relocateAll (program : Program) : Code → List Relocation → Code × List RelocationError
  | code, [] => (code, [])
  | code, relocation :: relocations =>
    match program.relocate code relocation with
    | .ok patched => program.relocateAll patched relocations
    | .error error =>
      let (patched, errors) := program.relocateAll code relocations
      (patched, error :: errors)

/-- A piece with its good relocations filled in, and the messages of the others. -/
def linkPiece (program : Program) (piece : Piece) : Piece × List Text :=
  let (code, errors) := program.relocateAll piece.code piece.relocations
  ({ piece with code }, errors.map (RelocationError.message piece.name))

/-- The program with its calls filled in, and why it is not linked, if it is not. -/
def link (program : Program) : Program × Option LinkError :=
  if program.linked then (program, some .alreadyLinked) else
    let results := program.pieces.map program.linkPiece
    let pieces := results.map Prod.fst
    match results.toList.flatMap Prod.snd with
    | [] =>
      ({ program with
        pieces := pieces.map fun piece => { piece with relocations := [] }, linked := true }, none)
    | messages => ({ program with pieces }, some (.relocations messages))

end Program

end TinLang
