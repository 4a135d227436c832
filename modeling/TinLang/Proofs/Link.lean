import Mathlib.Algebra.Group.Int.Defs
import Mathlib.Algebra.Group.Nat.Defs
import TinLang.Image
import TinLang.Program.Link
import TinLang.Proofs.Piece

/-!
# Linked calls

When linking succeeds, every relocation of every piece is filled in with the number of its target,
and nothing else changes. So the calls of a linked program that was built from sound pieces all
have a target.
-/
namespace TinLang

namespace Program

/-- Some code with its relocations filled in one after another. -/
inductive Relocated (prog : Program) : Code → List Relocation → Code → Prop where
  | nil (code : Code) : Relocated prog code [] code
  | cons {code patched result : Code} {reloc : Relocation} {others : List Relocation}
    {id : Int} (resolved : prog.resolve reloc = .ok id)
    (done : code.patch? reloc.cell (BitVec.ofInt 32 id) = some patched)
    (later : Relocated prog patched others result) :
    Relocated prog code (reloc :: others) result

/-- Filling in relocations without an error fills in all of them. -/
theorem relocated_of_relocateAll {prog : Program} {code result : Code}
    {relocations : List Relocation}
    (done : prog.relocateAll code relocations = (result, [])) :
    Relocated prog code relocations result := by
  induction relocations generalizing code with
  | nil =>
    obtain rfl : code = result := congrArg Prod.fst done
    exact .nil code
  | cons reloc relocations ih =>
    unfold relocateAll at done
    split at done
    · next patched found =>
      unfold relocate at found
      cases resolved : prog.resolve reloc with
      | error cause => simp [resolved, bind, Except.bind] at found
      | ok id =>
        simp only [resolved, bind, Except.bind] at found
        split at found
        · next filled patch =>
          obtain rfl := Except.ok.inj found
          exact .cons resolved patch (ih done)
        · contradiction
    · simp at done

namespace Relocated

variable {prog : Program} {code result : Code} {relocations : List Relocation}

/-- Relocation keeps code well formed. -/
theorem wellFormed (relocated : Relocated prog code relocations result)
    (formed : code.WellFormed) : result.WellFormed := by
  induction relocated with
  | nil => exact formed
  | cons _ done _ ih => exact ih (formed.patch done)

/-- Cells that no relocation names do not change. -/
theorem getElem?_eq (relocated : Relocated prog code relocations result) {index : Nat}
    (other : ∀ reloc ∈ relocations, reloc.cell ≠ index) :
    result[index]? = code[index]? := by
  induction relocated with
  | nil => rfl
  | cons _ done _ ih =>
    have apart := other _ (List.mem_cons_self)
    rw [ih fun reloc mem => other reloc (List.mem_cons_of_mem _ mem),
      Code.getElem?_of_patch? done, if_neg apart.symm]

/-- Relocation keeps the number of cells. -/
theorem size_eq (relocated : Relocated prog code relocations result) :
    result.size = code.size := by
  induction relocated with
  | nil => rfl
  | cons _ done _ ih => exact ih.trans (Code.size_of_patch? done)

/-- Instructions do not change. -/
theorem instruction_iff (relocated : Relocated prog code relocations result) {index : Nat}
    {instr : Instruction} : result[index]? = some (.instruction instr) ↔
      code[index]? = some (.instruction instr) := by
  induction relocated with
  | nil => rfl
  | @cons code patched result reloc others id _ done _ ih =>
    have cells := Code.getElem?_of_patch? done index
    rw [ih, cells]
    split
    · next same =>
      have natural : ¬ (reloc.cell : Int) < 0 := by omega
      simp only [reduceCtorEq, Option.some.injEq, false_iff]
      intro found
      rw [same] at found
      simp [Code.patch?, Code.immediate?, Code.cell?, natural, found] at done
    · rfl

/-- A cell that a relocation names holds the number of a relocation that names it. -/
theorem filled (relocated : Relocated prog code relocations result) {reloc : Relocation}
    (mem : reloc ∈ relocations) :
    ∃ last ∈ relocations, last.cell = reloc.cell ∧ ∃ id, prog.resolve last = .ok id ∧
      result[reloc.cell]? = some (.immediate (BitVec.ofInt 32 id)) := by
  induction relocated generalizing reloc with
  | nil => simp at mem
  | @cons code patched result first others id resolved done later ih =>
    by_cases again : ∃ other ∈ others, other.cell = reloc.cell
    · obtain ⟨other, inside, same⟩ := again
      obtain ⟨last, found, place, number⟩ := ih inside
      rw [same] at place number
      exact ⟨last, List.mem_cons_of_mem _ found, place, number⟩
    · have once : ∀ other ∈ others, other.cell ≠ reloc.cell :=
        fun other inside same => again ⟨other, inside, same⟩
      have here : reloc = first := by
        rcases List.mem_cons.mp mem with same | inside
        · exact same
        · exact absurd rfl (once reloc inside)
      subst here
      refine ⟨reloc, List.mem_cons_self, rfl, id, resolved, ?_⟩
      rw [later.getElem?_eq once, Code.getElem?_of_patch? done, if_pos rfl]

end Relocated

/-- A program that is linked without an error has its pieces relocated. -/
theorem link_eq {prog linked : Program} (done : prog.link = (linked, none)) :
    linked.linked ∧ linked.segment = prog.segment ∧ linked.interned = prog.interned ∧
      linked.pieces = prog.pieces.map (fun piece =>
        { (prog.linkPiece piece).1 with relocations := [] }) ∧
      ∀ piece ∈ prog.pieces,
        Relocated prog piece.code piece.relocations (prog.linkPiece piece).1.code := by
  unfold link at done
  split at done
  · simp at done
  · dsimp only at done
    split at done
    · next messages =>
      have result := congrArg Prod.fst done
      simp only at result
      subst result
      refine ⟨rfl, rfl, rfl, by simp [Function.comp_def], ?_⟩
      intro piece mem
      apply relocated_of_relocateAll
      have empty : (prog.linkPiece piece).2 = [] := by
        have none := List.flatMap_eq_nil_iff.mp messages
        exact none (prog.linkPiece piece) (by simpa using ⟨piece, mem, rfl⟩)
      have errors : (prog.relocateAll piece.code piece.relocations).2 = [] := by
        simpa [linkPiece] using empty
      exact Prod.ext rfl errors
    · simp at done

/-- The targets of a program are its pieces in order. -/
def TargetsPieces (prog : Program) : Prop :=
  ∀ (index : Nat) (target : CallTarget), prog.targets[index]? = some target →
    target.id = (index : Int) + 1 ∧ index < prog.pieces.size

/-- A resolved relocation names a piece of the program, counted from one. -/
theorem resolve_eq {prog : Program} (targets : prog.TargetsPieces) {reloc : Relocation}
    {id : Int} (resolved : prog.resolve reloc = .ok id) :
    ∃ index : Nat, reloc.target = some index ∧ id = (index : Int) + 1 ∧
      index < prog.pieces.size := by
  unfold resolve at resolved
  split at resolved
  · contradiction
  · next target found =>
    obtain ⟨index, which, there⟩ := Option.bind_eq_some_iff.mp found
    have known := targets index target there
    split at resolved
    · contradiction
    · split at resolved
      · contradiction
      · exact ⟨index, which, (Except.ok.inj resolved).symm.trans known.1, known.2⟩

/-- The calls of a linked program have targets. -/
theorem linkError?_eq_none {prog linked : Program} {functions : Nat}
    (done : prog.link = (linked, none)) (targets : prog.TargetsPieces)
    (sound : ∀ piece ∈ prog.pieces, piece.Sound functions)
    (few : prog.pieces.size < 2 ^ 31) : Image.linkError? linked = none := by
  obtain ⟨_, _, _, pieces, relocated⟩ := link_eq done
  have count : linked.pieces.size = prog.pieces.size := by simp [pieces]
  unfold Image.linkError?
  rw [List.findSome?_eq_none_iff]
  intro after mem
  rw [List.findSome?_eq_none_iff]
  intro cell _
  obtain ⟨piece, inside, rfl⟩ : ∃ piece ∈ prog.pieces,
      { (prog.linkPiece piece).1 with relocations := [] } = after := by
    simpa [pieces] using mem
  have filled := relocated piece inside
  have natural : ¬ (cell : Int) < 0 := by omega
  have following : ¬ ((cell : Int) + 1) < 0 := by omega
  have next : ((cell : Int) + 1).toNat = cell + 1 := by omega
  simp only [Image.callError?, Code.instruction?, Code.immediate?, Code.cell?, natural, following,
    ↓reduceIte, Int.toNat_natCast, next, count]
  cases found : (prog.linkPiece piece).1.code[cell]? with
  | none => rfl
  | some at' =>
    cases at' with
    | immediate value => rfl
    | instruction instr =>
      by_cases call : instr.op = .call
      · have before := filled.instruction_iff.mp found
        have number : ∃ value, (prog.linkPiece piece).1.code[cell + 1]? =
            some (.immediate value) ∧ ((Native.ofId? value.toInt).isSome ∨
              (0 < value.toInt ∧ value.toInt ≤ prog.pieces.size)) := by
          by_cases named : ∃ reloc ∈ piece.relocations, reloc.cell = cell + 1
          · obtain ⟨reloc, waiting, place⟩ := named
            obtain ⟨last, _, _, id, resolved, written⟩ := filled.filled waiting
            obtain ⟨index, _, same, known⟩ := resolve_eq targets resolved
            rw [place] at written
            refine ⟨_, written, .inr ?_⟩
            have small : (BitVec.ofInt 32 id).toInt = id := by
              rw [BitVec.toInt_ofInt, Int.bmod_eq_of_le (by omega) (by omega)]
            rw [small]
            omega
          · have unnamed : ∀ reloc ∈ piece.relocations, reloc.cell ≠ cell + 1 :=
              fun reloc waiting place => named ⟨reloc, waiting, place⟩
            rcases (sound piece inside).calls cell instr before call with
              ⟨value, there, native⟩ | ⟨reloc, waiting, place, _⟩
            · exact ⟨value, by rw [filled.getElem?_eq unnamed, there], .inl native⟩
            · exact absurd place (unnamed reloc waiting)
        obtain ⟨value, there, which⟩ := number
        simp only [call, ↓reduceIte, there, Option.getD_some]
        rcases which with native | ⟨positive, known⟩
        · obtain ⟨which, found⟩ := Option.isSome_iff_exists.mp native
          have id : which.id = value.toInt := by simpa using List.find?_some found
          have negative : value.toInt < 0 := by
            rw [← id]
            cases which <;> decide
          have notZero : ¬ value.toInt = 0 := by omega
          simp [notZero, negative, found]
        · have notZero : ¬ value.toInt = 0 := by omega
          have notNegative : ¬ value.toInt < 0 := by omega
          have notBeyond : ¬ (prog.pieces.size : Int) < value.toInt := by omega
          simp [notZero, notNegative, notBeyond]
      · simp [call]

end Program

end TinLang
