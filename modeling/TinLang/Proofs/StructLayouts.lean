import TinLang.Proofs.Build
import TinLang.Proofs.Containment

/-!
# Layouts of structs

The layouts that a check finds are those that the declarations describe. When nothing else is wrong
with the structs, each has a layout exactly if it reaches none that holds itself, and neither the
order of the declarations nor that of the files matters. Whatever is wrong with them, a recorded
member is a value of a struct that is done, so the scalars of a value can be listed member by
member.
-/
namespace TinLang

open Relation (ReflTransGen TransGen)

open StructDecl

namespace Shape

/-- The scalars of members add up. -/
theorem partLeaves_map (members : List Member) :
    partLeaves (members.map fun mem => (mem.offset, mem.shape)) =
      (members.map fun mem => mem.shape.leaves).sum := by
  induction members with
  | nil => rfl
  | cons mem members ih => rw [List.map_cons, List.map_cons, partLeaves, ih, List.sum_cons]

/-- The slots of a struct are those of its members. -/
theorem partSlots_map (members : List Member) (offset : Int) :
    partSlots offset (members.map fun mem => (mem.offset, mem.shape)) =
      members.flatMap fun mem => mem.shape.slots (offset + mem.offset) := by
  induction members with
  | nil => rfl
  | cons mem members ih => rw [List.map_cons, partSlots, ih, List.flatMap_cons]

end Shape

/-- The members of a struct stand at the least offsets that are free and aligned, in order, apart
from each other and inside the struct, whose size is the least that is aligned and reaches their
end. -/
structure StructTable.Tight (table : StructTable) (struct : StructType) : Prop where
  least : ∃ stop, table.Natural 0 struct.members stop ∧
    IsLeast {size | stop ≤ size ∧ struct.align ∣ size} struct.size
  apart : struct.members.Pairwise fun mem later =>
    mem.offset + table.sizeOf mem.type ≤ later.offset
  inside : ∀ mem ∈ struct.members, table.alignOf mem.type ∣ mem.offset ∧
    mem.offset + table.sizeOf mem.type ≤ struct.size

namespace Checker

variable {declarations : List StructDecl} {before after checker : Checker} {outer inner : Text}

/-- The structs of a check are laid out as their declarations describe, as far as they can be. -/
structure LaysOut (declarations : List StructDecl) (checker : Checker) : Prop where
  /-- A struct has a layout exactly if it reaches none that holds itself. -/
  complete : ∀ decl ∈ declarations,
    checker.progress? decl.name = some .done ↔ ¬ Cyclic declarations decl.name
  /-- One is reported to contain itself exactly if one does. -/
  reported : (∃ problem ∈ checker.problems, ∃ name, problem.cause = .containsItself name) ↔
    ∃ name, TransGen (Holds declarations) name name
  /-- A struct that is reported to contain itself does. -/
  sound : ∀ problem ∈ checker.problems, ∀ name, problem.cause = .containsItself name →
    TransGen (Holds declarations) name name
  /-- Members stand in order, each at the next offset that its alignment admits; the alignment is
  the largest of theirs, and the size their end rounded up to it. -/
  built : ∀ decl ∈ declarations, checker.progress? decl.name = some .done →
    checker.environment.LaidOut decl (checker.environment.structs.get decl.name)
  /-- When a word for each scalar is less than numbers of 64 bits hold, no size wraps around, and
  members have the least offsets. -/
  natural : ∀ decl ∈ declarations, checker.progress? decl.name = some .done →
    wordSize * (checker.environment.structs.get decl.name).shape.leaves < 2 ^ 63 →
    checker.environment.structs.Tight (checker.environment.structs.get decl.name)

/-- A struct that is done holds values of structs that are done only. -/
theorem Searched.nests (searched : checker.Searched declarations) (laid : checker.Laid)
    (proper : Proper declarations) (holds : Holds declarations outer inner)
    (done : checker.progress? outer = some .done) :
    checker.environment.structs.Nests inner outer ∧ checker.progress? inner = some .done := by
  obtain ⟨⟨held, declared, rfl⟩, decl, mem, rfl, field, inside, named, direct⟩ := holds
  obtain ⟨-, stop, filled, -⟩ := searched.built decl mem done
  obtain ⟨found, listed, stands⟩ := Environment.exists_of_stands filled.members inside
  have known : (checker.environment.structs.get? held.name).isSome := by
    rw [laid.known, searched.isSome_progress?]
    exact ⟨held, declared, rfl⟩
  have type : found.type = ⟨.struct held.name, 0⟩ := by
    have resolved := stands.type
    obtain ⟨struct, there⟩ := Option.isSome_iff_exists.mp known
    have same : struct.name = held.name := by simpa using List.find?_some there
    rw [Environment.resolve?, named, proper.free held declared, there, direct] at resolved
    rw [← Option.some.inj resolved]
    dsimp only
    rw [same]
  have struct : found.type.structName? = some held.name := by rw [type]; rfl
  exact ⟨⟨found, listed, struct⟩, (laid.members _ found listed).1 _ struct⟩

/-- Layouts nest. -/
theorem Laid.nested (laid : checker.Laid) : checker.environment.structs.Nested :=
  fun name mem inside => (laid.members name mem inside).2

/-- A value of a struct has the scalars of its members. -/
theorem Laid.leaves (laid : checker.Laid) (name : Text) :
    (checker.environment.structs.get name).shape.leaves =
      ((checker.environment.structs.get name).members.map fun mem =>
        checker.environment.structs.leavesOf mem.type).sum := by
  rw [StructType.shape, Shape.leaves, Shape.partLeaves_map]
  congr 1
  refine List.map_congr_left fun mem inside => ?_
  rw [laid.nested name mem inside]
  rfl

/-- The layout that is described is the natural one as long as no size wraps around. -/
theorem Laid.tight (laid : checker.Laid) {decl : StructDecl} {name : Text}
    (built : checker.environment.LaidOut decl (checker.environment.structs.get name))
    (small : wordSize * (checker.environment.structs.get name).shape.leaves < 2 ^ 63) :
    checker.environment.structs.Tight (checker.environment.structs.get name) := by
  obtain ⟨-, stop, filled, size⟩ := built
  have leaves := laid.leaves name
  obtain ⟨natural, below⟩ := filled.packed.natural laid.aligned (show 0 ≤ wordSize * 0 from
    Nat.zero_le _)
    (fun mem inside few => (laid.fits (laid.members name mem inside).1 few).2)
    (by rwa [Nat.zero_add, ← leaves])
  rw [Nat.zero_add, ← leaves] at below
  have least := (isLeast_alignUp (laid.aligned name) below small).1
  rw [← size] at least
  refine ⟨⟨stop, natural, least⟩, natural.pairwise, fun mem inside => ?_⟩
  obtain ⟨-, within, aligned⟩ := natural.mem inside
  exact ⟨aligned, Nat.le_trans within least.1.1⟩

/-- A struct that is done reaches no cycle. -/
theorem Searched.acyclic (searched : checker.Searched declarations) (laid : checker.Laid)
    (proper : Proper declarations) (done : checker.progress? outer = some .done) :
    ¬ Cyclic declarations outer := by
  have reached : ∀ {first last : Text}, TransGen (Holds declarations) first last →
      checker.progress? first = some .done → checker.progress? last = some .done ∧
        TransGen checker.environment.structs.Nests last first := by
    intro first last path done
    induction path with
    | single holds =>
      obtain ⟨nests, done'⟩ := searched.nests laid proper holds done
      exact ⟨done', .single nests⟩
    | tail _ holds ih =>
      obtain ⟨done', back⟩ := ih
      obtain ⟨nests, done''⟩ := searched.nests laid proper holds done'
      exact ⟨done'', .head nests back⟩
  rintro ⟨inner, path, cycle⟩
  have done' : checker.progress? inner = some .done := by
    rcases Relation.reflTransGen_iff_eq_or_transGen.mp path with rfl | path
    · exact done
    · exact (reached path done).1
  have loop := (reached cycle done').2
  exact laid.nested.wellFounded.transGen.asymmetric _ _ loop loop

/-- The search has found what it should. -/
theorem Searched.laysOut (searched : checker.Searched declarations) (laid : checker.Laid)
    (proper : Proper declarations)
    (ended : ∀ name, checker.progress? name ≠ some .pending ∧ checker.progress? name ≠ some .busy) :
    checker.LaysOut declarations := by
  have decided : ∀ name, (∃ decl ∈ declarations, decl.name = name) →
      checker.progress? name = some .done ∨ checker.progress? name = some .failed := by
    intro name declared
    obtain ⟨progress, was⟩ := Option.isSome_iff_exists.mp
      ((searched.isSome_progress? name).mpr declared)
    cases progress with
    | done => exact .inl was
    | failed => exact .inr was
    | pending => exact absurd was (ended name).1
    | busy => exact absurd was (ended name).2
  refine ⟨fun decl mem => ⟨searched.acyclic laid proper, fun acyclic => ?_⟩,
    ⟨?_, ?_⟩, fun problem mem name cause => ?_, searched.built, fun decl mem done =>
      laid.tight (searched.built decl mem done)⟩
  · exact (decided _ ⟨decl, mem, rfl⟩).resolve_right fun failed =>
      acyclic (searched.failed _ failed)
  · rintro ⟨problem, mem, -⟩
    obtain ⟨name, -, cycle⟩ := searched.reported problem mem
    exact ⟨name, cycle⟩
  · rintro ⟨name, cycle⟩
    by_contra none
    have clean : checker.problems = #[] := by
      apply Array.eq_empty_iff_size_eq_zero.mpr
      by_contra some
      have inside := Array.getElem_mem (Nat.pos_of_ne_zero some)
      obtain ⟨struct, cause, -⟩ := searched.reported _ inside
      exact none ⟨_, inside, struct, cause⟩
    have declared : ∃ decl ∈ declarations, decl.name = name := by
      obtain ⟨_, holds, _⟩ := Relation.TransGen.head'_iff.mp cycle
      obtain ⟨-, decl, mem, named, -⟩ := holds
      exact ⟨decl, mem, named⟩
    exact searched.acyclic laid proper ((decided name declared).resolve_right
      (laid.failed clean name))
      ⟨name, .refl, cycle⟩
  · obtain ⟨found, cause', cycle⟩ := searched.reported problem mem
    obtain rfl := ProblemCause.containsItself.inj (cause'.symm.trans cause)
    exact cycle

/-- Structs lie the same in two searches through the same declarations. -/
theorem Searched.get_eq {declarations' : List StructDecl} (searched : before.Searched declarations)
    (searched' : after.Searched declarations') (laid : before.Laid) (laid' : after.Laid)
    (same : ∀ decl, decl ∈ declarations' ↔ decl ∈ declarations)
    (both : ∀ name, before.progress? name = some .done → after.progress? name = some .done)
    (name : Text) (done : before.progress? name = some .done) :
    after.environment.structs.get name = before.environment.structs.get name := by
  have known : ∀ name, (after.environment.structs.get? name).isSome =
      (before.environment.structs.get? name).isSome := by
    intro name
    rw [laid'.known, laid.known, Bool.eq_iff_iff, searched.isSome_progress?,
      searched'.isSome_progress?]
    simp [same]
  induction name using laid.nested.wellFounded.induction with
  | _ name ih =>
    have layout : ∀ mem ∈ (before.environment.structs.get name).members,
        after.environment.structs.shapeOf mem.type = before.environment.structs.shapeOf mem.type ∧
        after.environment.structs.sizeOf mem.type = before.environment.structs.sizeOf mem.type ∧
        after.environment.structs.alignOf mem.type =
          before.environment.structs.alignOf mem.type := by
      intro mem inside
      refine StructTable.layout_congr fun inner struct => ?_
      have done' := (laid.members name mem inside).1 inner struct
      have there : (before.environment.structs.get? inner).isSome := by
        rw [laid.known, done']
        rfl
      rw [StructTable.get?_eq_get there, StructTable.get?_eq_get ((known inner).trans there),
        ih inner ⟨mem, inside, struct⟩ done']
    obtain ⟨decl, mem, rfl⟩ := (searched.isSome_progress? name).mp (by rw [done]; rfl)
    have here := (searched.built decl mem done).congr ⟨known, fun found inside =>
      (layout found inside).1, fun found inside => (layout found inside).2.1, fun found inside =>
      (layout found inside).2.2⟩
    exact (searched'.built decl ((same decl).mpr mem) (both _ done)).unique here

/-- What a check finds after the structs does not matter. -/
theorem LaysOut.rested (laysOut : before.LaysOut declarations) (rested : before.Rested after) :
    after.LaysOut declarations where
  complete decl mem := by
    rw [rested.progress?_eq]
    exact laysOut.complete decl mem
  reported := by
    rw [← laysOut.reported]
    constructor
    · rintro ⟨problem, mem, name, cause⟩
      exact ⟨problem, rested.added problem mem (by rw [cause]; rfl), name, cause⟩
    · rintro ⟨problem, mem, circular⟩
      exact ⟨problem, rested.problems problem mem, circular⟩
  sound problem mem name cause :=
    laysOut.sound problem (rested.added problem mem (by rw [cause]; rfl)) name cause
  built decl mem done := by
    rw [rested.progress?_eq] at done
    rw [rested.structs]
    have same := rested.structs
    exact (laysOut.built decl mem done).congr
      ⟨fun _ => by rw [same], fun _ _ => by rw [same], fun _ _ => by rw [same],
        fun _ _ => by rw [same]⟩
  natural decl mem done := by
    rw [rested.progress?_eq] at done
    rw [rested.structs]
    exact laysOut.natural decl mem done

/-- The recorded members of structs lead to ever smaller values: each is a value of a struct that is
done, if of any, and no struct leads back to itself. So the scalars of a value are those of its
members. -/
structure Grounded (checker : Checker) : Prop where
  members : ∀ name, ∀ mem ∈ (checker.environment.structs.get name).members,
    checker.Complete mem.type
  wellFounded : WellFounded checker.environment.structs.Nests
  leaves : ∀ name, checker.environment.structs.leavesOf ⟨.struct name, 0⟩ =
    ((checker.environment.structs.get name).members.map fun mem =>
      checker.environment.structs.leavesOf mem.type).sum
  slots : ∀ name offset, (checker.environment.structs.shapeOf ⟨.struct name, 0⟩).slots offset =
    (checker.environment.structs.get name).members.flatMap fun mem =>
      (checker.environment.structs.shapeOf mem.type).slots (offset + mem.offset)

end Checker

namespace StructDecl

variable {declarations declarations' : List StructDecl}

/-- Declarations in another order hold the same values. -/
theorem holds_congr (same : declarations.Perm declarations') :
    Holds declarations' = Holds declarations := by
  funext outer inner
  simp only [Holds, same.mem_iff]

/-- The order of proper declarations does not matter. -/
theorem Proper.perm (proper : Proper declarations)
    (same : declarations.Perm declarations') : Proper declarations' where
  names := (same.map StructDecl.name).nodup_iff.mp proper.names
  free decl mem := proper.free decl (same.mem_iff.mpr mem)
  members decl mem := proper.members decl (same.mem_iff.mpr mem)
  known decl mem field inside := by
    simpa only [same.mem_iff] using
      proper.known decl (same.mem_iff.mpr mem) field inside
  solid decl mem := proper.solid decl (same.mem_iff.mpr mem)

end StructDecl

namespace Checker

variable {declarations : List StructDecl} {before after : Checker}

/-- Laid out structs are grounded. -/
theorem Laid.grounded {checker : Checker} (laid : checker.Laid) : checker.Grounded where
  members name mem inside := (laid.members name mem inside).1
  wellFounded := laid.nested.wellFounded
  leaves := laid.leaves
  slots name offset := by
    show (Shape.record _).slots offset = _
    rw [Shape.slots, Shape.partSlots_map]
    refine List.flatMap_congr fun mem inside => ?_
    rw [laid.nested name mem inside]

variable {declarations' : List StructDecl}

/-- A struct that has a layout has one when the declarations come in another order. -/
theorem LaysOut.done_of_perm (first : before.LaysOut declarations)
    (second : after.LaysOut declarations') (searched : before.Searched declarations)
    (same : declarations.Perm declarations') {name : Text}
    (done : before.progress? name = some .done) : after.progress? name = some .done := by
  obtain ⟨decl, mem, rfl⟩ := (searched.isSome_progress? name).mp (by rw [done]; rfl)
  refine (second.complete decl (same.mem_iff.mp mem)).mpr ?_
  rw [Cyclic, StructDecl.holds_congr same]
  exact (first.complete decl mem).mp done

/-- A search goes as far whatever order the declarations come in. -/
theorem LaysOut.progress?_eq (first : before.LaysOut declarations)
    (second : after.LaysOut declarations') (searched : before.Searched declarations)
    (searched' : after.Searched declarations') (same : declarations.Perm declarations')
    (ended : ∀ name, before.progress? name ≠ some .pending ∧ before.progress? name ≠ some .busy)
    (ended' : ∀ name, after.progress? name ≠ some .pending ∧ after.progress? name ≠ some .busy)
    (name : Text) : after.progress? name = before.progress? name := by
  have known : (after.progress? name).isSome ↔ (before.progress? name).isSome := by
    rw [searched.isSome_progress?, searched'.isSome_progress?]
    simp only [same.mem_iff]
  have back := @LaysOut.done_of_perm _ _ _ _ second first searched' same.symm name
  cases was : before.progress? name with
  | none =>
    rw [was] at known
    simpa using known
  | some progress =>
    obtain ⟨progress', was'⟩ := Option.isSome_iff_exists.mp (known.mpr (by rw [was]; rfl))
    cases progress with
    | done => exact first.done_of_perm second searched same was
    | pending => exact absurd was (ended name).1
    | busy => exact absurd was (ended name).2
    | failed =>
      cases progress' with
      | failed => exact was'
      | pending => exact absurd was' (ended' name).1
      | busy => exact absurd was' (ended' name).2
      | done =>
        rw [was] at back
        cases back was'

/-- Structs get the layouts of their declarations. When the declarations are proper, exactly the
structs that reach a cycle are left without one, a cycle is reported exactly if there is one, and
neither progress nor layouts depend on the order of declarations and files. For all declarations,
recorded members are values of structs that are done, and the listing of scalars ends. -/
theorem layouts_ofFiles (files : List SourceFile) :
    (Proper (SourceFile.declared files) →
      (ofFiles files).LaysOut (SourceFile.declared files)) ∧
    (∀ files', Proper (SourceFile.declared files) →
      (SourceFile.declared files).Perm (SourceFile.declared files') → ∀ name,
        (ofFiles files').progress? name = (ofFiles files).progress? name ∧
        ((ofFiles files).progress? name = some .done →
          (ofFiles files').environment.structs.get name =
            (ofFiles files).environment.structs.get name)) ∧
    (ofFiles files).Grounded := by
  refine ⟨fun proper => ?_, fun files' proper same name => ?_, (laid_ofFiles files).grounded⟩
  · obtain ⟨searched, ended⟩ := Check.searched_structs proper
    exact (searched.laysOut (Check.meets_structs files).1 proper ended).rested
      (rested_ofFiles files)
  · have proper' := proper.perm same
    obtain ⟨searched, ended⟩ := Check.searched_structs proper
    obtain ⟨searched', ended'⟩ := Check.searched_structs proper'
    have laid := (Check.meets_structs files).1
    have laid' := (Check.meets_structs files').1
    have progress := (searched.laysOut laid proper ended).progress?_eq
      (searched'.laysOut laid' proper' ended') searched searched' same ended ended'
    have rested := rested_ofFiles files
    have rested' := rested_ofFiles files'
    rw [rested.progress?_eq, rested'.progress?_eq, rested.structs, rested'.structs]
    exact ⟨progress name, searched.get_eq searched' laid laid' (fun _ => same.mem_iff.symm)
      (fun other done => (progress other).trans done) name⟩

/-- Structs in two files, of which two hold each other. -/
def circling : List Source :=
  [⟨"first.tin", "struct Outer \x7b inner: Inner; tag: char; \x7d\nstruct Loop \x7b back: Back; \x7d\n"⟩,
    ⟨"second.tin", "struct Inner \x7b tag: char; count: int; \x7d\n" ++
      "struct Back \x7b next: Outer*; loop: Loop; \x7d\n"⟩]

/-- The structs of two files get their layouts in either order of the files. -/
theorem layouts_ofFiles_circling :
    Proper (SourceFile.declared (Build.filesOf circling)) ∧
    (SourceFile.declared (Build.filesOf circling)).Perm
      (SourceFile.declared (Build.filesOf circling.reverse)) ∧
    (ofFiles (Build.filesOf circling)).progress? "Outer" = some .done ∧
    (ofFiles (Build.filesOf circling)).progress? "Back" = some .failed ∧
    (ofFiles (Build.filesOf circling)).LaysOut (SourceFile.declared (Build.filesOf circling)) ∧
    (ofFiles (Build.filesOf circling.reverse)).environment.structs.get "Outer" =
      (ofFiles (Build.filesOf circling)).environment.structs.get "Outer" ∧
    (ofFiles (Build.filesOf circling)).Grounded := by
  have proper : Proper (SourceFile.declared (Build.filesOf circling)) :=
    ⟨by decide, by decide, by decide, by decide, by decide⟩
  have known : (SourceFile.declared (Build.filesOf circling)).Perm
        (SourceFile.declared (Build.filesOf circling.reverse)) ∧
      (ofFiles (Build.filesOf circling)).progress? "Outer" = some .done ∧
      (ofFiles (Build.filesOf circling)).progress? "Back" = some .failed := by decide +kernel
  obtain ⟨same, done, failed⟩ := known
  exact ⟨proper, same, done, failed, (layouts_ofFiles _).1 proper,
    ((layouts_ofFiles _).2.1 _ proper same _).2 done, (layouts_ofFiles _).2.2⟩

/-- Where sizes wrap around, members stand far behind the end of their struct. -/
theorem not_tight_spreading :
    Proper (SourceFile.declared [spreading]) ∧
    (ofFiles [spreading]).progress? "U" = some .done ∧
    ((ofFiles [spreading]).environment.structs.get "U").size = 96 ∧
    (∃ mem ∈ ((ofFiles [spreading]).environment.structs.get "U").members,
        mem.offset = 2 ^ 63 + 16) ∧
    ¬ (ofFiles [spreading]).environment.structs.Tight
      ((ofFiles [spreading]).environment.structs.get "U") := by
  have proper : Proper (SourceFile.declared [spreading]) :=
    ⟨by decide, by decide, by decide, by decide, by decide⟩
  obtain ⟨-, -, -, done, size, offsets⟩ := spreading_checked
  have listed : 2 ^ 63 + 16 ∈ ((ofFiles [spreading]).environment.structs.get "U").members.map
      Member.offset := by
    rw [offsets]
    exact List.mem_map.mpr ⟨1, by decide, rfl⟩
  obtain ⟨mem, inside, far⟩ := List.mem_map.mp listed
  refine ⟨proper, done, size, ⟨mem, inside, far⟩, fun tight => ?_⟩
  have short := (tight.inside mem inside).2
  rw [size, far] at short
  omega

end Checker

end TinLang
