import TinLang.Proofs.Machine.Slots

/-!
# Structs after a check

What the layout leaves of the structs stays as it is for the rest of a check, whatever problems
there are. So a struct that is done holds its values in order inside its bytes, one access reaches
each of their scalars, and the scalars of a member stand together among them, behind as many as the
members before it have.
-/
namespace TinLang

namespace Checker

variable {before after : Checker}

/-- Two checks with the same structs have made the same progress. -/
theorem Rested.progress?_eq (rested : before.Rested after) (name : Text) :
    after.progress? name = before.progress? name := by
  rw [progress?, progress?, rested.drafts]

/-- A check with the structs of one that is laid out is laid out. -/
theorem Laid.rested (laid : before.Laid) (rested : before.Rested after) : after.Laid := by
  have progress := rested.progress?_eq
  refine ⟨fun name => ?_, fun name => ?_, fun name mem inside => ?_, fun name => ?_,
    fun name done => ?_, fun name waits => ?_, fun none name failed => ?_⟩
  · rw [rested.structs, progress]
    exact laid.known name
  · rw [rested.structs]
    exact laid.aligned name
  · rw [rested.structs] at inside ⊢
    obtain ⟨complete, shape⟩ := laid.members name mem inside
    exact ⟨fun inner struct => (progress inner).trans (complete inner struct), shape⟩
  · rw [rested.structs]
    exact laid.distinct name
  · rw [rested.structs]
    exact laid.done name ((progress name).symm.trans done)
  · rw [rested.structs]
    exact laid.waiting name ((progress name).symm.trans waits)
  · refine laid.failed ?_ name ((progress name).symm.trans failed)
    apply Array.eq_empty_iff_size_eq_zero.mpr
    by_contra some
    have inside := rested.problems _ (Array.getElem_mem (Nat.pos_of_ne_zero some))
    rw [none] at inside
    simp at inside

/-- Nothing after the structs changes them. -/
theorem rested_ofFiles (files : List SourceFile) :
    ((Check.structs files).run {}).2.Rested (ofFiles files) := by
  have rest : Check.Lasting (do
      files.forM fun file => file.funcs.forM (Check.function file)
      files.forM fun file => file.consts.forM (Check.constant file)
      Check.globals files) :=
    .bind (Check.Tame.forM fun _ => .forM fun _ => Check.tame_function _ _).lasting fun _ =>
    .bind (Check.Tame.forM fun _ => .forM fun _ => Check.tame_constant _ _).lasting fun _ =>
    .forM fun _ => .forM fun _ => Check.lasting_global _ _
  rw [ofFiles_eq]
  exact (rest _).2.trans (Check.Lasting.forM Check.lasting_strings _).2

/-- Checking lays the structs of the files out. -/
theorem laid_ofFiles (files : List SourceFile) : (ofFiles files).Laid :=
  (Check.meets_structs files).1.rested (rested_ofFiles files)

/-- Members of structs lie in them as values of their types do elsewhere. -/
theorem nested_ofFiles (files : List SourceFile) : (ofFiles files).environment.structs.Nested :=
  fun name mem inside => ((laid_ofFiles files).members name mem inside).2

/-- One access reaches each scalar of a struct. -/
theorem sized_ofFiles (files : List SourceFile) (name : Text) :
    ((ofFiles files).environment.structs.get name).shape.Sized :=
  (nested_ofFiles files).sized_of_eq (placed_ofFiles files).structs
    (show (⟨.struct name, 0⟩ : ValueType) ≠ .void by simp [ValueType.void]) rfl

end Checker

namespace StructType

variable {struct : StructType} {mem : Member}

/-- The scalars before a member are those of the members before it. -/
theorem leavesBefore_append {name : Text} {before after : List Member} (align size : Nat)
    (apart : ∀ other ∈ before, other.name ≠ mem.name) :
    leavesBefore ⟨name, before ++ mem :: after, size, align⟩ mem.name =
      Shape.partLeaves (before.map fun other => (other.offset, other.shape)) := by
  induction before with
  | nil => simp [leavesBefore, Shape.partLeaves]
  | cons first before ih =>
    have rest := ih fun other inside => apart other (List.mem_cons_of_mem _ inside)
    have differs := apart first List.mem_cons_self
    rw [leavesBefore] at rest ⊢
    rw [List.map_cons, Shape.partLeaves, ← rest, List.cons_append, List.takeWhile_cons,
      if_pos (by simpa using differs), List.map_cons, List.foldr_cons]

/-- The scalars of a member stand together among those of the struct. -/
theorem slots_of_mem (distinct : (struct.members.map Member.name).Nodup)
    (accessed : struct.shape.Accessed) (inside : mem ∈ struct.members) (offset : Int) :
    ∃ before after,
      struct.shape.slots offset = before ++ mem.shape.slots (offset + mem.offset) ++ after ∧
        before.length = struct.leavesBefore mem.name := by
  obtain ⟨name, members, size, align⟩ := struct
  obtain ⟨before, after, rfl⟩ := List.append_of_mem inside
  have apart : ∀ other ∈ before, other.name ≠ mem.name := by
    intro other earlier same
    rw [List.map_append, List.map_cons, List.nodup_append] at distinct
    exact distinct.2.2 other.name (List.mem_map_of_mem earlier) mem.name List.mem_cons_self same
  have shape : Shape.slots offset (shape ⟨name, before ++ mem :: after, size, align⟩) =
      Shape.partSlots offset (before.map fun other => (other.offset, other.shape)) ++
        mem.shape.slots (offset + mem.offset) ++
        Shape.partSlots offset (after.map fun other => (other.offset, other.shape)) := by
    rw [StructType.shape, Shape.slots, List.map_append, Shape.partSlots_append, List.map_cons,
      Shape.partSlots, List.append_assoc]
  refine ⟨_, _, shape, ?_⟩
  rw [leavesBefore_append _ _ apart]
  refine Shape.length_partSlots (fun place slot found => accessed place slot ?_) offset
  show slot ∈ Shape.slots place (StructType.shape ⟨name, before ++ mem :: after, size, align⟩)
  rw [StructType.shape, Shape.slots, List.map_append, Shape.partSlots_append]
  exact List.mem_append_left _ found

end StructType

end TinLang
