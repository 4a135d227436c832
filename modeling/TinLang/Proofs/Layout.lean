import Mathlib.Algebra.Group.Nat.Defs
import TinLang.Compile.Generator
import TinLang.Proofs.Types

/-!
# Layouts of structs

The scalars of a value follow one another in memory, between the start of the value and its end, and
on the operand stack the value takes a word for each of them. A check lays out every struct so, each
after the structs it holds: `Check.layoutStruct` either reports a problem or leaves the struct done,
and never changes a struct that is done. The depth that bounds how deep structs hold one another is
never reached, because a struct that is being laid out is not entered again.
-/
namespace TinLang

theorem naturalAlignment_dvd (size : Int) : naturalAlignment size ∣ 8 := by
  unfold naturalAlignment
  repeat' split
  all_goals decide

/-- Places of scalars follow one another between two offsets. -/
def Slot.Follow (first last : Int) : List Slot → Prop
  | [] => first ≤ last
  | slot :: slots => first ≤ slot.offset ∧ Follow (slot.offset + slot.size) last slots

namespace Slot

variable {first last : Int} {slots : List Slot}

theorem Follow.le (follow : Follow first last slots) : first ≤ last := by
  induction slots generalizing first with
  | nil => exact follow
  | cons slot slots ih =>
    have rest := ih follow.2
    have start := follow.1
    omega

theorem Follow.mono {before after : Int} (follow : Follow first last slots) (below : before ≤ first)
    (above : last ≤ after) : Follow before after slots := by
  induction slots generalizing first before with
  | nil => exact Int.le_trans below (Int.le_trans follow above)
  | cons slot slots ih => exact ⟨Int.le_trans below follow.1, ih follow.2 (Int.le_refl _)⟩

theorem Follow.append {middle : Int} {more : List Slot} (follow : Follow first middle slots)
    (later : Follow middle last more) : Follow first last (slots ++ more) := by
  induction slots generalizing first with
  | nil => exact later.mono follow (Int.le_refl _)
  | cons slot slots ih => exact ⟨follow.1, ih follow.2⟩

/-- Places that follow one another lie between the offsets. -/
theorem Follow.mem (follow : Follow first last slots) {slot : Slot} (mem : slot ∈ slots) :
    first ≤ slot.offset ∧ slot.offset + slot.size ≤ last := by
  induction slots generalizing first with
  | nil => simp at mem
  | cons head slots ih =>
    rcases List.mem_cons.mp mem with rfl | later
    · exact ⟨follow.1, follow.2.le⟩
    · have inside := ih follow.2 later
      have start := follow.1
      omega

/-- Places that follow one another do not overlap. -/
theorem Follow.pairwise (follow : Follow first last slots) :
    slots.Pairwise fun slot later => slot.offset + (slot.size : Int) ≤ later.offset := by
  induction slots generalizing first with
  | nil => exact .nil
  | cons slot slots ih =>
    exact .cons (fun later mem => (follow.2.mem mem).1) (ih follow.2)

end Slot

/-- The scalars of a value lie in order inside its bytes. -/
def Shape.Fits (size : Nat) (shape : Shape) : Prop :=
  ∀ offset : Int, Slot.Follow offset (offset + size) (shape.slots offset)

theorem Shape.fits_scalar (size : Nat) : Fits size (.scalar size) :=
  fun offset => ⟨Int.le_refl offset, Int.le_refl _⟩

/-- Values of the members lie in order inside some bytes, at most a word for each scalar. -/
structure StructTable.Spans (table : StructTable) (size : Nat) (struct : StructType) : Prop where
  fits : struct.shape.Fits size
  within : ∀ mem ∈ struct.members, mem.offset + table.sizeOf mem.type ≤ size
  bounded : size ≤ wordSize * struct.shape.leaves

/-- Values of the members lie in order, unless sizes wrap around. -/
def StructTable.Lies (table : StructTable) (size : Nat) (struct : StructType) : Prop :=
  wordSize * struct.shape.leaves < 2 ^ 63 → table.Spans size struct

namespace StructTable

variable {table other : StructTable} {type : ValueType} {name : Text}

theorem get?_modify_of_ne {change : StructType → StructType} {struct : Text}
    (named : ∀ type, (change type).name = type.name) (apart : name ≠ struct) :
    (table.modify struct change).get? name = table.get? name := by
  unfold get? modify
  induction table with
  | nil => rfl
  | cons type table ih =>
    rw [List.map_cons, List.find?_cons, List.find?_cons, ih]
    by_cases same : type.name = struct
    · have differs : (struct == name) = false := by simp [apart.symm]
      rw [if_pos same, named, same, differs]
    · rw [if_neg same]

theorem get?_modify {change : StructType → StructType}
    (named : ∀ type, (change type).name = type.name) :
    (table.modify name change).get? name = (table.get? name).map change := by
  unfold get? modify
  induction table with
  | nil => rfl
  | cons type table ih =>
    rw [List.map_cons, List.find?_cons, List.find?_cons, ih]
    by_cases same : type.name = name
    · have found : (name == name) = true := by simp
      rw [if_pos same, named, same, found]
      rfl
    · have differs : (type.name == name) = false := by simp [same]
      rw [if_neg same, differs]

theorem get_modify {change : StructType → StructType}
    (named : ∀ type, (change type).name = type.name) (known : (table.get? name).isSome) :
    (table.modify name change).get name = change (table.get name) := by
  obtain ⟨type, found⟩ := Option.isSome_iff_exists.mp known
  rw [get, get, get?_modify named, found]
  rfl

theorem alignOf_dvd (even : ∀ name, (table.get name).align ∣ 8) (type : ValueType) :
    table.alignOf type ∣ 8 := by
  unfold alignOf
  split
  · exact even _
  · exact naturalAlignment_dvd _

/-- The layout of a type depends on its struct only. -/
theorem layout_congr (same : ∀ inner, type.structName? = some inner →
    table.get? inner = other.get? inner) : table.shapeOf type = other.shapeOf type ∧
      table.sizeOf type = other.sizeOf type ∧ table.alignOf type = other.alignOf type := by
  cases struct : type.structName? with
  | some inner =>
    have got : table.get inner = other.get inner := by rw [get, get, same inner struct]
    have size : table.sizeOf type = other.sizeOf type := by
      obtain ⟨base, pointer⟩ := type
      unfold sizeOf
      split <;> simp_all [ValueType.structName?]
    rw [shapeOf, shapeOf, alignOf, alignOf, struct]
    dsimp only
    rw [got]
    exact ⟨rfl, size, rfl⟩
  | none =>
    have size : table.sizeOf type = other.sizeOf type := by
      obtain ⟨base, pointer⟩ := type
      unfold sizeOf
      split <;> simp_all [ValueType.structName?]
    rw [shapeOf, shapeOf, alignOf, alignOf, struct]
    dsimp only
    rw [size]
    exact ⟨rfl, rfl, rfl⟩

/-- A value lies in order when its struct does. -/
theorem fits_shapeOf (lies : ∀ inner, type.structName? = some inner →
      table.Lies (table.get inner).size (table.get inner))
    (small : wordSize * table.leavesOf type < 2 ^ 63) :
    (table.shapeOf type).Fits (table.sizeOf type) ∧
      table.sizeOf type ≤ wordSize * table.leavesOf type := by
  unfold leavesOf shapeOf at *
  split at small
  · next inner struct =>
    have size : table.sizeOf type = (table.get inner).size := by
      obtain ⟨base, pointer⟩ := type
      unfold sizeOf
      split <;> simp_all [ValueType.structName?]
    have spans := lies inner struct small
    rw [size]
    exact ⟨spans.fits, spans.bounded⟩
  · next scalar =>
    refine ⟨Shape.fits_scalar _, ?_⟩
    obtain ⟨base, pointer⟩ := type
    unfold sizeOf
    split <;> simp_all [ValueType.structName?, Shape.leaves, wordSize]

end StructTable

theorem Shape.partSlots_append (offset : Int) (first second : List (Nat × Shape)) :
    partSlots offset (first ++ second) = partSlots offset first ++ partSlots offset second := by
  induction first with
  | nil => rfl
  | cons part first ih =>
    obtain ⟨distance, shape⟩ := part
    rw [List.cons_append, partSlots, partSlots, ih, List.append_assoc]

theorem Shape.partLeaves_append (first second : List (Nat × Shape)) :
    partLeaves (first ++ second) = partLeaves first + partLeaves second := by
  induction first with
  | nil => simp [partLeaves]
  | cons part first ih =>
    obtain ⟨distance, shape⟩ := part
    rw [List.cons_append, partLeaves, partLeaves, ih, Nat.add_assoc]

/-- Another member adds its scalars to those of the struct. -/
theorem Shape.leaves_snoc (struct : StructType) (mem : Member) :
    (record ((struct.members ++ [mem]).map fun mem => (mem.offset, mem.shape))).leaves =
      struct.shape.leaves + mem.shape.leaves := by
  rw [List.map_append, leaves, partLeaves_append, StructType.shape, leaves]
  rfl

/-- The size of a value with few scalars can be rounded up. -/
theorem roomy_of_small {size align leaves : Nat} (even : align ∣ 8)
    (bounded : size ≤ wordSize * leaves)
    (small : wordSize * leaves < 2 ^ 63) : size + align ≤ 2 ^ 63 := by
  have narrow := Nat.le_of_dvd (by decide) even
  unfold wordSize at *
  omega

/-- Rounding a size up to an alignment keeps it within the words of a value. -/
theorem alignUp_bounds {size align leaves : Nat} (even : align ∣ 8)
    (bounded : size ≤ wordSize * leaves)
    (small : wordSize * leaves < 2 ^ 63) :
    size ≤ alignUp size align ∧ alignUp size align ≤ wordSize * leaves := by
  have positive := Nat.pos_of_dvd_of_pos even (by decide)
  have room := roomy_of_small even bounded small
  exact ⟨le_alignUp positive room,
    alignUp_le positive room bounded (Nat.dvd_trans even (Nat.dvd_mul_right _ _))⟩

/-- A type that is written with the name of a struct is that of a struct. -/
theorem Environment.isSome_of_resolve? (env : Environment) {written : TypeExpr}
    {type : ValueType} {inner : Text} (found : env.resolve? written = some type)
    (struct : type.structName? = some inner) : (env.structs.get? inner).isSome := by
  unfold resolve? at found
  split at found
  · next base named =>
    obtain rfl := Option.some.inj found
    have builtin := List.mem_of_find?_eq_some named
    cases base with
    | struct name => simp [BaseType.builtins] at builtin
    | _ => cases pointer : written.pointer <;> simp [ValueType.structName?] at struct
  · obtain ⟨known, got, rfl⟩ := Option.map_eq_some_iff.mp found
    have name : known.name = written.name := by simpa using List.find?_some got
    cases pointer : written.pointer with
    | zero =>
      obtain rfl : known.name = inner := by simpa [ValueType.structName?, pointer] using struct
      rw [name, got]
      rfl
    | succ count => simp [ValueType.structName?, pointer] at struct

namespace Checker

/-- How far the layout of the struct of a name has come. -/
def progress? (checker : Checker) (name : Text) : Option LayoutProgress :=
  (checker.drafts.find? fun draft => draft.declaration.name == name).map StructDraft.progress

/-- How many structs have not been begun. -/
def pending (checker : Checker) : Nat :=
  checker.drafts.countP fun draft => decide (draft.progress = .pending)

/-- A struct that values of the type are is done. -/
def Complete (checker : Checker) (type : ValueType) : Prop :=
  ∀ inner, type.structName? = some inner → checker.progress? inner = some .done

/-- What holds of the structs while they are laid out. -/
structure Laid (checker : Checker) : Prop where
  known : ∀ name,
    (checker.environment.structs.get? name).isSome = (checker.progress? name).isSome
  aligned : ∀ name, (checker.environment.structs.get name).align ∣ 8
  members : ∀ name, ∀ mem ∈ (checker.environment.structs.get name).members,
    checker.Complete mem.type ∧ mem.shape = checker.environment.structs.shapeOf mem.type
  distinct : ∀ name,
    ((checker.environment.structs.get name).members.map Member.name).Nodup
  done : ∀ name, checker.progress? name = some .done → checker.environment.structs.Lies
    (checker.environment.structs.get name).size (checker.environment.structs.get name)
  waiting : ∀ name, checker.progress? name = some .pending →
    (checker.environment.structs.get name).members = [] ∧
      (checker.environment.structs.get name).align = 1
  /-- A struct fails only with a problem. -/
  failed : checker.problems = #[] → ∀ name, checker.progress? name ≠ some .failed

/-- What a step of the layout leaves alone: structs that were begun before and do not move. -/
structure Steady (moving : Text → Prop) (before after : Checker) : Prop where
  known : ∀ name, (after.progress? name).isSome = (before.progress? name).isSome
  progress : ∀ name found, before.progress? name = some found → found ≠ .pending →
    ¬ moving name → after.progress? name = some found
  structs : ∀ name, before.progress? name ≠ some .pending → ¬ moving name →
    after.environment.structs.get? name = before.environment.structs.get? name
  pending : after.pending ≤ before.pending
  problems : after.problems = #[] → before.problems = #[]

variable {moving : Text → Prop} {before between after checker : Checker} {type : ValueType}
  {name : Text}

theorem Steady.refl (checker : Checker) : Steady moving checker checker :=
  ⟨fun _ => rfl, fun _ _ found _ _ => found, fun _ _ _ => rfl, Nat.le_refl _, id⟩

theorem Steady.mono {more : Text → Prop} (steady : Steady moving before after)
    (wider : ∀ name, moving name → before.progress? name ≠ some .pending → more name) :
    Steady more before after where
  known := steady.known
  progress name found was other apart :=
    steady.progress name found was other fun moved => apart (wider name moved (by simpa [was]))
  structs name begun apart := steady.structs name begun fun moved => apart (wider name moved begun)
  pending := steady.pending
  problems := steady.problems

/-- A struct that was begun stays begun. -/
theorem Steady.begun (steady : Steady moving before after)
    (begun : before.progress? name ≠ some .pending) (apart : ¬ moving name) :
    after.progress? name ≠ some .pending := by
  cases found : before.progress? name with
  | none =>
    have unknown : after.progress? name = none := by simpa [found] using steady.known name
    rw [unknown]
    simp
  | some progress =>
    have other : progress ≠ .pending := fun same => begun (found.trans (congrArg some same))
    rw [steady.progress name progress found other apart]
    simpa using other

theorem Steady.trans (first : Steady moving before between) (second : Steady moving between after) :
    Steady moving before after where
  known name := (second.known name).trans (first.known name)
  progress name found was other apart :=
    second.progress name found (first.progress name found was other apart) other apart
  structs name begun apart :=
    (second.structs name (first.begun begun apart) apart).trans (first.structs name begun apart)
  pending := Nat.le_trans second.pending first.pending
  problems clean := first.problems (second.problems clean)

theorem Complete.later (complete : before.Complete type) (steady : Steady moving before after)
    (moves : ∀ name, moving name → before.progress? name ≠ some .done) : after.Complete type :=
  fun inner struct => steady.progress inner .done (complete inner struct) (by simp)
    fun moved => moves inner moved (complete inner struct)

/-- The layout of a complete type is settled. -/
theorem Complete.layout (complete : before.Complete type) (steady : Steady moving before after)
    (moves : ∀ name, moving name → before.progress? name ≠ some .done) :
    after.environment.structs.shapeOf type = before.environment.structs.shapeOf type ∧
      after.environment.structs.sizeOf type = before.environment.structs.sizeOf type ∧
      after.environment.structs.alignOf type = before.environment.structs.alignOf type := by
  refine StructTable.layout_congr fun inner struct => ?_
  have done := complete inner struct
  exact steady.structs inner (by simp [done]) fun moved => moves inner moved done

theorem Laid.fits (laid : checker.Laid) (complete : checker.Complete type)
    (small : wordSize * checker.environment.structs.leavesOf type < 2 ^ 63) :
    (checker.environment.structs.shapeOf type).Fits (checker.environment.structs.sizeOf type) ∧
      checker.environment.structs.sizeOf type ≤
        wordSize * checker.environment.structs.leavesOf type :=
  StructTable.fits_shapeOf (fun inner struct => laid.done inner (complete inner struct)) small

/-- The members of a struct lie the same after a step that changes no struct which is done. -/
theorem Laid.lies (laid : before.Laid) (steady : Steady moving before after)
    (moves : ∀ name, moving name → before.progress? name ≠ some .done) {size : Nat}
    (lies : before.environment.structs.Lies size (before.environment.structs.get name)) :
    after.environment.structs.Lies size (before.environment.structs.get name) := by
  intro small
  refine ⟨(lies small).fits, fun mem inside => ?_, (lies small).bounded⟩
  rw [((laid.members name mem inside).1.layout steady moves).2.1]
  exact (lies small).within mem inside

end Checker

namespace Check

/-- A step from a state ends in a result and a state that satisfy a condition. -/
def Meets {α : Type} (step : Check α) (checker : Checker) (meets : α → Checker → Prop) : Prop :=
  meets (step.run checker).1 (step.run checker).2

variable {α β : Type} {checker : Checker}

theorem Meets.bind {step : Check α} {next : α → Check β} {middle : α → Checker → Prop}
    {meets : β → Checker → Prop} (first : Meets step checker middle)
    (later : ∀ value between, middle value between → Meets (next value) between meets) :
    Meets (step >>= next) checker meets :=
  later _ _ first

theorem Meets.run (step : Check α) :
    Meets step checker fun value after => value = (step.run checker).1 ∧ after =
      (step.run checker).2 :=
  ⟨rfl, rfl⟩

/-- A step that looks at the state. -/
theorem Meets.at {next : Checker → Check β} {meets : β → Checker → Prop}
    (later : Meets (next checker) checker meets) : Meets (get >>= next) checker meets := later

theorem Meets.mono {step : Check α} {meets wanted : α → Checker → Prop}
    (first : Meets step checker meets)
    (weaker : ∀ value later, meets value later → wanted value later) :
    Meets step checker wanted :=
  weaker _ _ first

/-- Zeros are added to the data segment, unless it would become too large. -/
theorem meets_alignData (multiple : Nat) (checker : Checker) :
    Meets (alignData multiple) checker fun _ after => after = { checker with
      program := (checker.program.appendData (padding checker.program.data.size multiple) []).1 } :=
  rfl

theorem meets_reserve (size : Nat) (checker : Checker) :
    Meets (reserve size) checker fun offset after =>
      (offset = none ∧ after = { checker with panicked := true } ∧
        2 ^ 63 ≤ checker.program.data.size + size) ∨
      offset = some checker.program.data.size ∧
        after = { checker with program := (checker.program.appendData size []).1 } ∧
        checker.program.data.size + size < 2 ^ 63 := by
  refine .at ?_
  split
  · next fits => exact .inr ⟨rfl, rfl, fits⟩
  · next large => exact .inl ⟨rfl, rfl, Nat.le_of_not_lt large⟩

theorem progress?_mark (name : Text) (progress : LayoutProgress) (other : Text) :
    Checker.progress? ((mark name progress).run checker).2 other =
      if other = name then (checker.progress? name).map fun _ => progress
      else checker.progress? other := by
  show ((checker.drafts.map _).find? _).map _ = if _ then ((checker.drafts.find? _).map _).map
    _ else
    (checker.drafts.find? _).map _
  induction checker.drafts with
  | nil => simp
  | cons draft drafts ih =>
    rw [List.map_cons, List.find?_cons, List.find?_cons, List.find?_cons]
    by_cases named : draft.declaration.name = name
    · rw [if_pos named]
      by_cases same : other = name
      · simp [same, named]
      · have differs : (name == other) = false := by simp [Ne.symm same]
        rw [if_neg same] at ih ⊢
        simp only [named, differs]
        exact ih
    · rw [if_neg named]
      by_cases here : draft.declaration.name = other
      · have apart : other ≠ name := here ▸ named
        simp [here, apart]
      · have differs : (draft.declaration.name == other) = false := by simp [here]
        have unnamed : (draft.declaration.name == name) = false := by simp [named]
        simp only [differs, unnamed]
        exact ih

/-- A struct is begun once. -/
theorem pending_mark (name : Text) {progress : LayoutProgress} (begun : progress ≠ .pending) :
    Checker.pending ((mark name progress).run checker).2 ≤ checker.pending ∧
      (checker.progress? name = some .pending →
        Checker.pending ((mark name progress).run checker).2 < checker.pending) := by
  show (checker.drafts.map _).countP _ ≤ checker.drafts.countP _ ∧
    ((checker.drafts.find? _).map _ = _ → (checker.drafts.map _).countP _ < checker.drafts.countP _)
  induction checker.drafts with
  | nil => simp
  | cons draft drafts ih =>
    rw [List.map_cons, List.countP_cons, List.countP_cons, List.find?_cons]
    by_cases named : draft.declaration.name = name
    · have found : (draft.declaration.name == name) = true := by simp [named]
      rw [if_pos named, found]
      refine ⟨?_, fun waiting => ?_⟩
      · have rest := ih.1
        simp only [begun, decide_false, Bool.false_eq_true, ↓reduceIte]
        omega
      · have rest := ih.1
        have waits : draft.progress = .pending := by simpa using waiting
        simp only [begun, waits, decide_false, decide_true, Bool.false_eq_true, ↓reduceIte]
        omega
    · have differs : (draft.declaration.name == name) = false := by simp [named]
      rw [if_neg named, differs]
      refine ⟨Nat.add_le_add_right ih.1 _, fun waiting => Nat.add_lt_add_right (ih.2 waiting) _⟩

theorem steady_mark (name : Text) {progress : LayoutProgress} (begun : progress ≠ .pending) :
    Checker.Steady (· = name) checker ((mark name progress).run checker).2 where
  known other := by
    rw [progress?_mark]
    split
    · next same => simp [same]
    · rfl
  progress other found was _ apart := by rw [progress?_mark, if_neg apart, was]
  structs _ _ _ := rfl
  pending := (pending_mark name begun).1
  problems := id

/-- A change of how far one struct has come. -/
theorem laid_mark (laid : checker.Laid) {name : Text} {progress : LayoutProgress}
    (begun : checker.progress? name ≠ some .done)
    (done : progress = .done → checker.environment.structs.Lies
      (checker.environment.structs.get name).size (checker.environment.structs.get name))
    (failed : progress = .failed → checker.problems ≠ #[]) (other : progress ≠ .pending) :
    Checker.Laid ((mark name progress).run checker).2 := by
  have steady := @steady_mark checker name progress other
  refine ⟨fun found => (laid.known found).trans (steady.known found).symm, laid.aligned,
    fun found mem inside => ?_, laid.distinct, fun found was => ?_, fun found was => ?_,
    fun clean found => ?_⟩
  · obtain ⟨complete, shape⟩ := laid.members found mem inside
    exact ⟨complete.later steady fun _ same => same ▸ begun, shape⟩
  · rw [progress?_mark] at was
    split at was
    · next same =>
      subst same
      obtain ⟨-, -, rfl⟩ := Option.map_eq_some_iff.mp was
      exact done rfl
    · exact laid.done found was
  · rw [progress?_mark] at was
    split at was
    · obtain ⟨-, -, rfl⟩ := Option.map_eq_some_iff.mp was
      contradiction
    · exact laid.waiting found was
  · rw [progress?_mark]
    split
    · intro was
      obtain ⟨-, -, rfl⟩ := Option.map_eq_some_iff.mp was
      exact failed rfl clean
    · exact laid.failed clean found

/-- A change of a struct that is being laid out. -/
theorem laid_modify (laid : checker.Laid) {struct : Text} {change : StructType → StructType}
    (busy : checker.progress? struct = some .busy) (named : ∀ type, (change type).name = type.name)
    (aligned : ∀ type, type.align ∣ 8 → (change type).align ∣ 8)
    (members : ∀ mem ∈ (change (checker.environment.structs.get struct)).members,
      mem ∈ (checker.environment.structs.get struct).members ∨
        checker.Complete mem.type ∧
          mem.shape = checker.environment.structs.shapeOf mem.type)
    (distinct : ((change (checker.environment.structs.get struct)).members.map Member.name).Nodup) :
    Meets (extend fun env => { env with
      structs := env.structs.modify struct change }) checker fun _ after =>
        after.Laid ∧ Checker.Steady (· = struct) checker after ∧
        after.progress? struct = some .busy ∧
        after.environment.structs.get struct = change (checker.environment.structs.get struct) := by
  have found : (checker.environment.structs.get? struct).isSome := by
    rw [laid.known, busy]
    rfl
  have moves : ∀ name, name = struct → checker.progress? name ≠ some .done := by
    rintro name rfl
    simp [busy]
  have apart : ∀ name, name ≠ struct →
      (checker.environment.structs.modify struct change).get? name =
        checker.environment.structs.get? name :=
    fun name other => StructTable.get?_modify_of_ne named other
  have rest : ∀ name, name ≠ struct →
      (checker.environment.structs.modify struct change).get name =
        checker.environment.structs.get name :=
    fun name other => by rw [StructTable.get, StructTable.get, apart name other]
  have here : (checker.environment.structs.modify struct change).get struct =
      change (checker.environment.structs.get struct) := StructTable.get_modify named found
  have steady : Checker.Steady (· = struct) checker { checker with environment :=
      { checker.environment with structs := checker.environment.structs.modify struct change } } :=
    ⟨fun _ => rfl, fun _ _ was _ _ => was, fun name _ other => apart name other, Nat.le_refl _, id⟩
  refine ⟨⟨fun name => ?_, fun name => ?_, fun name mem inside => ?_, fun name => ?_,
    fun name was => ?_, fun name was => ?_, laid.failed⟩, steady, busy, here⟩
  · by_cases same : name = struct
    · rw [same]
      show ((checker.environment.structs.modify struct change).get? struct).isSome = _
      rw [StructTable.get?_modify named, Option.isSome_map]
      exact laid.known struct
    · show ((checker.environment.structs.modify struct change).get? name).isSome = _
      rw [apart name same]
      exact laid.known name
  · by_cases same : name = struct
    · rw [same]
      exact here ▸ aligned _ (laid.aligned struct)
    · exact (rest name same).symm ▸ laid.aligned name
  · obtain ⟨complete, shape⟩ : checker.Complete mem.type ∧
        mem.shape = checker.environment.structs.shapeOf mem.type := by
      by_cases same : name = struct
      · rw [same] at inside
        rcases members mem (here ▸ inside) with old | new
        · exact laid.members struct mem old
        · exact new
      · exact laid.members name mem (rest name same ▸ inside)
    exact ⟨complete, shape.trans (complete.layout steady moves).1.symm⟩
  · by_cases same : name = struct
    · rw [same]
      exact here ▸ distinct
    · exact (rest name same).symm ▸ laid.distinct name
  · have other : name ≠ struct := fun same => moves name same was
    exact (rest name other).symm ▸ laid.lies steady moves (laid.done name was)
  · have other : name ≠ struct := by
      rintro rfl
      have busy' : checker.progress? name = some .pending := was
      simp [busy] at busy'
    exact (rest name other).symm ▸ laid.waiting name was

/-- Another member at the next offset. -/
theorem meets_placeMember (laid : checker.Laid) {struct : Text} {offset : Nat} (name : Text)
    {type : ValueType} (busy : checker.progress? struct = some .busy)
    (complete : checker.Complete type)
    (lies : checker.environment.structs.Lies offset (checker.environment.structs.get struct))
    (fresh : ∀ mem ∈ (checker.environment.structs.get struct).members, mem.name ≠ name) :
    Meets (placeMember struct offset name type) checker fun next after =>
      after.Laid ∧ Checker.Steady (· = struct) checker after ∧
      after.progress? struct = some .busy ∧
      after.environment.structs.Lies next (after.environment.structs.get struct) ∧
      ∀ mem ∈ (after.environment.structs.get struct).members, mem.name = name ∨
        mem ∈ (checker.environment.structs.get struct).members := by
  have even := StructTable.alignOf_dvd laid.aligned type
  refine .at (Meets.bind (@laid_modify checker laid struct
    (fun found => { found with
      members := found.members ++ [⟨name, type,
        alignUp offset (checker.environment.structs.alignOf type),
        checker.environment.structs.shapeOf type⟩]
      align := max found.align (checker.environment.structs.alignOf type) })
    busy (fun _ => rfl) (fun _ before => by rw [Nat.max_def]; split <;> assumption) ?_ ?_) ?_)
  · intro mem inside
    rcases List.mem_append.mp inside with old | new
    · exact .inl old
    · rw [List.mem_singleton.mp new]
      exact .inr ⟨complete, rfl⟩
  · rw [List.map_append, List.nodup_append]
    refine ⟨laid.distinct struct, by simp, fun first old second new same => ?_⟩
    obtain ⟨mem, inside, rfl⟩ := List.mem_map.mp old
    exact fresh mem inside (same.trans (by simpa using new))
  · rintro - after ⟨laid', steady, busy', here⟩
    have named : ∀ mem ∈ (after.environment.structs.get struct).members, mem.name = name ∨
        mem ∈ (checker.environment.structs.get struct).members := by
      intro mem inside
      rw [here] at inside
      rcases List.mem_append.mp inside with old | new
      · exact .inr old
      · rw [List.mem_singleton.mp new]
        exact .inl rfl
    have moves : ∀ name, name = struct → checker.progress? name ≠ some .done := by
      rintro name rfl
      simp [busy]
    refine ⟨laid', steady, busy', ?_, named⟩
    show after.environment.structs.Lies (wrapUnsigned (alignUp offset
      (checker.environment.structs.alignOf type) + checker.environment.structs.sizeOf type))
      (after.environment.structs.get struct)
    rw [here]
    intro small
    have leaves := Shape.leaves_snoc (checker.environment.structs.get struct) ⟨name, type,
      alignUp offset (checker.environment.structs.alignOf type),
      checker.environment.structs.shapeOf type⟩
    change _ = _ + checker.environment.structs.leavesOf type at leaves
    rw [StructType.shape, leaves, Nat.mul_add] at small
    have few := Nat.lt_of_le_of_lt (Nat.le_add_right _ _) small
    have spans := lies few
    obtain ⟨fits, bounded⟩ := laid.fits complete (Nat.lt_of_le_of_lt (Nat.le_add_left _ _) small)
    obtain ⟨reached, within⟩ := alignUp_bounds even spans.bounded few
    rw [wrapUnsigned_add (by omega)]
    refine ⟨fun place => ?_, fun mem inside => ?_, ?_⟩
    · have first := (spans.fits place).mono (Int.le_refl _)
        (show _ ≤ place + (alignUp offset (checker.environment.structs.alignOf type) :
          Nat) by omega)
      have second := fits (place + (alignUp offset (checker.environment.structs.alignOf type) :
        Nat))
      have all := first.append second
      rw [StructType.shape, List.map_append, Shape.slots, Shape.partSlots_append]
      rw [StructType.shape, Shape.slots] at all
      simpa [Shape.partSlots, Int.add_assoc] using all
    · rcases List.mem_append.mp inside with old | new
      · have below := (laid.lies steady moves lies few).within mem old
        omega
      · obtain rfl := List.mem_singleton.mp new
        exact Nat.le_of_eq (congrArg (alignUp offset _ + ·) (complete.layout steady moves).2.1)
    · rw [StructType.shape, leaves, Nat.mul_add]
      exact Nat.add_le_add within bounded

/-- The end of a struct whose members are placed. -/
theorem meets_endStruct (laid : checker.Laid) {struct : Text} {offset : Nat}
    (busy : checker.progress? struct = some .busy)
    (lies : checker.environment.structs.Lies offset (checker.environment.structs.get struct)) :
    Meets (extend fun env => { env with
      structs := env.structs.modify struct fun found =>
        { found with size := alignUp offset found.align } }) checker fun _ after =>
      after.Laid ∧ Checker.Steady (· = struct) checker after ∧
      after.progress? struct = some .busy ∧ after.environment.structs.Lies
        (after.environment.structs.get struct).size (after.environment.structs.get struct) := by
  refine Meets.mono (@laid_modify checker laid struct
    (fun found => { found with size := alignUp offset found.align }) busy (fun _ => rfl)
    (fun _ => id) (fun _ => .inl) (laid.distinct struct)) ?_
  rintro - after ⟨laid', steady, busy', here⟩
  refine ⟨laid', steady, busy', ?_⟩
  rw [here]
  intro small
  have spans := laid.lies steady (by rintro name rfl; simp [busy]) lies small
  obtain ⟨reached, within⟩ := alignUp_bounds (laid.aligned struct) spans.bounded small
  exact ⟨fun place => (spans.fits place).mono (Int.le_refl _) (by dsimp only; omega),
    fun mem inside => Nat.le_trans (spans.within mem inside) reached, within⟩

/-- What the layout of the struct of a name does, as long as few structs are left. -/
def Layouts (layout : Text → Check Bool) (bound : Nat) : Prop :=
  ∀ (name : Text) (checker : Checker), checker.Laid → (checker.progress? name).isSome →
    checker.pending < bound → Meets (layout name) checker fun complete after =>
      after.Laid ∧ Checker.Steady (fun _ => False) checker after ∧
      (complete = true → after.progress? name = some .done) ∧
      (after.problems = #[] → complete = true)

/-- After a report there is a problem. -/
theorem laid_report (laid : checker.Laid) (file : Text) (span : Span) (cause : ProblemCause) :
    Meets (report file span cause) checker fun _ after => after.Laid ∧
      (∀ moving, Checker.Steady moving checker after) ∧ after.drafts = checker.drafts ∧
      after.problems ≠ #[] := by
  have reported : checker.problems.push ⟨file, span.start, cause⟩ ≠ #[] := by simp
  exact ⟨⟨laid.known, laid.aligned, laid.members, laid.distinct, laid.done, laid.waiting,
      fun clean => absurd clean reported⟩,
    fun _ => ⟨fun _ => rfl, fun _ _ was _ _ => was, fun _ _ _ => rfl, Nat.le_refl _,
      fun clean => absurd clean reported⟩, rfl, reported⟩

/-- A type that is named is known. -/
theorem meets_resolve (laid : checker.Laid) (file : Text) (type : TypeExpr) :
    Meets (resolve file type) checker fun found after => after.Laid ∧
      (∀ moving, Checker.Steady moving checker after) ∧ after.drafts = checker.drafts ∧
      (∀ known, found = some known → ∀ inner, known.structName? = some inner →
        (after.progress? inner).isSome) ∧
      (after.problems = #[] → found ≠ none) := by
  refine .at ?_
  cases found : checker.environment.resolve? type with
  | none =>
    refine Meets.bind (laid_report laid _ _ _) ?_
    rintro - after ⟨laid', steady, drafts, reported⟩
    exact ⟨laid', steady, drafts, by rintro known ⟨⟩, fun clean => absurd clean reported⟩
  | some known =>
    refine ⟨laid, fun _ => .refl _, rfl, ?_, fun _ => by simp⟩
    intro other same inner struct
    obtain rfl : known = other := Option.some.inj same
    exact (laid.known inner).symm.trans (checker.environment.isSome_of_resolve? found struct)

/-- The members of a struct are laid out one after another. -/
theorem meets_placeMembers {layout : Text → Check Bool} {bound : Nat}
    (layouts : Layouts layout bound)
    (file struct : Text) (fields : List Field) :
    ∀ (offset : Nat) (seen : List Text) (checker : Checker), checker.Laid →
      checker.progress? struct = some .busy → checker.pending < bound →
      checker.environment.structs.Lies offset (checker.environment.structs.get struct) →
      (∀ mem ∈ (checker.environment.structs.get struct).members, mem.name ∈ seen) →
      Meets (placeMembers layout file struct offset seen fields) checker fun complete after =>
        after.Laid ∧ Checker.Steady (· = struct) checker after ∧
        after.progress? struct = some .busy ∧
        (complete = true → after.environment.structs.Lies
          (after.environment.structs.get struct).size (after.environment.structs.get struct)) ∧
        (after.problems = #[] → complete = true) := by
  induction fields with
  | nil =>
    intro offset seen checker laid busy few lies _
    refine Meets.bind (meets_endStruct laid busy lies) ?_
    rintro - after ⟨laid', steady, busy', lies'⟩
    exact ⟨laid', steady, busy', fun _ => lies', fun _ => rfl⟩
  | cons field fields ih =>
    intro offset seen checker laid busy few lies names
    have stays : ∀ {after : Checker}, Checker.Steady (fun _ => False) checker after →
        after.progress? struct = some .busy :=
      fun steady => steady.progress struct .busy busy (by simp) id
    have wide : ∀ {after : Checker}, Checker.Steady (fun _ => False) checker after →
        Checker.Steady (· = struct) checker after := fun steady => steady.mono fun _ none =>
          none.elim
    have refused : ∀ (between : Checker) (span : Span) (cause : ProblemCause), between.Laid →
        Checker.Steady (fun _ => False) checker between →
        Meets (do report file span cause; return false) between fun complete after =>
          after.Laid ∧ Checker.Steady (· = struct) checker after ∧
          after.progress? struct = some .busy ∧
          (complete = true → after.environment.structs.Lies
            (after.environment.structs.get struct).size (after.environment.structs.get struct)) ∧
          (after.problems = #[] → complete = true) := by
      intro between span cause laid' steady
      refine Meets.bind (laid_report laid' file span cause) ?_
      rintro - after ⟨laid'', steady', -, reported⟩
      have whole := steady.trans (steady' _)
      exact ⟨laid'', wide whole, stays whole, by simp, fun clean => absurd clean reported⟩
    have rest : ∀ (between : Checker) (type : ValueType) (complete : Bool),
        field.name ∉ seen → between.Laid →
        Checker.Steady (fun _ => False) checker between →
        (complete = true → between.Complete type) → (between.problems = #[] → complete = true) →
        Meets (if complete then do
            let next ← placeMember struct offset field.name type
            placeMembers layout file struct next (field.name :: seen) fields
          else return false) between fun complete after =>
            after.Laid ∧ Checker.Steady (· = struct) checker after ∧
            after.progress? struct = some .busy ∧
            (complete = true → after.environment.structs.Lies
              (after.environment.structs.get struct).size (after.environment.structs.get struct)) ∧
            (after.problems = #[] → complete = true) := by
      intro between type complete fresh laid' steady known clean
      cases complete with
      | false => exact ⟨laid', wide steady, stays steady, by simp, clean⟩
      | true =>
        have same : between.environment.structs.get struct = checker.environment.structs.get
          struct := by
          rw [StructTable.get, StructTable.get, steady.structs struct (by simp [busy]) id]
        refine Meets.bind
          (meets_placeMember laid' field.name (stays steady) (known rfl)
            (same ▸ laid.lies steady (fun _ none => none.elim) lies)
            fun mem inside taken => fresh (taken ▸ names mem (same ▸ inside))) ?_
        rintro next placed ⟨laid'', steady', busy', lies', members⟩
        have whole := (wide steady).trans steady'
        refine (ih next _ placed laid'' busy' (Nat.lt_of_le_of_lt whole.pending few) lies'
          fun mem inside => ?_).mono ?_
        · rcases members mem inside with new | old
          · exact List.mem_cons.mpr (.inl new)
          · exact List.mem_cons.mpr (.inr (names mem (same ▸ old)))
        rintro complete after ⟨last, steady'', ends⟩
        exact ⟨last, whole.trans steady'', ends⟩
    unfold placeMembers
    by_cases seen : seen.contains field.name
    · rw [if_pos seen]
      exact refused checker _ _ laid (.refl _)
    rw [if_neg seen]
    have fresh : field.name ∉ _ := fun inside => seen (List.contains_iff_mem.mpr inside)
    refine Meets.bind (meets_resolve laid file field.type) ?_
    rintro found resolved ⟨laid', steady, -, known, clean⟩
    have steady := steady fun _ => False
    cases found with
    | none => exact ⟨laid', wide steady, stays steady, by simp, fun none => absurd rfl (clean none)⟩
    | some type =>
      dsimp only
      by_cases nothing : type.isVoid
      · rw [if_pos nothing]
        exact refused resolved _ _ laid' steady
      rw [if_neg nothing]
      cases struct' : type.structName? with
      | none =>
        refine rest resolved type true fresh laid' steady (fun _ inner named => ?_) fun _ => rfl
        simp [struct'] at named
      | some inner =>
        refine Meets.bind (layouts inner resolved laid' (known type rfl inner struct')
          (Nat.lt_of_le_of_lt steady.pending few)) ?_
        rintro complete after ⟨laid'', steady', done, clean'⟩
        refine rest after type complete fresh laid'' (steady.trans steady')
          (fun yes other named => ?_) clean'
        obtain rfl : inner = other := by simpa [struct'] using named
        exact done yes

theorem progress?_of_find? {checker : Checker} {name : Text} {draft : StructDraft}
    (found : checker.drafts.find? (fun draft => draft.declaration.name == name) = some draft) :
    checker.progress? name = some draft.progress := by
  rw [Checker.progress?, found]
  rfl

/-- The layout of a struct leaves it done, unless there is a problem. -/
theorem layouts_layoutStruct (depth : Nat) : Layouts (layoutStruct depth) depth := by
  induction depth with
  | zero => exact fun _ _ _ _ few => absurd few (Nat.not_lt_zero _)
  | succ depth ih =>
    intro name checker laid known few
    refine .at ?_
    cases found : checker.drafts.find? fun draft => draft.declaration.name == name with
    | none => simp [Checker.progress?, found] at known
    | some draft =>
      have was := progress?_of_find? found
      dsimp only
      cases progress : draft.progress with
      | done => exact ⟨laid, .refl _, fun _ => was.trans (congrArg some progress), fun _ => rfl⟩
      | failed =>
        refine ⟨laid, .refl _, (nomatch ·), fun clean => ?_⟩
        exact absurd (was.trans (congrArg some progress)) (laid.failed clean name)
      | busy =>
        refine Meets.bind (laid_report laid _ _ _) ?_
        rintro - after ⟨laid', steady, -, reported⟩
        exact ⟨laid', steady _, (nomatch ·), fun clean => absurd clean reported⟩
      | pending =>
        rw [progress] at was
        have begun : checker.progress? name ≠ some .done := by simp [was]
        have started := @laid_mark checker laid name .busy begun (by simp) (by simp) (by simp)
        have steady := @steady_mark checker name .busy (by simp)
        have few' := (@pending_mark checker name .busy (by simp)).2 was
        have busy : Checker.progress? ((mark name .busy).run checker).2 name = some .busy := by
          rw [progress?_mark, if_pos rfl, was]
          rfl
        have empty : checker.environment.structs.Lies 0 (checker.environment.structs.get name) := by
          refine fun _ => ⟨?_, by simp [(laid.waiting name was).1], Nat.zero_le _⟩
          rw [StructType.shape, (laid.waiting name was).1]
          exact fun place => Int.le_of_eq (Int.add_zero place).symm
        refine Meets.bind (.run (mark name .busy)) ?_
        rintro - - ⟨-, rfl⟩
        refine Meets.bind (meets_placeMembers ih draft.file name draft.declaration.members 0 []
          _ started busy (by omega) empty fun mem inside => ?_) ?_
        · exact absurd inside (by
            show mem ∉ (checker.environment.structs.get name).members
            simp [(laid.waiting name was).1])
        rintro complete filled ⟨laid', steady', busy', lies, clean⟩
        have whole := steady.trans steady'
        have settled : filled.progress? name ≠ some .done := by simp [busy']
        have settle : ∀ {after : Checker}, Checker.Steady (· = name) checker after →
            Checker.Steady (fun _ => False) checker after :=
          fun steady => steady.mono fun other same begun => begun (same ▸ was)
        cases complete with
        | true =>
          refine ⟨laid_mark laid' settled (fun _ => lies rfl) (by simp) (by simp),
            settle (whole.trans (steady_mark name (by simp))), fun _ => ?_, fun _ => rfl⟩
          show Checker.progress? ((mark name .done).run filled).2 name = some .done
          rw [progress?_mark, if_pos rfl, busy']
          rfl
        | false =>
          have reported : filled.problems ≠ #[] := fun none => absurd (clean none) (by simp)
          exact ⟨laid_mark laid' settled (by simp) (fun _ => reported) (by simp),
            settle (whole.trans (steady_mark name (by simp))), (nomatch ·),
            fun none => absurd none reported⟩

/-- What holds while structs are entered and none of them is laid out. -/
structure Entered (checker : Checker) : Prop where
  names : checker.drafts.map (·.declaration.name) =
    checker.environment.structs.map StructType.name
  waiting : ∀ draft ∈ checker.drafts, draft.progress = .pending
  empty : ∀ struct ∈ checker.environment.structs, struct.members = [] ∧ struct.align = 1

theorem Entered.laid (entered : Entered checker) : checker.Laid := by
  have blank : ∀ name, (checker.environment.structs.get name).members = [] ∧
      (checker.environment.structs.get name).align = 1 := by
    intro name
    unfold StructTable.get StructTable.get?
    cases found : checker.environment.structs.find? fun type => type.name == name with
    | none => exact ⟨rfl, rfl⟩
    | some struct => exact entered.empty struct (List.mem_of_find?_eq_some found)
  have unbegun : ∀ name progress, checker.progress? name = some progress → progress = .pending := by
    intro name progress was
    obtain ⟨draft, found, rfl⟩ := Option.map_eq_some_iff.mp was
    exact entered.waiting draft (List.mem_of_find?_eq_some found)
  refine ⟨fun name => ?_, fun name => ?_, fun name mem inside => ?_,
    fun name => ?_, fun name was => ?_, fun name _ => blank name, fun _ name was => ?_⟩
  · have same := congrArg (name ∈ ·) entered.names
    simp only [List.mem_map] at same
    rw [Checker.progress?, Option.isSome_map, StructTable.get?, Bool.eq_iff_iff, List.find?_isSome,
      List.find?_isSome]
    simpa using same.symm
  · rw [(blank name).2]
    exact Nat.one_dvd 8
  · simp [(blank name).1] at inside
  · simp [(blank name).1]
  · exact absurd (unbegun name _ was) (by simp)
  · exact absurd (unbegun name _ was) (by simp)

theorem entered_enterStruct (file : Text) (decl : StructDecl) (entered : Entered checker) :
    Meets (enterStruct file decl) checker fun _ after => Entered after := by
  refine .at ?_
  split
  · exact ⟨entered.names, entered.waiting, entered.empty⟩
  · split
    · exact ⟨entered.names, entered.waiting, entered.empty⟩
    · refine ⟨?_, fun draft mem => ?_, fun struct mem => ?_⟩
      · show (checker.drafts ++ _).map _ = (checker.environment.structs ++ _).map _
        rw [List.map_append, List.map_append, entered.names]
        rfl
      · rcases List.mem_append.mp mem with old | new
        · exact entered.waiting draft old
        · rw [List.mem_singleton.mp new]
      · rcases List.mem_append.mp mem with old | new
        · exact entered.empty struct old
        · rw [List.mem_singleton.mp new]
          exact ⟨rfl, rfl⟩

theorem Meets.forM {step : α → Check PUnit} {items : List α} {holds : Checker → Prop}
    (each : ∀ item ∈ items, ∀ before, holds before → Meets (step item) before fun _ => holds)
    (start : holds checker) : Meets (items.forM step) checker fun _ => holds := by
  induction items generalizing checker with
  | nil => exact start
  | cons item items ih =>
    exact Meets.bind (each item List.mem_cons_self checker start) fun _ between held =>
      ih (fun other mem => each other (List.mem_cons_of_mem _ mem)) held

/-- Every item has its turn: what holds is kept, later states follow earlier ones, and what a turn
ends with lasts. -/
theorem Meets.turns {step : α → Check PUnit} (holds : Checker → Prop)
    (follows : Checker → Checker → Prop) (ends : α → Checker → Prop)
    (same : ∀ before, follows before before)
    (trans : ∀ before between after, follows before between → follows between after →
      follows before after)
    (lasts : ∀ item before after, follows before after → ends item before → ends item after)
    {items : List α}
    (each : ∀ item ∈ items, ∀ before, holds before → Meets (step item) before fun _ after =>
      holds after ∧ follows before after ∧ ends item after) :
    ∀ before, holds before → Meets (items.forM step) before fun _ after =>
      holds after ∧ follows before after ∧ ∀ item ∈ items, ends item after := by
  induction items with
  | nil => exact fun before held => ⟨held, same before, by simp⟩
  | cons item items ih =>
    intro before held
    refine Meets.bind (each item List.mem_cons_self before held) ?_
    rintro - between ⟨held', first, ended⟩
    refine (ih (fun other mem => each other (List.mem_cons_of_mem _ mem)) between held').mono ?_
    rintro - after ⟨held'', second, rest⟩
    refine ⟨held'', trans _ _ _ first second, fun other mem => ?_⟩
    rcases List.mem_cons.mp mem with rfl | later
    · exact lasts other between after second ended
    · exact rest other later

/-- The structs of a check that reports no problem are done. -/
theorem meets_structs (files : List SourceFile) : Meets (structs files) {} fun _ after =>
    after.Laid ∧ (after.problems = #[] →
      ∀ name, (after.environment.structs.get? name).isSome →
            after.progress? name = some .done) := by
  have start : Entered {} := ⟨rfl, by simp, by simp⟩
  refine Meets.bind (.forM (fun file _ before entered => .forM (fun decl _ before entered =>
    entered_enterStruct file.name decl entered) entered) start) fun _ checker entered => ?_
  refine .at ?_
  have laid := entered.laid
  have bound : checker.pending < checker.drafts.length + 1 := Nat.lt_succ_of_le
    List.countP_le_length
  refine (Meets.turns (fun before => before.Laid ∧ Checker.Steady (fun _ => False) checker before)
    (Checker.Steady fun _ => False) (fun (draft : StructDraft) after => after.problems = #[] →
      after.progress? draft.declaration.name = some .done)
    Checker.Steady.refl (fun _ _ _ => Checker.Steady.trans)
    (fun draft before after steady done none =>
      steady.progress _ .done (done (steady.problems none)) (by simp) id)
    (fun draft mem before held => ?_) checker ⟨laid, .refl _⟩).mono ?_
  · obtain ⟨laid', steady⟩ := held
    have known : (before.progress? draft.declaration.name).isSome := by
      rw [steady.known, Checker.progress?, Option.isSome_map, List.find?_isSome]
      exact ⟨draft, mem, by simp⟩
    refine Meets.bind (layouts_layoutStruct _ _ before laid' known
      (Nat.lt_of_le_of_lt steady.pending bound)) ?_
    rintro complete after ⟨laid'', steady', done, clean⟩
    exact ⟨⟨laid'', steady.trans steady'⟩, steady', fun none => done (clean none)⟩
  rintro - after ⟨⟨laid', -⟩, steady, done⟩
  refine ⟨laid', fun none name known => ?_⟩
  have before : (checker.progress? name).isSome := by rwa [laid'.known, steady.known] at known
  obtain ⟨progress, was⟩ := Option.isSome_iff_exists.mp before
  obtain ⟨draft, found, -⟩ := Option.map_eq_some_iff.mp was
  have named : draft.declaration.name = name := by simpa using List.find?_some found
  exact named ▸ done draft (List.mem_of_find?_eq_some found) none

end Check

/-- The bytes of a value on the operand stack. -/
def Environment.bytesOf (env : Environment) (type : Option ValueType) : Nat :=
  wordSize * env.leavesOf type

namespace Shape

/-- A part of a value has no more scalars than the value. -/
theorem leaves_le_of_mem {parts : List (Nat × Shape)} {part : Nat × Shape} (mem : part ∈ parts) :
    part.2.leaves ≤ partLeaves parts := by
  obtain ⟨before, after, rfl⟩ := List.append_of_mem mem
  obtain ⟨distance, shape⟩ := part
  rw [partLeaves_append, partLeaves]
  exact Nat.le_add_left_of_le (Nat.le_add_right _ _)

/-- A scalar that the machine can access is no empty one. -/
theorem pos_of_accessible {size : Nat} (accessible : Accessible size) : size ≠ 0 := by
  rintro rfl
  contradiction

mutual

/-- A value with only accessible scalars has as many as it has places for them. -/
theorem length_slots {shape : Shape} (accessed : shape.Accessed) (offset : Int) :
    (shape.slots offset).length = shape.leaves := by
  cases shape with
  | scalar size =>
    rw [slots, leaves, if_neg (pos_of_accessible (accessed offset ⟨offset, size⟩
      (by simp [slots])))]
    rfl
  | record parts =>
    rw [slots, leaves]
    exact length_partSlots (fun offset slot mem => accessed offset slot (by rwa [slots])) offset

theorem length_partSlots {parts : List (Nat × Shape)}
    (accessed : ∀ (offset : Int), ∀ slot ∈ partSlots offset parts, Accessible slot.size)
    (offset : Int) : (partSlots offset parts).length = partLeaves parts := by
  cases parts with
  | nil => rfl
  | cons part parts =>
    obtain ⟨distance, shape⟩ := part
    have first : shape.Accessed := by
      intro place slot mem
      refine accessed (place - distance) slot ?_
      rw [partSlots, Int.sub_add_cancel]
      exact List.mem_append_left _ mem
    have rest : ∀ (offset : Int), ∀ slot ∈ partSlots offset parts, Accessible slot.size := by
      intro place slot mem
      refine accessed place slot ?_
      rw [partSlots]
      exact List.mem_append_right _ mem
    rw [partSlots, partLeaves, List.length_append, length_slots first, length_partSlots rest]

end

end Shape

namespace StructTable

variable {table : StructTable} {type : ValueType}

theorem leavesOf_of_structName? {name : Text} (struct : type.structName? = some name) :
    table.leavesOf type = (table.get name).shape.leaves := by
  rw [leavesOf, shapeOf, struct]

/-- A place that is no struct holds one scalar. -/
theorem leavesOf_of_scalar (placed : type ≠ .void) (scalar : type.structName? = none) :
    table.leavesOf type = 1 := by
  have accessible : Accessible (table.sizeOf type) := accessible_sizeOf placed scalar
  have size := Shape.pos_of_accessible accessible
  rw [leavesOf, shapeOf, scalar]
  exact if_neg size

theorem leavesOf_of_isPointer (pointer : type.isPointer) : table.leavesOf type = 1 := by
  obtain ⟨base, pointers⟩ := type
  cases pointers with
  | zero => simp [ValueType.isPointer] at pointer
  | succ pointers =>
    refine leavesOf_of_scalar (by simp [ValueType.void]) ?_
    cases base <;> rfl

theorem leavesOf_of_isNumeric (numeric : type.isNumeric) : table.leavesOf type = 1 := by
  simp only [ValueType.isNumeric, ValueType.isIntegral, Bool.or_eq_true,
    decide_eq_true_eq] at numeric
  rcases numeric with (rfl | rfl | rfl) | rfl <;> rfl

theorem leavesOf_of_isIntegral (integral : type.isIntegral) : table.leavesOf type = 1 :=
  leavesOf_of_isNumeric (by simp [ValueType.isNumeric, integral])

/-- A value has as many scalars as a place that accepts it. -/
theorem leavesOf_of_accepts {place value : ValueType} (accepts : place.accepts value) :
    table.leavesOf value = table.leavesOf place := by
  simp only [ValueType.accepts, Bool.or_eq_true, Bool.and_eq_true, decide_eq_true_eq] at accepts
  rcases accepts with rfl | ⟨⟨first, second⟩, -⟩
  · rfl
  · rw [leavesOf_of_isPointer first, leavesOf_of_isPointer second]

end StructTable

namespace Environment

variable {env : Environment}

@[simp] theorem bytesOf_none : env.bytesOf none = 0 := rfl

theorem bytesOf_some (type : ValueType) :
    env.bytesOf (some type) = wordSize * env.structs.leavesOf type := rfl

theorem bytesOf_of_leavesOf {type : ValueType} (one : env.structs.leavesOf type = 1) :
    env.bytesOf (some type) = wordSize := by rw [bytesOf_some, one, Nat.mul_one]

theorem bytesOf_of_isPointer {type : ValueType} (pointer : type.isPointer) :
    env.bytesOf (some type) = wordSize :=
  bytesOf_of_leavesOf (StructTable.leavesOf_of_isPointer pointer)

theorem bytesOf_of_isNumeric {type : ValueType} (numeric : type.isNumeric) :
    env.bytesOf (some type) = wordSize :=
  bytesOf_of_leavesOf (StructTable.leavesOf_of_isNumeric numeric)

theorem bytesOf_of_accepts {place value : ValueType} (accepts : place.accepts value) :
    env.bytesOf (some value) = env.bytesOf (some place) := by
  rw [bytesOf_some, bytesOf_some, StructTable.leavesOf_of_accepts accepts]

/-- A place has a word for each of its scalars. -/
theorem length_slots (sound : env.structs.Sound) {type : Option ValueType}
    (placed : Placed type) (offset : Int) :
    wordSize * ((env.shapeOf type).slots offset).length = env.bytesOf type := by
  obtain ⟨known, rfl, nonvoid⟩ := placed
  have count := Shape.length_slots (sound.shapeOf nonvoid) offset
  rw [bytesOf, leavesOf]
  exact congrArg (wordSize * ·) count

end Environment

end TinLang
