import Mathlib.Logic.Relation
import TinLang.Proofs.Completed
import TinLang.Proofs.Packing

/-!
# Structs that hold one another

The layout of structs is a search in depth through the structs that hold values of one another. When
the declarations have nothing else wrong with them, a struct is left without a layout exactly if it
reaches one that holds values of itself (`StructDecl.Cyclic`), whatever order the declarations and
the files come in. The search knows a cycle by a struct that is being laid out: every such struct
reaches the one that is laid out next. A struct that is done has the layout that its declaration
describes, so the layouts do not depend on where the search began (`Checker.laidAlike_ofFiles`).
-/
namespace TinLang

open Relation (ReflTransGen TransGen)

variable {decl : StructDecl} {name : Text}

/-- The structs that some files declare, in order. -/
def SourceFile.declared (files : List SourceFile) : List StructDecl :=
  files.flatMap SourceFile.structs

namespace StructDecl

variable {declarations : List StructDecl} {outer inner : Text}

/-- A declared struct holds values of another. -/
def Holds (declarations : List StructDecl) (outer inner : Text) : Prop :=
  (∃ decl ∈ declarations, decl.name = inner) ∧
    ∃ decl ∈ declarations, decl.name = outer ∧
      ∃ field ∈ decl.members, field.type.name = inner ∧ field.type.pointer = 0

/-- A struct reaches one that holds values of itself. -/
def Cyclic (declarations : List StructDecl) (name : Text) : Prop :=
  ∃ inner, ReflTransGen (Holds declarations) name inner ∧ TransGen (Holds declarations) inner inner

theorem Cyclic.head (holds : Holds declarations outer inner) (cyclic : Cyclic declarations inner) :
    Cyclic declarations outer := by
  obtain ⟨last, reached, cycle⟩ := cyclic
  exact ⟨last, reached.head holds, cycle⟩

/-- Nothing is wrong with declarations of structs, except that structs may hold themselves. -/
structure Proper (declarations : List StructDecl) : Prop where
  names : (declarations.map StructDecl.name).Nodup
  free : ∀ decl ∈ declarations, BaseType.builtin? decl.name = none
  members : ∀ decl ∈ declarations, (decl.members.map Field.name).Nodup
  known : ∀ decl ∈ declarations, ∀ field ∈ decl.members,
    (BaseType.builtin? field.type.name).isSome ∨
      ∃ other ∈ declarations, other.name = field.type.name
  solid : ∀ decl ∈ declarations, ∀ field ∈ decl.members,
    ¬ (BaseType.builtin? field.type.name = some .void ∧ field.type.pointer = 0)

theorem Proper.unique (proper : Proper declarations) {first second : StructDecl}
    (mem : first ∈ declarations) (member' : second ∈ declarations)
    (same : first.name = second.name) : first = second :=
  List.inj_on_of_nodup_map proper.names mem member' same

end StructDecl

open StructDecl

namespace StructTable

variable {table : StructTable} {outer inner : Text}

/-- A recorded struct has a member that is a value of another. -/
def Nests (table : StructTable) (inner outer : Text) : Prop :=
  ∃ mem ∈ (table.get outer).members, mem.type.structName? = some inner

/-- The values of a struct are larger than those of the structs it holds, so none holds itself. -/
theorem Nested.wellFounded (nested : table.Nested) : WellFounded table.Nests := by
  refine Subrelation.wf (r := fun inner outer =>
    SizeOf.sizeOf (table.get inner).shape < SizeOf.sizeOf (table.get outer).shape) ?_
    (InvImage.wf (fun name => SizeOf.sizeOf (table.get name).shape) Nat.lt_wfRel.wf)
  rintro inner outer ⟨mem, inside, struct⟩
  have shape : mem.shape = (table.get inner).shape := by
    rw [nested outer mem inside, shapeOf, struct]
  rw [← shape]
  have part := List.sizeOf_lt_of_mem
    (List.mem_map_of_mem (f := fun mem : Member => (mem.offset, mem.shape)) inside)
  have larger : SizeOf.sizeOf mem.shape < SizeOf.sizeOf (mem.offset, mem.shape) := by
    rw [Prod.mk.sizeOf_spec]
    omega
  rw [StructType.shape, Shape.record.sizeOf_spec]
  omega

theorem get?_eq_get (known : (table.get? name).isSome) :
    table.get? name = some (table.get name) := by
  obtain ⟨struct, found⟩ := Option.isSome_iff_exists.mp known
  rw [get, found]
  rfl

theorem get_name (table : StructTable) (name : Text) : (table.get name).name = name := by
  unfold get
  cases found : table.get? name with
  | none => rfl
  | some struct => simpa using List.find?_some found

end StructTable

namespace Checker

variable {declarations : List StructDecl} {before after checker : Checker} {moving : Text → Prop}
  {name : Text}

/-- What a search has found: the structs that are done lie as they should, and those that failed
reach a cycle, as do those that were reported. -/
structure Searched (declarations : List StructDecl) (checker : Checker) : Prop where
  drafts : checker.drafts.map StructDraft.declaration = declarations
  built : ∀ decl ∈ declarations, checker.progress? decl.name = some .done →
    checker.environment.LaidOut decl (checker.environment.structs.get decl.name)
  failed : ∀ name, checker.progress? name = some .failed → Cyclic declarations name
  reported : ∀ problem ∈ checker.problems, ∃ name, problem.cause = .containsItself name ∧
    TransGen (Holds declarations) name name

/-- The members of a struct lie the same after a step that changes no struct which is done. -/
theorem Laid.agrees (laid : before.Laid) (laid' : after.Laid) (steady : Steady moving before after)
    (moves : ∀ name, moving name → before.progress? name ≠ some .done) (name : Text) :
    before.environment.Agrees after.environment (before.environment.structs.get name) where
  known other := by rw [laid.known, laid'.known, steady.known]
  shapes mem inside := ((laid.members name mem inside).1.layout steady moves).1
  sizes mem inside := ((laid.members name mem inside).1.layout steady moves).2.1
  aligns mem inside := ((laid.members name mem inside).1.layout steady moves).2.2

theorem progress?_congr (drafts : after.drafts = before.drafts) (name : Text) :
    after.progress? name = before.progress? name := by rw [progress?, progress?, drafts]

theorem Steady.get (steady : Steady moving before after)
    (begun : before.progress? name ≠ some .pending) (apart : ¬ moving name) :
    after.environment.structs.get name = before.environment.structs.get name := by
  rw [StructTable.get, StructTable.get, steady.structs name begun apart]

/-- A step that ends no struct and reports nothing leaves what was found. -/
theorem Searched.steady (searched : before.Searched declarations) (laid : before.Laid)
    (laid' : after.Laid) (steady : Steady moving before after)
    (moves : ∀ name, moving name → before.progress? name ≠ some .done)
    (drafts : after.drafts = before.drafts) (problems : after.problems = before.problems) :
    after.Searched declarations where
  drafts := drafts ▸ searched.drafts
  built decl mem done := by
    rw [progress?_congr drafts] at done
    rw [steady.get (by simp [done]) fun moved => moves _ moved done]
    exact (searched.built decl mem done).congr (laid.agrees laid' steady moves _)
  failed name failed := searched.failed name ((progress?_congr drafts name).symm.trans failed)
  reported := problems ▸ searched.reported

/-- The structs that a check knows are those that are declared. -/
theorem Searched.isSome_progress? (searched : checker.Searched declarations) (name : Text) :
    (checker.progress? name).isSome ↔ ∃ decl ∈ declarations, decl.name = name := by
  rw [← searched.drafts, progress?, Option.isSome_map, List.find?_isSome]
  simp

/-- What a field of a proper declaration is. -/
theorem Searched.resolve? (searched : checker.Searched declarations) (laid : checker.Laid)
    (proper : Proper declarations) (mem : decl ∈ declarations)
    {field : Field} (inside : field ∈ decl.members) :
    ∃ type, checker.environment.resolve? field.type = some type ∧ type.isVoid = false ∧
      ∀ inner, type.structName? = some inner →
        Holds declarations decl.name inner ∧ (checker.progress? inner).isSome := by
  have solid := proper.solid decl mem field inside
  cases builtin : BaseType.builtin? field.type.name with
  | some base =>
    refine ⟨⟨base, field.type.pointer⟩, by rw [Environment.resolve?, builtin], ?_,
          fun inner struct => ?_⟩
    · simp only [ValueType.isVoid, decide_eq_false_iff_not]
      intro nothing
      obtain ⟨rfl, direct⟩ := ValueType.mk.inj nothing
      exact solid ⟨builtin, direct⟩
    · have listed := List.mem_of_find?_eq_some builtin
      cases base with
      | struct name => simp [BaseType.builtins] at listed
      | _ => cases pointer : field.type.pointer <;> simp [ValueType.structName?] at struct
  | none =>
    have declared : ∃ other ∈ declarations, other.name = field.type.name := by
      simpa [builtin] using proper.known decl mem field inside
    have known := (searched.isSome_progress? field.type.name).mpr declared
    rw [← laid.known] at known
    obtain ⟨struct, found⟩ := Option.isSome_iff_exists.mp known
    have named : struct.name = field.type.name := by simpa using List.find?_some found
    refine ⟨⟨.struct struct.name, field.type.pointer⟩, by
      rw [Environment.resolve?, builtin, found]; rfl, rfl, fun inner value => ?_⟩
    cases pointer : field.type.pointer with
    | succ count => simp [ValueType.structName?, pointer] at value
    | zero =>
      obtain rfl : struct.name = inner := by simpa [ValueType.structName?, pointer] using value
      rw [named]
      exact ⟨⟨declared, decl, mem, rfl, field, inside, rfl, pointer⟩,
        (searched.isSome_progress? _).mpr declared⟩

/-- A struct is being laid out: the members of some fields are placed up to an offset. -/
structure Filling (declarations : List StructDecl) (checker : Checker) (struct : Text)
    (past : List Field) (offset : Nat) : Prop where
  laid : checker.Laid
  searched : checker.Searched declarations
  busy : checker.progress? struct = some .busy
  lies : checker.environment.structs.Lies offset (checker.environment.structs.get struct)
  filled : checker.environment.Filled past (checker.environment.structs.get struct) offset

variable {struct : Text} {past : List Field} {offset : Nat}

/-- The layout of other structs leaves the members that are placed. -/
theorem Filling.steady (filling : Filling declarations before struct past offset)
    (laid : after.Laid) (searched : after.Searched declarations)
    (steady : Steady (fun _ => False) before after) :
    Filling declarations after struct past offset := by
  have same := @Steady.get _ _ _ struct steady (by simp [filling.busy]) id
  refine ⟨laid, searched, steady.progress struct .busy filling.busy (by simp) id, ?_, ?_⟩
  · rw [same]
    exact filling.laid.lies steady (fun _ none => none.elim) filling.lies
  · rw [same]
    exact filling.filled.congr (filling.laid.agrees laid steady (fun _ none => none.elim) struct)

end Checker

namespace Check

variable {checker : Checker} {declarations : List StructDecl} {struct : Text} {past : List Field}
  {offset : Nat}

/-- The name of an item that follows others with other names is none of theirs. -/
theorem fresh_of_nodup {α : Type} {name : α → Text} {past rest : List α} {item : α}
    (distinct : ((past ++ item :: rest).map name).Nodup) : name item ∉ past.map name := by
  rw [List.map_append, List.map_cons, List.nodup_append] at distinct
  exact fun taken => distinct.2.2 _ taken _ List.mem_cons_self rfl

theorem Meets.and {α : Type} {step : Check α} {meets other : α → Checker → Prop}
    (first : Meets step checker meets) (second : Meets step checker other) :
    Meets step checker fun value after => meets value after ∧ other value after :=
  ⟨first, second⟩

/-- A change of a struct that is being laid out leaves what was found. -/
theorem searched_modify (filling : checker.Filling declarations struct past offset)
    {after : Checker} (laid : after.Laid) (steady : Checker.Steady (· = struct) checker after)
    (drafts : after.drafts = checker.drafts) (problems : after.problems = checker.problems) :
    after.Searched declarations ∧ checker.environment.Agrees after.environment
      (checker.environment.structs.get struct) := by
  have moves : ∀ name, name = struct → checker.progress? name ≠ some .done := by
    rintro name rfl
    simp [filling.busy]
  exact ⟨filling.searched.steady filling.laid laid steady moves drafts problems,
    filling.laid.agrees laid steady moves struct⟩

/-- Another member is placed. -/
theorem filling_placeMember (filling : checker.Filling declarations struct past offset)
    {field : Field} {type : ValueType}
    (found : checker.environment.resolve? field.type = some type) (complete : checker.Complete type)
    (fresh : field.name ∉ past.map Field.name) :
    Meets (placeMember struct offset field.name type) checker fun next after =>
      after.Filling declarations struct (past ++ [field]) next ∧
        Checker.Steady (· = struct) checker after ∧ after.drafts = checker.drafts := by
  have effect : Meets (placeMember struct offset field.name type) checker fun next after =>
      next = wrapUnsigned (alignUp offset (checker.environment.structs.alignOf type) +
        checker.environment.structs.sizeOf type) ∧
      after.drafts = checker.drafts ∧ after.problems = checker.problems ∧
      after.environment.structs = checker.environment.structs.modify struct fun found =>
        { found with
        members := found.members ++ [⟨field.name, type,
          alignUp offset (checker.environment.structs.alignOf type),
          checker.environment.structs.shapeOf type⟩]
        align := max found.align (checker.environment.structs.alignOf type) } :=
          ⟨rfl, rfl, rfl, rfl⟩
  refine (effect.and (meets_placeMember filling.laid field.name filling.busy complete
    filling.lies fun mem inside same => fresh ?_)).mono ?_
  · rw [← same, ← Environment.names_of_stands filling.filled.members]
    exact List.mem_map_of_mem inside
  rintro next after ⟨⟨rfl, drafts, problems, structs⟩, laid, steady, busy, lies, -⟩
  obtain ⟨searched, agrees⟩ := searched_modify filling laid steady drafts problems
  obtain ⟨shape, size, align⟩ := complete.layout steady fun name same => by
    rw [same, filling.busy]
    simp
  have here : after.environment.structs.get struct = { checker.environment.structs.get struct with
      members := (checker.environment.structs.get struct).members ++ [⟨field.name, type,
        alignUp offset (checker.environment.structs.alignOf type),
        checker.environment.structs.shapeOf type⟩]
      align := max (checker.environment.structs.get struct).align
        (checker.environment.structs.alignOf type) } := by
    have known : (checker.environment.structs.get? struct).isSome := by
      rw [filling.laid.known, filling.busy]
      rfl
    rw [structs]
    exact StructTable.get_modify (fun _ => rfl) known
  have before := filling.filled.congr agrees
  refine ⟨⟨laid, searched, busy, lies, ?_⟩, steady, drafts⟩
  rw [here, ← size, ← align, ← shape]
  refine ⟨List.rel_append before.members (.cons ⟨rfl, ?_, rfl⟩ .nil), ?_,
    before.packed.snoc rfl⟩
  · exact (Environment.resolve?_congr agrees.known _).trans found
  · rw [StructTable.largestAlignment_append, ← before.align]

/-- The end of a struct whose members are all placed. -/
theorem filling_endStruct (filling : checker.Filling declarations struct past offset)
    (named : struct = decl.name)
    (whole : past = decl.members) :
    Meets (extend fun env => { env with
      structs := env.structs.modify struct fun found =>
        { found with size := alignUp offset found.align } }) checker fun _ after =>
      after.Searched declarations ∧ after.drafts = checker.drafts ∧
        after.environment.LaidOut decl (after.environment.structs.get struct) := by
  have effect : Meets (extend fun env => { env with
      structs := env.structs.modify struct fun found =>
        { found with size := alignUp offset found.align } }) checker fun _ after =>
      after.drafts = checker.drafts ∧ after.problems = checker.problems := ⟨rfl, rfl⟩
  refine (effect.and (laid_modify filling.laid filling.busy (fun _ => rfl) (fun _ => id)
    (fun _ => .inl) (filling.laid.distinct struct))).mono ?_
  rintro - after ⟨⟨drafts, problems⟩, laid, steady, -, here⟩
  obtain ⟨searched, agrees⟩ := searched_modify filling laid steady drafts problems
  have filled := filling.filled.congr agrees
  refine ⟨searched, drafts, ?_⟩
  rw [here]
  exact ⟨(StructTable.get_name _ _).trans named, offset,
    ⟨whole ▸ filled.members, filled.align, filled.packed⟩, rfl⟩

/-- What the search from a struct finds, when every struct that is being laid out reaches it: a
struct that it leaves without a layout reaches a cycle. -/
def Searches (declarations : List StructDecl) (layout : Text → Check Bool) (bound : Nat) : Prop :=
  ∀ (name : Text) (checker : Checker), checker.Laid → checker.Searched declarations →
    (checker.progress? name).isSome → checker.pending < bound →
    (∀ other, checker.progress? other = some .busy → TransGen (Holds declarations) other name) →
    Meets (layout name) checker fun complete after => after.Searched declarations ∧
      (∀ other, after.progress? other = some .busy → checker.progress? other = some .busy) ∧
      after.progress? name ≠ some .pending ∧
      (complete = false → Cyclic declarations name)

/-- What the search through the members of a struct finds: its layout, or a cycle. -/
structure Swept (declarations : List StructDecl) (decl : StructDecl) (before : Checker)
    (complete : Bool) (after : Checker) : Prop where
  searched : after.Searched declarations
  busy : ∀ other, after.progress? other = some .busy → before.progress? other = some .busy
  built : complete = true → after.environment.LaidOut decl
    (after.environment.structs.get decl.name)
  cyclic : complete = false → Cyclic declarations decl.name

/-- A field of a proper declaration has a type. -/
theorem meets_resolve_known {type : TypeExpr} {found : ValueType} (file : Text)
    (known : checker.environment.resolve? type = some found) :
    Meets (resolve file type) checker fun value after => value = some found ∧ after = checker := by
  refine .at ?_
  rw [known]
  exact ⟨rfl, rfl⟩

/-- The members of a struct are searched one after another. -/
theorem searches_placeMembers (proper : Proper declarations) {layout : Text → Check Bool}
    {bound : Nat} (layouts : Layouts layout bound) (searches : Searches declarations layout bound)
    (file : Text) (mem : decl ∈ declarations)
    (fields : List Field) :
    ∀ (past : List Field) (offset : Nat) (seen : List Text) (checker : Checker),
      past ++ fields = decl.members → (∀ name ∈ seen, name ∈ past.map Field.name) →
      checker.Filling declarations decl.name past offset → checker.pending < bound →
      (∀ other, checker.progress? other = some .busy →
        ReflTransGen (Holds declarations) other decl.name) →
      Meets (placeMembers layout file decl.name offset seen fields) checker
        (Swept declarations decl checker) := by
  induction fields with
  | nil =>
    intro past offset seen checker whole _ filling _ _
    refine Meets.bind (filling_endStruct filling rfl (by simpa using whole)) ?_
    rintro - after ⟨searched, drafts, laid⟩
    exact ⟨searched, fun other => (Checker.progress?_congr drafts other ▸ ·), fun _ => laid,
      fun none => absurd none (by simp)⟩
  | cons field fields ih =>
    intro past offset seen checker whole names filling few reaches
    have inside : field ∈ decl.members := whole ▸ List.mem_append_right _ List.mem_cons_self
    have fresh : field.name ∉ past.map Field.name :=
      fresh_of_nodup (whole ▸ proper.members decl mem)
    obtain ⟨type, found, solid, holds⟩ :=
      filling.searched.resolve? filling.laid proper mem inside
    have rest : ∀ between : Checker, between.Filling declarations decl.name past offset →
        between.environment.resolve? field.type = some type → between.Complete type →
        between.pending < bound →
        (∀ other, between.progress? other = some .busy → checker.progress? other = some .busy) →
        Meets (do
          let next ← placeMember decl.name offset field.name type
          placeMembers layout file decl.name next (field.name :: seen) fields) between
          (Swept declarations decl checker) := by
      intro between filling found complete few busy
      refine Meets.bind (filling_placeMember filling found complete fresh) ?_
      rintro next placed ⟨filling', steady, drafts⟩
      have same := Checker.progress?_congr drafts
      refine (ih (past ++ [field]) next _ placed (by simpa using whole) ?_ filling'
        (Nat.lt_of_le_of_lt steady.pending few) fun other was =>
          reaches other (busy other (same other ▸ was))).mono ?_
      · intro name listed
        rcases List.mem_cons.mp listed with rfl | earlier
        · simp
        · simp [names name earlier]
      · exact fun complete after swept => { swept with
          busy := fun other was => busy other (same other ▸ swept.busy other was) }
    unfold placeMembers
    rw [if_neg fun seen => fresh (names _ (List.contains_iff_mem.mp seen))]
    refine Meets.bind (meets_resolve_known file found) ?_
    rintro value between ⟨rfl, same⟩
    subst between
    dsimp only
    rw [solid, if_neg Bool.false_ne_true]
    cases struct : type.structName? with
    | none =>
      exact rest checker filling found (fun inner value => by simp [struct] at value) few fun _ =>
        id
    | some inner =>
      obtain ⟨held, known⟩ := holds inner struct
      refine Meets.bind ((layouts inner checker filling.laid known few).and
        (searches inner checker filling.laid filling.searched known few
          fun other was => .tail' (reaches other was) held)) ?_
      rintro complete after ⟨⟨laid, steady, done, -⟩, searched, busy, -, cyclic⟩
      cases complete with
      | false => exact ⟨searched, busy, by simp, fun _ => (cyclic rfl).head held⟩
      | true =>
        refine rest after (filling.steady laid searched steady) ?_ (fun other value => ?_)
          (Nat.lt_of_le_of_lt steady.pending few) busy
        · refine (Environment.resolve?_congr (fun name => ?_) _).trans found
          rw [laid.known, filling.laid.known, steady.known]
        · obtain rfl : inner = other := by simpa [struct] using value
          exact done rfl

/-- What was found stays right when a struct is begun or ended. -/
theorem searched_mark (searched : checker.Searched declarations)
    {progress : LayoutProgress}
    (done : progress = .done → ∀ decl ∈ declarations, decl.name = name →
      checker.environment.LaidOut decl (checker.environment.structs.get decl.name))
    (failed : progress = .failed → Cyclic declarations name) :
    Checker.Searched declarations ((mark name progress).run checker).2 where
  drafts := by
    rw [← searched.drafts]
    show (checker.drafts.map _).map _ = _
    rw [List.map_map]
    refine List.map_congr_left fun draft _ => ?_
    dsimp only [Function.comp]
    split <;> rfl
  built decl mem was := by
    rw [progress?_mark] at was
    split at was
    · next same =>
      obtain ⟨-, -, rfl⟩ := Option.map_eq_some_iff.mp was
      exact done rfl decl mem same
    · exact searched.built decl mem was
  failed other was := by
    rw [progress?_mark] at was
    split at was
    · next same =>
      obtain ⟨-, -, rfl⟩ := Option.map_eq_some_iff.mp was
      exact same ▸ failed rfl
    · exact searched.failed other was
  reported := searched.reported

/-- A struct that is begun has no members yet. -/
theorem filling_mark (laid : checker.Laid) (searched : checker.Searched declarations)
    (was : checker.progress? name = some .pending) :
    Checker.Filling declarations ((mark name .busy).run checker).2 name [] 0 := by
  obtain ⟨empty, align⟩ := laid.waiting name was
  refine ⟨laid_mark laid (by simp [was]) (by simp) (by simp) (by simp),
    searched_mark searched (by simp) (by simp), ?_, ?_, ?_⟩
  · rw [progress?_mark, if_pos rfl, was]
    rfl
  · refine fun _ => ⟨?_, fun mem inside => ?_, Nat.zero_le _⟩
    · show Shape.Fits 0 (checker.environment.structs.get name).shape
      rw [StructType.shape, empty]
      exact fun place => Int.le_of_eq (Int.add_zero place).symm
    · change mem ∈ (checker.environment.structs.get name).members at inside
      rw [empty] at inside
      exact absurd inside List.not_mem_nil
  · show checker.environment.Filled [] (checker.environment.structs.get name) 0
    refine ⟨empty ▸ .nil, ?_, empty ▸ .nil⟩
    rw [empty]
    exact align

/-- The layout of structs finds the cycles. -/
theorem searches_layoutStruct (proper : Proper declarations) (depth : Nat) :
    Searches declarations (layoutStruct depth) depth := by
  induction depth with
  | zero => exact fun _ _ _ _ _ few => absurd few (Nat.not_lt_zero _)
  | succ depth ih =>
    intro name checker laid searched known few reaches
    refine .at ?_
    cases found : checker.drafts.find? fun draft => draft.declaration.name == name with
    | none => simp [Checker.progress?, found] at known
    | some draft =>
      have was := progress?_of_find? found
      have named : draft.declaration.name = name := by simpa using List.find?_some found
      have mem : draft.declaration ∈ declarations := by
        rw [← searched.drafts]
        exact List.mem_map_of_mem (List.mem_of_find?_eq_some found)
      dsimp only
      cases progress : draft.progress with
      | done =>
        have begun : checker.progress? name ≠ some .pending := by simp [was, progress]
        exact ⟨searched, fun _ => id, begun, by intro none; cases none⟩
      | failed =>
        have begun : checker.progress? name ≠ some .pending := by simp [was, progress]
        exact ⟨searched, fun _ => id, begun, fun _ =>
          searched.failed name (was.trans (congrArg some progress))⟩
      | busy =>
        have busy := was.trans (congrArg some progress)
        have begun : checker.progress? name ≠ some .pending := by simp [busy]
        have cycle := reaches name busy
        refine ⟨⟨searched.drafts, searched.built, searched.failed, fun problem listed => ?_⟩,
          fun _ => id, begun, fun _ => ⟨name, .refl, cycle⟩⟩
        rcases Array.mem_push.mp listed with old | rfl
        · exact searched.reported problem old
        · exact ⟨name, rfl, cycle⟩
      | pending =>
        rw [progress] at was
        subst named
        have few' := Nat.lt_of_lt_of_le ((@pending_mark checker draft.declaration.name .busy
          (by simp)).2 was) (Nat.le_of_lt_succ few)
        have filling := filling_mark laid searched was
        have others : ∀ other, other ≠ draft.declaration.name →
            Checker.progress? ((mark draft.declaration.name .busy).run checker).2 other =
              checker.progress? other := fun other apart => by rw [progress?_mark, if_neg apart]
        refine Meets.bind (.run (mark draft.declaration.name .busy)) ?_
        rintro - - ⟨-, rfl⟩
        refine Meets.bind (searches_placeMembers proper (layouts_layoutStruct depth) ih draft.file
          mem draft.declaration.members [] 0 [] _ rfl (by simp) filling few'
          fun other busy => ?_) ?_
        · by_cases same : other = draft.declaration.name
          · exact same ▸ .refl
          · exact (reaches other (others other same ▸ busy)).to_reflTransGen
        rintro complete filled ⟨searched', later, done, cyclic⟩
        have ends : (if complete then LayoutProgress.done else .failed) ≠ .pending ∧
            (if complete then LayoutProgress.done else .failed) ≠
              .busy := by cases complete <;> simp
        refine Meets.bind (.run (mark draft.declaration.name (if complete then .done else
          .failed))) ?_
        rintro - - ⟨-, rfl⟩
        refine ⟨searched_mark searched' (fun ended other listed same => ?_) (fun ended => ?_),
          fun other busy => ?_, fun begun => ?_, cyclic⟩
        · obtain rfl := proper.unique listed mem same
          exact done (by cases complete <;> simp_all)
        · exact cyclic (by cases complete <;> simp_all)
        · replace busy := (progress?_mark _ _ other).symm.trans busy
          split at busy
          · obtain ⟨-, -, same⟩ := Option.map_eq_some_iff.mp busy
            exact absurd same ends.2
          · next apart => exact (others other apart).symm.trans (later other busy)
        · replace begun := (progress?_mark _ _ _).symm.trans begun
          rw [if_pos rfl] at begun
          obtain ⟨-, -, same⟩ := Option.map_eq_some_iff.mp begun
          exact absurd same ends.1

/-- Some structs are entered, and nothing is reported. -/
structure Begun (past : List StructDecl) (checker : Checker) : Prop where
  entered : Entered checker
  drafts : checker.drafts.map StructDraft.declaration = past
  clean : checker.problems = #[]

variable {past : List StructDecl}

theorem begun_enterStruct (begun : Begun past checker) (file : Text)
    (free : BaseType.builtin? decl.name = none)
    (fresh : decl.name ∉ past.map StructDecl.name) :
    Meets (enterStruct file decl) checker fun _ after => Begun (past ++ [decl]) after := by
  have unknown : (checker.environment.structs.get? decl.name).isSome = false := by
    rw [Bool.eq_false_iff]
    intro known
    obtain ⟨struct, found⟩ := Option.isSome_iff_exists.mp known
    have named : struct.name = decl.name := by simpa using List.find?_some found
    refine fresh ?_
    rw [← begun.drafts, List.map_map, ← named]
    exact begun.entered.names ▸ List.mem_map_of_mem (List.mem_of_find?_eq_some found)
  have effect : Meets (enterStruct file decl) checker fun _ after =>
      after.drafts.map StructDraft.declaration = past ++ [decl] ∧
        after.problems = checker.problems := by
    refine .at ?_
    rw [if_neg (by simp [free]), if_neg (by simp [unknown])]
    refine ⟨?_, rfl⟩
    show (checker.drafts ++ _).map _ = _
    rw [List.map_append, begun.drafts]
    rfl
  refine (effect.and (entered_enterStruct file decl begun.entered)).mono ?_
  rintro - after ⟨⟨drafts, problems⟩, entered⟩
  exact ⟨entered, drafts, problems.trans begun.clean⟩

theorem begun_declarations (file : Text) (more : List StructDecl)
    (free : ∀ decl ∈ more, BaseType.builtin? decl.name = none) :
    ∀ (past : List StructDecl) (checker : Checker), Begun past checker →
      ((past ++ more).map StructDecl.name).Nodup →
      Meets (more.forM (enterStruct file)) checker fun _ after => Begun (past ++ more) after := by
  induction more with
  | nil => exact fun past checker begun _ => (List.append_nil past).symm ▸ begun
  | cons decl more ih =>
    intro past checker begun distinct
    have fresh := fresh_of_nodup distinct
    refine Meets.bind (begun_enterStruct begun file (free _ List.mem_cons_self) fresh)
      fun _ between later => ?_
    rw [← List.singleton_append, ← List.append_assoc] at distinct ⊢
    exact ih (fun other listed => free other (List.mem_cons_of_mem _ listed)) _ between
      later distinct

theorem begun_files (files : List SourceFile)
    (free : ∀ decl ∈ SourceFile.declared files,
      BaseType.builtin? decl.name = none) :
    ∀ (past : List StructDecl) (checker : Checker), Begun past checker →
      ((past ++ SourceFile.declared files).map StructDecl.name).Nodup →
      Meets (files.forM fun file => file.structs.forM (enterStruct file.name)) checker
        fun _ after => Begun (past ++ SourceFile.declared files) after := by
  induction files with
  | nil => exact fun past checker begun _ => (List.append_nil past).symm ▸ begun
  | cons file files ih =>
    intro past checker begun distinct
    have split : SourceFile.declared (file :: files) = file.structs ++ SourceFile.declared files :=
      List.flatMap_cons
    rw [split] at free
    rw [split, ← List.append_assoc] at distinct ⊢
    have distinct' := distinct
    rw [List.map_append] at distinct'
    refine Meets.bind (begun_declarations file.name file.structs
      (fun other listed => free other (List.mem_append_left _ listed)) past checker begun
      distinct'.of_append_left) fun _ between later => ?_
    exact ih (fun other listed => free other (List.mem_append_right _ listed)) _ between
      later distinct

/-- After the search every struct is done or failed. -/
theorem searched_structs {files : List SourceFile} (proper : Proper (SourceFile.declared files)) :
    Meets (structs files) {} fun _ after => after.Searched (SourceFile.declared files) ∧
      ∀ name, after.progress? name ≠ some .pending ∧ after.progress? name ≠ some .busy := by
  have start : Begun [] {} := ⟨⟨rfl, by simp, by simp⟩, rfl, rfl⟩
  refine Meets.bind (begun_files files proper.free [] {} start proper.names)
    fun _ checker begun => ?_
  refine .at ?_
  have laid := begun.entered.laid
  have bound : checker.pending < checker.drafts.length + 1 := Nat.lt_succ_of_le
    List.countP_le_length
  have waits : ∀ name progress, checker.progress? name = some progress → progress = .pending := by
    intro name progress was
    obtain ⟨draft, found, rfl⟩ := Option.map_eq_some_iff.mp was
    exact begun.entered.waiting draft (List.mem_of_find?_eq_some found)
  have idle : ∀ name, checker.progress? name ≠ some .busy := fun name busy => by
    cases waits name _ busy
  have searched : checker.Searched (SourceFile.declared files) :=
    ⟨begun.drafts, fun _ _ done => (by cases waits _ _ done), fun _ failed =>
      (by cases waits _ _ failed),
      by simp [begun.clean]⟩
  refine (Meets.turns (fun before => before.Laid ∧
      Checker.Steady (fun _ => False) checker before ∧
      before.Searched (SourceFile.declared files) ∧ ∀ name, before.progress? name ≠ some .busy)
    (Checker.Steady fun _ => False)
    (fun (draft : StructDraft) after => after.progress? draft.declaration.name ≠ some .pending)
    Checker.Steady.refl (fun _ _ _ => Checker.Steady.trans)
    (fun _ _ _ steady begun => steady.begun begun id)
    (fun draft mem before held => ?_) checker ⟨laid, .refl _, searched, idle⟩).mono ?_
  · obtain ⟨laid', steady, searched', idle'⟩ := held
    have known : (before.progress? draft.declaration.name).isSome := by
      rw [steady.known, Checker.progress?, Option.isSome_map, List.find?_isSome]
      exact ⟨draft, mem, by simp⟩
    have few := Nat.lt_of_le_of_lt steady.pending bound
    refine Meets.bind ((layouts_layoutStruct _ _ before laid' known few).and
      (searches_layoutStruct proper _ _ before laid' searched' known few
        fun other busy => absurd busy (idle' other))) ?_
    rintro complete after ⟨⟨laid'', steady', -⟩, searched'', later, begun, -⟩
    exact ⟨⟨laid'', steady.trans steady', searched'', fun name busy =>
      idle' name (later name busy)⟩,
      steady', begun⟩
  rintro - after ⟨⟨-, -, searched', idle'⟩, steady, begun'⟩
  refine ⟨searched', fun name => ⟨fun waits => ?_, idle' name⟩⟩
  have known : (checker.progress? name).isSome := by
    rw [← steady.known, waits]
    rfl
  obtain ⟨progress, was⟩ := Option.isSome_iff_exists.mp known
  obtain ⟨draft, found, -⟩ := Option.map_eq_some_iff.mp was
  have named : draft.declaration.name = name := by simpa using List.find?_some found
  exact begun' draft (List.mem_of_find?_eq_some found) (named ▸ waits)

end Check

end TinLang
