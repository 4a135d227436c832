import TinLang.Proofs.Declarations

/-!
# Types of places

A place holds a value of a type that is not void. The machine can access every scalar of such a
value, because each is as wide as one of the access sizes. A check of declarations enters only
structs and global variables with types of places, and constants that are literals; when it reports
no problem, parameters have types of places too. The problems it reports are problems of the
program.
-/
namespace TinLang

variable {files : List SourceFile} {fact : Member → Prop} {cause : ProblemCause} {type : ValueType}

/-- The machine can access a scalar of some bytes. -/
def Accessible (size : Nat) : Prop := (AccessSize.ofCode? size.toUInt8).isSome

/-- The machine can access every scalar of a value. -/
def Shape.Accessed (shape : Shape) : Prop :=
  ∀ (offset : Int), ∀ slot ∈ shape.slots offset, Accessible slot.size

/-- A type of values that places hold. -/
def Placed (type : Option ValueType) : Prop := ∃ known, type = some known ∧ known ≠ .void

/-- The parameters of the natives are places. -/
theorem Native.placed_of_mem_params (native : Native) {type : Option ValueType}
    (mem : type ∈ native.params.map ValueType.ofText?) : Placed type := by
  have known : ∀ native : Native, ∀ type ∈ native.params.map ValueType.ofText?,
      type.isSome ∧ type ≠ some .void := by
    intro native
    cases native <;> decide
  obtain ⟨some, nonvoid⟩ := known native type mem
  obtain ⟨found, rfl⟩ := Option.isSome_iff_exists.mp some
  exact ⟨found, rfl, fun same => nonvoid (congrArg Option.some same)⟩

/-- Every member of every struct is a place. -/
def StructTable.Sound (table : StructTable) : Prop :=
  ∀ struct ∈ table, ∀ mem ∈ struct.members, mem.type ≠ .void ∧ mem.shape.Accessed

namespace Shape

theorem mem_partSlots {offset : Int} {parts : List (Nat × Shape)} {slot : Slot}
    (mem : slot ∈ partSlots offset parts) :
    ∃ part ∈ parts, slot ∈ part.2.slots (offset + part.1) := by
  induction parts with
  | nil => simp [partSlots] at mem
  | cons part parts ih =>
    obtain ⟨distance, shape⟩ := part
    rw [partSlots] at mem
    rcases List.mem_append.mp mem with first | later
    · exact ⟨(distance, shape), by simp, first⟩
    · obtain ⟨part, inside, found⟩ := ih later
      exact ⟨part, by simp [inside], found⟩

theorem accessed_record {parts : List (Nat × Shape)} (each : ∀ part ∈ parts, part.2.Accessed) :
    (record parts).Accessed := by
  intro offset slot mem
  rw [slots] at mem
  obtain ⟨part, inside, found⟩ := mem_partSlots mem
  exact each part inside _ slot found

end Shape

namespace StructTable

variable {table : StructTable}

theorem members_get
    (each : ∀ struct ∈ table, ∀ mem ∈ struct.members, fact mem) (name : Text) :
    ∀ mem ∈ (table.get name).members, fact mem := by
  unfold StructTable.get
  cases found : table.get? name with
  | none => simp
  | some struct => exact each struct (List.mem_of_find?_eq_some found)

theorem Sound.get (sound : table.Sound) (name : Text) :
    ∀ mem ∈ (table.get name).members, mem.type ≠ .void ∧ mem.shape.Accessed :=
  members_get sound name

theorem Sound.member? (sound : table.Sound) {struct name : Text} {mem : Member}
    (found : (table.get struct).member? name = some mem) : mem.type ≠ .void :=
  (sound.get struct mem (List.mem_of_find?_eq_some found)).1

/-- The scalars of types that are no structs can be accessed. -/
theorem accessible_sizeOf (placed : type ≠ .void)
    (scalar : type.structName? = none) : Accessible (table.sizeOf type) := by
  obtain ⟨base, pointer⟩ := type
  cases pointer with
  | succ pointer => exact (rfl : (AccessSize.ofCode? 8).isSome = true)
  | zero =>
    cases base with
    | void => exact absurd rfl placed
    | struct name => simp [ValueType.structName?] at scalar
    | int => exact (rfl : (AccessSize.ofCode? 4).isSome = true)
    | float => exact (rfl : (AccessSize.ofCode? 4).isSome = true)
    | char => exact (rfl : (AccessSize.ofCode? 1).isSome = true)
    | bool => exact (rfl : (AccessSize.ofCode? 1).isSome = true)

/-- The machine can access what places hold. -/
theorem Sound.shapeOf (sound : table.Sound) (placed : type ≠ .void) :
    (table.shapeOf type).Accessed := by
  unfold StructTable.shapeOf
  split
  · next name _ =>
    refine Shape.accessed_record fun part mem => ?_
    obtain ⟨found, inside, rfl⟩ := List.mem_map.mp mem
    exact (sound.get name found inside).2
  · next scalar =>
    intro offset slot mem
    rw [Shape.slots] at mem
    obtain rfl := List.mem_singleton.mp mem
    exact accessible_sizeOf placed scalar

theorem members_append
    (each : ∀ struct ∈ table, ∀ mem ∈ struct.members, fact mem) (name : Text) :
    ∀ struct ∈ table ++ [({ name := name } : StructType)], ∀ mem ∈ struct.members,
      fact mem := by
  intro struct mem
  rcases List.mem_append.mp mem with old | new
  · exact each struct old
  · rw [List.mem_singleton.mp new]
    simp

/-- A change of one struct keeps what holds of all members when it holds of the new ones. -/
theorem members_modify
    (each : ∀ struct ∈ table, ∀ mem ∈ struct.members, fact mem) (name : Text)
    {change : StructType → StructType}
    (kept : ∀ struct, ∀ mem ∈ (change struct).members, mem ∈ struct.members ∨ fact mem) :
    ∀ struct ∈ table.modify name change, ∀ mem ∈ struct.members, fact mem := by
  intro struct mem
  obtain ⟨before, inside, rfl⟩ := List.mem_map.mp mem
  split
  · exact fun found listed => (kept before found listed).elim (each before inside found) id
  · exact each before inside

end StructTable

/-- Types that may be written, and those that they stand for. -/
structure Kinds where
  written : TypeExpr → Prop
  kind : ValueType → Prop
  resolves : ∀ (env : Environment) type known, written type →
    env.resolve? type = some known → kind known

/-- All types. -/
def Kinds.all : Kinds := ⟨fun _ => True, fun _ => True, fun _ _ _ _ _ => trivial⟩

/-- A type that is known is one of the kind. -/
def Kinds.Holds (kinds : Kinds) (type : Option ValueType) : Prop :=
  ∀ known, type = some known → kinds.kind known

/-- Every type that the declarations of the file write is one that may be written. -/
structure SourceFile.Writes (kinds : Kinds) (file : SourceFile) : Prop where
  members : ∀ struct ∈ file.structs, ∀ field ∈ struct.members, kinds.written field.type
  params : ∀ function ∈ file.funcs, ∀ field ∈ function.params, kinds.written field.type
  results : ∀ function ∈ file.funcs, ∀ type ∈ function.result, kinds.written type
  globals : ∀ place ∈ file.globals, kinds.written place.type

/-- What holds of the declarations that a check has entered. -/
structure Checker.Placed (kinds : Kinds) (checker : Checker) : Prop where
  drafts : ∀ draft ∈ checker.drafts, ∀ field ∈ draft.declaration.members, kinds.written field.type
  structs : checker.environment.structs.Sound
  members : ∀ struct ∈ checker.environment.structs, ∀ mem ∈ struct.members, kinds.kind mem.type
  globals : ∀ global ∈ checker.environment.globals, global.type ≠ .void ∧ kinds.kind global.type
  constants : ∀ constant ∈ checker.environment.constants, constant.value.literalType?.isSome
  /-- A parameter without a type, or of type void, is reported. -/
  params : checker.problems = #[] → ∀ function ∈ checker.environment.functions,
    ∀ parameter ∈ function.params, TinLang.Placed parameter.type
  inputs : ∀ function ∈ checker.environment.functions, ∀ parameter ∈ function.params,
    kinds.Holds parameter.type
  results : ∀ function ∈ checker.environment.functions,
    function.result = .void ∨ kinds.kind function.result
  problems : ∀ problem ∈ checker.problems, problem.cause.internal = false

namespace Check

variable {α β : Type} {kinds : Kinds}

/-- A step keeps what holds of the declarations entered so far, and what it yields satisfies a
condition unless a problem is reported. -/
def Places (kinds : Kinds) (step : Check α) (yields : α → Prop := fun _ => True) : Prop :=
  ∀ checker : Checker, checker.Placed kinds → (step.run checker).2.Placed kinds ∧
    ((step.run checker).2.problems = #[] → checker.problems = #[] ∧ yields (step.run checker).1)

theorem Places.pure {value : α} {yields : α → Prop} (yielded : yields value) :
    Places kinds (pure value) yields :=
  fun _ placed => ⟨placed, fun clean => ⟨clean, yielded⟩⟩

theorem Places.bind {step : Check α} {next : α → Check β} {between : α → Prop}
    {yields : β → Prop} (first : Places kinds step between)
    (later : ∀ value, Places kinds (next value) fun result => between value → yields result) :
    Places kinds (step >>= next) yields := by
  intro checker placed
  obtain ⟨middle, given⟩ := first checker placed
  obtain ⟨last, result⟩ := later (step.run checker).1 (step.run checker).2 middle
  refine ⟨last, fun clean => ?_⟩
  obtain ⟨before, yielded⟩ := result clean
  exact ⟨(given before).1, yielded (given before).2⟩

theorem Places.mono {step : Check α} {yields wanted : α → Prop} (places : Places kinds step yields)
    (weaker : ∀ value, yields value → wanted value) : Places kinds step wanted :=
  fun checker placed => ⟨(places checker placed).1, fun clean =>
    ⟨((places checker placed).2 clean).1, weaker _ ((places checker placed).2 clean).2⟩⟩

theorem Places.any {step : Check α} {yields : α → Prop} (places : Places kinds step yields) :
    Places kinds step :=
  places.mono fun _ _ => trivial

/-- A step whose result does not matter, and what follows it. -/
theorem Places.next {step : Check α} {next : α → Check β} {yields : β → Prop}
    (first : Places kinds step)
    (later : ∀ value, Places kinds (next value) yields) : Places kinds (step >>= next) yields :=
  first.bind fun value => (later value).mono fun _ yielded _ => yielded

theorem Places.ite {test : Prop} [Decidable test] {yes no : Check α} {yields : α → Prop}
    (first : test → Places kinds yes yields) (second : ¬ test → Places kinds no yields) :
    Places kinds (if test then yes else no) yields := by
  split
  · next holds => exact first holds
  · next fails => exact second fails

/-- What a step yields, whatever it reports. -/
def Always (step : Check α) (yields : α → Prop) : Prop := ∀ checker, yields (step.run checker).1

theorem Always.get {next : Checker → Check α} {yields : α → Prop}
    (later : ∀ checker, Always (next checker) yields) : Always (get >>= next) yields :=
  fun checker => later checker checker

theorem Always.bind {step : Check α} {next : α → Check β} {between : α → Prop} {yields : β → Prop}
    (first : Always step between) (later : ∀ value, between value → Always (next value) yields) :
    Always (step >>= next) yields :=
  fun checker => later _ (first checker) _

/-- A step that yields something in any case, and what follows it. -/
theorem Places.after {step : Check α} {next : α → Check β} {yields : β → Prop} {always : α → Prop}
    (known : Always step always) (first : Places kinds step)
    (later : ∀ value, always value → Places kinds (next value) yields) :
    Places kinds (step >>= next) yields := by
  intro checker placed
  obtain ⟨middle, given⟩ := first checker placed
  obtain ⟨last, result⟩ := later _ (known checker) (step.run checker).2 middle
  exact ⟨last, fun clean => ⟨(given (result clean).1).1, (result clean).2⟩⟩

theorem Places.forM {step : α → Check PUnit} {items : List α}
    (each : ∀ item ∈ items, Places kinds (step item)) : Places kinds (items.forM step) := by
  induction items with
  | nil => exact .pure trivial
  | cons item items ih =>
    exact (each item List.mem_cons_self).next fun _ =>
      ih fun other mem => each other (List.mem_cons_of_mem _ mem)

theorem places_get : Places kinds get := fun _ placed => ⟨placed, fun clean => ⟨clean, trivial⟩⟩

/-- A step that looks at the state may be examined at that state. -/
theorem Places.at {next : Checker → Check β} {yields : β → Prop}
    (later : ∀ checker : Checker, checker.Placed kinds →
      ((next checker).run checker).2.Placed kinds ∧
      (((next checker).run checker).2.problems = #[] →
        checker.problems = #[] ∧ yields ((next checker).run checker).1)) :
    Places kinds (MonadState.get >>= next) yields := later

theorem Places.look {next : Checker → Check β} {yields : β → Prop}
    (later : ∀ checker : Checker, checker.Placed kinds → Places kinds (next checker) yields) :
    Places kinds (MonadState.get >>= next) yields :=
  fun checker placed => later checker placed checker placed

/-- After a report nothing is promised of parameters or results. -/
theorem places_report (file : Text) (span : Span)
    (plain : cause.internal = false) : Places kinds (report file span cause) fun _ => False := by
  intro checker placed
  have some : ∀ problem : Problem, checker.problems.push problem ≠ #[] := by simp
  refine ⟨{ placed with
    params := fun clean => absurd clean (some _)
    problems := fun problem mem => ?_ }, fun clean => absurd clean (some _)⟩
  rcases Array.mem_push.mp mem with old | rfl
  · exact placed.problems problem old
  · exact plain

/-- A refusal reports a problem. -/
theorem places_refuse (file : Text) (span : Span)
    (plain : cause.internal = false) (value : α) {yields : α → Prop} :
    Places kinds (do report file span cause; return value) yields :=
  (places_report file span plain).bind fun _ => .pure False.elim

theorem places_resolve (file : Text) (type : TypeExpr) :
    Places kinds (resolve file type) fun found => found ≠ none := by
  refine places_get.next fun checker => ?_
  split
  · exact .pure (by simp)
  · exact places_refuse _ _ rfl _

theorem holds_resolve (file : Text) {type : TypeExpr} (good : kinds.written type) :
    Always (resolve file type) kinds.Holds := by
  refine .get fun checker => ?_
  split
  · next found =>
    intro _ other same
    exact kinds.resolves _ type other good (found.trans same)
  · intro _ other none
    cases none

theorem places_enterStruct (file : Text) {decl : StructDecl}
    (good : ∀ field ∈ decl.members, kinds.written field.type) :
    Places kinds (enterStruct file decl) := by
  refine .at fun checker placed => ?_
  split
  · exact (places_report _ _ rfl).any checker placed
  · split
    · exact (places_report _ _ rfl).any checker placed
    · refine ⟨{ placed with
        drafts := fun draft listed => ?_
        structs := StructTable.members_append placed.structs _
        members := StructTable.members_append placed.members _ }, fun clean => ⟨clean, trivial⟩⟩
      rcases List.mem_append.mp listed with old | new
      · exact placed.drafts draft old
      · rw [List.mem_singleton.mp new]
        exact good

theorem places_mark (name : Text) (progress : LayoutProgress) : Places kinds (mark name progress) :=
by
  refine fun _ placed => ⟨{ placed with drafts := fun draft listed => ?_ },
    fun clean => ⟨clean, trivial⟩⟩
  obtain ⟨before, old, rfl⟩ := List.mem_map.mp listed
  have good := placed.drafts before old
  split <;> exact good

theorem places_placeMember (struct : Text) (offset : Nat) (name : Text)
    (placed : type ≠ .void) (good : kinds.kind type) :
    Places kinds (placeMember struct offset name type) := by
  refine .at fun checker before => ?_
  refine ⟨{ before with
    structs := StructTable.members_modify before.structs struct fun found mem listed => ?_
    members := StructTable.members_modify before.members struct fun found mem listed => ?_ },
    fun clean => ⟨clean, trivial⟩⟩
  all_goals refine (List.mem_append.mp listed).imp_right fun new => ?_
  · rw [List.mem_singleton.mp new]
    exact ⟨placed, before.structs.shapeOf placed⟩
  · rw [List.mem_singleton.mp new]
    exact good

theorem places_placeMembers {layout : Text → Check Bool} (file struct : Text) (offset : Nat)
    (seen : List Text) {fields : List Field} (inner : ∀ name, Places kinds (layout name))
    (good : ∀ field ∈ fields, kinds.written field.type) :
    Places kinds (placeMembers layout file struct offset seen fields) := by
  induction fields generalizing offset seen with
  | nil =>
    refine Places.next (fun _ placed => ⟨{ placed with
      structs := StructTable.members_modify placed.structs _ fun _ _ => .inl
      members := StructTable.members_modify placed.members _ fun _ _ => .inl },
      fun clean => ⟨clean, trivial⟩⟩) fun _ => .pure trivial
  | cons field fields ih =>
    unfold placeMembers
    refine .ite (fun _ => places_refuse _ _ rfl _) fun _ => ?_
    refine .after (holds_resolve file (good field List.mem_cons_self))
      (places_resolve file field.type).any fun type holds => ?_
    split
    · exact .pure trivial
    · next type =>
      refine .ite (fun _ => places_refuse _ _ rfl _) fun nonvoid => ?_
      have placed : type ≠ .void := by simpa [ValueType.isVoid] using nonvoid
      have rest : ∀ complete : Bool, Places kinds (if complete then do
          let next ← placeMember struct offset field.name type
          placeMembers layout file struct next (field.name :: seen) fields
        else return false) :=
        fun _ => .ite (fun _ => (places_placeMember _ _ _ placed (holds type rfl)).next fun _ =>
          ih _ _ fun other mem => good other (List.mem_cons_of_mem _ mem)) fun _ => .pure trivial
      dsimp only
      split
      · exact (inner _).next fun _ => rest _
      · exact (Places.pure trivial).next fun _ => rest _

theorem places_layoutStruct (depth : Nat) (name : Text) :
    Places kinds (layoutStruct depth name) := by
  induction depth generalizing name with
  | zero => exact .pure trivial
  | succ depth ih =>
    refine .look fun checker placed => ?_
    split
    · exact .pure trivial
    · next draft found =>
      have good := placed.drafts draft (List.mem_of_find?_eq_some found)
      split
      · exact .pure trivial
      · exact .pure trivial
      · exact places_refuse _ _ rfl _
      · exact (places_mark _ _).next fun _ => (places_placeMembers _ _ _ _ ih good).next fun _ =>
          (places_mark _ _).next fun _ => .pure trivial

theorem places_structs (writes : ∀ file ∈ files, file.Writes kinds) :
    Places kinds (structs files) :=
  (Places.forM fun file known => .forM fun decl listed =>
    places_enterStruct _ ((writes file known).members decl listed)).next fun _ =>
    places_get.next fun _ => .forM fun _ _ => (places_layoutStruct _ _).next fun _ => .pure trivial

/-- A step keeps what holds of the declarations when a condition holds unless a problem was
reported before. -/
def PlacesWhen (kinds : Kinds) (given : Prop) (step : Check α) : Prop :=
  ∀ checker : Checker, checker.Placed kinds → (checker.problems = #[] → given) →
    (step.run checker).2.Placed kinds ∧ ((step.run checker).2.problems = #[] →
    checker.problems = #[])

theorem Places.bindWhen {step : Check α} {next : α → Check β} {between always : α → Prop}
    (known : Always step always) (first : Places kinds step between)
    (later : ∀ value, always value → PlacesWhen kinds (between value) (next value)) :
    Places kinds (step >>= next) := by
  intro checker placed
  obtain ⟨middle, given⟩ := first checker placed
  obtain ⟨last, before⟩ := later _ (known checker) (step.run checker).2 middle
    fun clean => (given clean).2
  exact ⟨last, fun clean => ⟨(given (before clean)).1, trivial⟩⟩

theorem Places.thenWhen {step : Check α} {next : α → Check β} {given : Prop}
    (first : Places kinds step)
    (later : ∀ value, PlacesWhen kinds given (next value)) : PlacesWhen kinds given
    (step >>= next) := by
  intro checker placed before
  obtain ⟨middle, reported⟩ := first checker placed
  obtain ⟨last, again⟩ := later (step.run checker).1 (step.run checker).2 middle
    fun clean => before (reported clean).1
  exact ⟨last, fun clean => (reported (again clean)).1⟩

theorem PlacesWhen.ite {test : Prop} [Decidable test] {given : Prop} {yes no : Check α}
    (first : PlacesWhen kinds given yes) (second : PlacesWhen kinds given no) :
    PlacesWhen kinds given (if test then yes else no) := by
  split
  · exact first
  · exact second

/-- The types of parameters are types of places. -/
theorem places_parameterTypes (file : Text) (fields : List Field) :
    Places kinds (parameterTypes file fields) fun types => ∀ type ∈ types, TinLang.Placed type := by
  induction fields with
  | nil => exact .pure (by simp)
  | cons field fields ih =>
    unfold parameterTypes
    refine (places_resolve file field.type).bind fun type => ?_
    have rest : Places kinds (do return type :: (← parameterTypes file fields)) fun types =>
        type ≠ none → type ≠ some .void → ∀ type ∈ types, TinLang.Placed type := by
      refine ih.bind fun types => .pure fun placed known nonvoid => ?_
      obtain ⟨found, rfl⟩ := Option.ne_none_iff_exists'.mp known
      intro other mem
      rcases List.mem_cons.mp mem with rfl | later
      · exact ⟨found, rfl, fun same => nonvoid (congrArg some same)⟩
      · exact placed other later
    refine .ite (fun _ => ?_) fun nonvoid => ?_
    · exact (places_report _ _ rfl).bind fun _ => rest.mono fun _ _ => False.elim
    · exact rest.mono fun _ yielded known => yielded known nonvoid

theorem holds_parameterTypes (file : Text) {fields : List Field}
    (good : ∀ field ∈ fields, kinds.written field.type) :
    Always (parameterTypes file fields) fun types => ∀ type ∈ types, kinds.Holds type := by
  induction fields with
  | nil => exact fun _ type mem => absurd mem List.not_mem_nil
  | cons field fields ih =>
    refine (holds_resolve file (good field List.mem_cons_self)).bind fun type holds => ?_
    have rest : Always (do return type :: (← parameterTypes file fields)) fun types =>
        ∀ type ∈ types, kinds.Holds type :=
      (ih fun other mem => good other (List.mem_cons_of_mem _ mem)).bind fun types all _ =>
        List.forall_mem_cons.mpr ⟨holds, all⟩
    split
    · exact fun _ => rest _
    · exact rest

theorem places_mainSignature (file : Text) (decl : FuncDecl) (result : ValueType) :
    Places kinds (mainSignature file decl result) := by
  have second : Places kinds (if result ≠ .void ∧ result ≠ .int then
      report file decl.span (.mainResult result) else pure ()) :=
    .ite (fun _ => (places_report _ _ rfl).any) fun _ => .pure trivial
  exact .ite (fun _ => (places_report _ _ rfl).any.next fun _ => second) fun _ => second

/-- A function with the given types of parameters is entered. -/
theorem placesWhen_addFunction {types : List (Option ValueType)} {function : Function}
    (typed : ∀ parameter ∈ function.params, parameter.type ∈ types)
    (inputs : ∀ type ∈ types, kinds.Holds type)
    (result : function.result = .void ∨ kinds.kind function.result) :
    PlacesWhen kinds (∀ type ∈ types, TinLang.Placed type) (extend fun env =>
      { env with functions := env.functions ++ [function] }) := by
  intro checker placed given
  refine ⟨{ placed with
    params := fun clean found mem => ?_
    inputs := fun found mem => ?_
    results := fun found mem => ?_ }, id⟩
  all_goals rcases List.mem_append.mp mem with old | new
  · exact placed.params clean found old
  · rw [List.mem_singleton.mp new]
    exact fun parameter listed => given clean _ (typed parameter listed)
  · exact placed.inputs found old
  · rw [List.mem_singleton.mp new]
    exact fun parameter listed => inputs _ (typed parameter listed)
  · exact placed.results found old
  · rw [List.mem_singleton.mp new]
    exact result

theorem places_function (file : SourceFile) {decl : FuncDecl}
    (inputs : ∀ field ∈ decl.params, kinds.written field.type)
    (returned : ∀ type ∈ decl.result, kinds.written type) :
    Places kinds (function file decl) := by
  unfold function
  refine .ite (fun _ => (places_report _ _ rfl).any) fun _ => places_get.next fun checker => ?_
  refine .ite (fun _ => (places_report _ _ rfl).any) fun _ => ?_
  have rest : ∀ result : ValueType, (result = .void ∨ kinds.kind result) → Places kinds (do
      let types ← parameterTypes file.name decl.params
      let layout := ArgumentLayout.ofSizes (types.map (← get).environment.sizeOf)
      let params := (decl.params.zip (types.zip layout.offsets)).map
        fun part => ⟨part.1.name, part.2.1, part.2.2⟩
      if decl.name = "main" then mainSignature file.name decl result
      extend fun env => { env with
        functions := env.functions ++
          [⟨decl, file, params, result, layout.block⟩] }) := by
    intro result kind
    refine .bindWhen (holds_parameterTypes _ inputs) (places_parameterTypes _ _)
      fun types holds => places_get.thenWhen fun checker => ?_
    have typed : ∀ (offsets : List Nat) (parameter : Parameter),
        parameter ∈ (decl.params.zip (types.zip offsets)).map
          (fun part => ⟨part.1.name, part.2.1, part.2.2⟩) → parameter.type ∈ types := by
      intro offsets parameter listed
      obtain ⟨part, inside, rfl⟩ := List.mem_map.mp listed
      exact (List.of_mem_zip (List.of_mem_zip inside).2).1
    exact .ite ((places_mainSignature _ _ _).thenWhen fun _ =>
      placesWhen_addFunction (typed _) holds kind) (placesWhen_addFunction (typed _) holds kind)
  cases given : decl.result with
  | none => exact .after (fun _ => .inl rfl) (.pure trivial) rest
  | some type =>
    refine .after (holds_resolve _ (returned type given)) (places_resolve _ _).any
      fun found holds => ?_
    refine .after (fun _ => ?_) (.pure trivial) rest
    cases found with
    | none => exact .inl rfl
    | some type => exact .inr (holds type rfl)

/-- A constant is a literal. -/
theorem isSome_of_constantOf {env : Environment} {decl : ConstDecl}
    {constant : Constant} (found : env.constantOf decl = .ok constant) :
    constant.value.literalType?.isSome := by
  unfold Environment.constantOf at found
  split at found
  · contradiction
  · next literal =>
    split at found
    · obtain rfl := Except.ok.inj found
      simp [literal]
    · split at found
      · contradiction
      · split at found
        · obtain rfl := Except.ok.inj found
          simp [literal]
        · contradiction

/-- Why a constant is none is a problem of the program. -/
theorem internal_of_constantOf {env : Environment} {decl : ConstDecl} {span : Span}
    (failed : env.constantOf decl = .error (span, cause)) :
    cause.internal = false := by
  unfold Environment.constantOf at failed
  repeat' split at failed
  all_goals cases failed <;> rfl

theorem places_constant (file : SourceFile) (decl : ConstDecl) :
    Places kinds (constant file decl) := by
  have free : Places kinds (Check.free file.name decl.span decl.name) :=
    places_get.next fun _ => .ite (fun _ => places_refuse _ _ rfl _) fun _ => .pure trivial
  refine free.next fun _ => .ite (fun _ => places_get.next fun checker => ?_) fun _ => .pure trivial
  split
  · next constant found =>
    refine fun _ placed => ⟨{ placed with constants := fun other mem => ?_ },
      fun clean => ⟨clean, trivial⟩⟩
    rcases List.mem_append.mp mem with old | new
    · exact placed.constants other old
    · rw [List.mem_singleton.mp new]
      exact isSome_of_constantOf found
  · next failed => exact (places_report _ _ (internal_of_constantOf failed)).any

theorem places_program (change : Program → Program) : Places kinds (modify fun checker =>
    { checker with program := change checker.program }) :=
  fun _ placed => ⟨{ placed with }, fun clean => ⟨clean, trivial⟩⟩

theorem places_global (file : SourceFile) {decl : GlobalDecl}
    (good : kinds.written decl.type) : Places kinds (global file decl) := by
  have free : Places kinds (Check.free file.name decl.span decl.name) :=
    places_get.next fun _ => .ite (fun _ => places_refuse _ _ rfl _) fun _ => .pure trivial
  refine free.next fun _ => .ite (fun _ => ?_) fun _ => .pure trivial
  refine .after (holds_resolve _ good) (places_resolve _ _).any fun type holds => ?_
  split
  · exact .pure trivial
  · next type =>
    refine .ite (fun _ => (places_report _ _ rfl).any) fun nonvoid => ?_
    refine places_get.next fun checker => ?_
    refine Places.next ?_ fun _ => Places.next ?_ fun offset => ?_
    · exact places_program fun prog => (prog.appendData (padding prog.data.size _) []).1
    · refine .at fun checker placed => ?_
      split <;> exact ⟨{ placed with }, fun clean => ⟨clean, trivial⟩⟩
    · cases offset with
      | none => exact .pure trivial
      | some offset =>
      intro checker placed
      refine ⟨{ placed with globals := fun found mem => ?_ }, fun clean => ⟨clean, trivial⟩⟩
      rcases List.mem_append.mp mem with old | new
      · exact placed.globals found old
      · rw [List.mem_singleton.mp new]
        exact ⟨by simpa [ValueType.isVoid] using nonvoid, holds type rfl⟩

theorem places_files (writes : ∀ file ∈ files, file.Writes kinds) :
    Places kinds (Check.files files) :=
  (places_structs writes).next fun _ =>
  (Places.forM fun file known => .forM fun decl listed => places_function _
    ((writes file known).params decl listed)
    ((writes file known).results decl listed)).next fun _ =>
  (Places.forM fun _ _ => .forM fun _ _ => places_constant _ _).next fun _ =>
  (Places.forM fun file known => .forM fun decl listed =>
    places_global _ ((writes file known).globals decl listed)).next fun _ =>
  .forM fun file _ => places_program fun prog =>
    file.strings.foldl (fun prog text => (prog.intern text).1) prog

end Check

/-- The declarations that a check enters have types of places, of the kind that the files write. -/
theorem Checker.placed_of_writes {kinds : Kinds}
    (writes : ∀ file ∈ files, file.Writes kinds) : (ofFiles files).Placed kinds := by
  refine (Check.places_files writes {} ?_).1
  constructor <;> simp [StructTable.Sound]

theorem Checker.placed_ofFiles (files : List SourceFile) : (ofFiles files).Placed .all :=
  placed_of_writes fun _ _ => by constructor <;> exact fun _ _ => by simp [Kinds.all]

end TinLang
