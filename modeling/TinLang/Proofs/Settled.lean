import Mathlib.Algebra.GroupWithZero.Nat
import TinLang.Proofs.DataSegment

/-!
# What a check settles

A check that reports no problem leaves an environment in which structs hold values of their members
in order, parameters follow one another in the argument block and global variables in the data
segment, and main has one of its signatures.
-/
namespace TinLang

/-- The places of parameters in the argument block. -/
def Environment.places (env : Environment) (params : List Parameter) : List Slot :=
  params.map fun parameter => ⟨parameter.offset, env.sizeOf parameter.type⟩

/-- Declarations lie where the generated code expects them, as far as sizes do not wrap around. -/
structure Environment.Settled (env : Environment) : Prop where
  members : ∀ name, ∀ mem ∈ (env.structs.get name).members,
    mem.shape = env.structs.shapeOf mem.type
  spans : ∀ name, env.structs.Lies (env.structs.get name).size
    (env.structs.get name)
  distinct : ∀ name, ((env.structs.get name).members.map Member.name).Nodup
  globals : (env.globals.map Global.name).Nodup
  params : ∀ function ∈ env.functions,
    (function.params.map fun parameter => env.bytesOf parameter.type).sum < 2 ^ 63 →
      Slot.Follow 0 function.block (env.places function.params)
  words : ∀ function ∈ env.functions, 8 ∣ function.block
  main : ∀ function ∈ env.functions, function.name = "main" →
    function.params = [] ∧ (function.result = .void ∨ function.result = .int)

/-- The global variables follow one another in the data segment. -/
def Checker.Stored (checker : Checker) : Prop :=
  Slot.Follow 0 checker.program.data.size
    (checker.environment.globals.map fun global =>
      ⟨global.offset, checker.environment.structs.sizeOf global.type⟩)

namespace Slot

theorem Follow.snoc {first middle last : Int} {slots : List Slot} {slot : Slot}
    (follow : Follow first middle slots) (start : middle ≤ slot.offset)
    (stop : slot.offset + slot.size ≤ last) : Follow first last (slots ++ [slot]) :=
  follow.append ⟨start, stop⟩

end Slot

/-- A value of a type lies in order in at most a word for each scalar. -/
theorem Environment.Settled.fits {env : Environment} (settled : env.Settled)
    {type : ValueType} (small : wordSize * env.structs.leavesOf type < 2 ^ 63) :
    (env.structs.shapeOf type).Fits (env.structs.sizeOf type) ∧
      env.structs.sizeOf type ≤ wordSize * env.structs.leavesOf type :=
  StructTable.fits_shapeOf (fun inner _ => settled.spans inner) small

/-- An argument after others whose block has at most a word for each of their scalars. -/
theorem Environment.Settled.argument {env : Environment} (settled : env.Settled)
    {type : Option ValueType} {offset before : Nat} (bounded : offset ≤ wordSize * before)
    (small : wordSize * before + env.bytesOf type < 2 ^ 63) :
    offset ≤ alignUp offset (naturalAlignment (wrapSigned (env.sizeOf type))) ∧
      wrapUnsigned (alignUp offset (naturalAlignment (wrapSigned (env.sizeOf type))) +
          env.sizeOf type) =
        alignUp offset (naturalAlignment (wrapSigned (env.sizeOf type))) +
          env.sizeOf type ∧
      alignUp offset (naturalAlignment (wrapSigned (env.sizeOf type))) +
          env.sizeOf type ≤ wordSize * (before + env.leavesOf type) := by
  have size : env.sizeOf type ≤ wordSize * env.leavesOf type := by
    cases type with
    | none => exact Nat.zero_le _
    | some type => exact (settled.fits (Nat.lt_of_le_of_lt (Nat.le_add_left _ _) small)).2
  obtain ⟨reached, within⟩ := alignUp_bounds
    (naturalAlignment_dvd (wrapSigned (env.sizeOf type))) bounded
    (Nat.lt_of_le_of_lt (Nat.le_add_right _ _) small)
  have least := Nat.add_le_add within size
  rw [← Nat.mul_add] at least
  rw [Environment.bytesOf, ← Nat.mul_add] at small
  exact ⟨reached, wrapUnsigned_add (by omega), least⟩

/-- Arguments follow one another in their block, which has at most a word for each scalar. -/
theorem Environment.Settled.follow_arguments {env : Environment}
    (settled : env.Settled) {fields : List Field} {types : List (Option ValueType)}
    (paired : types.length = fields.length) {offset before : Nat}
    (bounded : offset ≤ wordSize * before)
    (small : wordSize * before + ((fields.zip (types.zip
      (argumentOffsets offset (types.map env.sizeOf)).1)).map
        fun part => env.bytesOf part.2.1).sum < 2 ^ 63) :
    (∃ leaves, (argumentOffsets offset (types.map env.sizeOf)).2 ≤ wordSize * leaves ∧
      wordSize * leaves < 2 ^ 63) ∧
    Slot.Follow offset (argumentOffsets offset (types.map env.sizeOf)).2
      (env.places ((fields.zip (types.zip
        (argumentOffsets offset (types.map env.sizeOf)).1)).map
          fun part => ⟨part.1.name, part.2.1, part.2.2⟩)) := by
  induction types generalizing fields offset before with
  | nil =>
    obtain rfl := List.length_eq_zero_iff.mp paired.symm
    exact ⟨⟨before, bounded, by simpa using small⟩, Int.le_refl _⟩
  | cons type types ih =>
    obtain ⟨field, fields, rfl⟩ := List.exists_cons_of_length_eq_add_one paired.symm
    rw [List.map_cons, argumentOffsets] at small ⊢
    simp only [List.zip_cons_cons, List.map_cons, List.sum_cons, ← Nat.add_assoc] at small ⊢
    obtain ⟨reached, whole, within⟩ :=
      settled.argument bounded (Nat.lt_of_le_of_lt (Nat.le_add_right _ _) small)
    rw [Environment.bytesOf, ← Nat.mul_add] at small
    generalize alignUp offset _ = start at small reached whole within ⊢
    generalize wrapUnsigned _ = stop at small whole ⊢
    obtain ⟨below, rest⟩ := ih (Nat.succ.inj paired) (whole ▸ within) small
    refine ⟨below, Int.ofNat_le.mpr reached, rest.mono ?_ (Int.le_refl _)⟩
    exact Int.le_of_eq ((Int.natCast_add _ _).symm.trans (congrArg _ whole.symm))

/-- The parameters of a function lie in its block. -/
theorem Environment.Settled.block {env : Environment} (settled : env.Settled)
    {fields : List Field} {types : List (Option ValueType)} (paired : types.length = fields.length)
    (small : (((fields.zip (types.zip (ArgumentLayout.ofSizes (types.map env.sizeOf)).offsets)).map
      fun part => (⟨part.1.name, part.2.1, part.2.2⟩ : Parameter)).map
        fun parameter => env.bytesOf parameter.type).sum < 2 ^ 63) :
    Slot.Follow 0 (ArgumentLayout.ofSizes (types.map env.sizeOf)).block
      (env.places ((fields.zip (types.zip
        (ArgumentLayout.ofSizes (types.map env.sizeOf)).offsets)).map
          fun part => ⟨part.1.name, part.2.1, part.2.2⟩)) := by
  rw [List.map_map] at small
  obtain ⟨⟨leaves, below, few⟩, follow⟩ := settled.follow_arguments paired
    (show 0 ≤ wordSize * 0 from Nat.zero_le _) (by rw [Nat.mul_zero, Nat.zero_add]; exact small)
  exact follow.mono (Int.le_refl _)
    (Int.ofNat_le.mpr (alignUp_bounds (Nat.dvd_refl 8) below few).1)

namespace Check

variable {α β : Type} {before : Checker → Prop}

/-- A step leads from one condition to another when no problem is reported. -/
def Cleanly (before : Checker → Prop) (step : Check α) (after : α → Checker → Prop) : Prop :=
  ∀ checker : Checker, (checker.problems = #[] → before checker) →
    Meets step checker fun value later =>
      later.problems = #[] → checker.problems = #[] ∧ after value later

namespace Cleanly

theorem pure {value : α} {after : α → Checker → Prop}
    (holds : ∀ checker, before checker → after value checker) : Cleanly before (pure value) after :=
  fun _ start clean => ⟨clean, holds _ (start clean)⟩

theorem bind {step : Check α} {next : α → Check β} {middle : α → Checker → Prop}
    {after : β → Checker → Prop} (first : Cleanly before step middle)
    (later : ∀ value, Cleanly (middle value) (next value) after) :
    Cleanly before (step >>= next) after := by
  intro checker start
  have reached := first checker start
  have ends := later (step.run checker).1 (step.run checker).2 fun clean => (reached clean).2
  exact fun clean => ⟨(reached (ends clean).1).1, (ends clean).2⟩

theorem mono {step : Check α} {wanted : Checker → Prop} {after found : α → Checker → Prop}
    (first : Cleanly before step found) (stronger : ∀ checker, wanted checker → before checker)
    (weaker : ∀ value checker, found value checker → after value checker) :
    Cleanly wanted step after :=
  fun checker start clean =>
    have reached := first checker (fun none => stronger _ (start none)) clean
    ⟨reached.1, weaker _ _ reached.2⟩

theorem ite {test : Prop} [Decidable test] {yes no : Check α} {after : α → Checker → Prop}
    (first : test → Cleanly before yes after) (second : ¬ test → Cleanly before no after) :
    Cleanly before (if test then yes else no) after := by
  split
  · next holds => exact first holds
  · next fails => exact second fails

theorem get : Cleanly before get fun value checker => value = checker ∧ before checker :=
  fun _ start clean => ⟨clean, rfl, start clean⟩

theorem report {file : Text} {span : Span} {cause : ProblemCause} {after : Unit → Checker → Prop} :
    Cleanly before (report file span cause) after :=
  fun checker _ clean =>
    have reported : checker.problems.push ⟨file, span.start, cause⟩ ≠ #[] := by simp
    absurd clean reported

/-- After a report nothing is promised. -/
theorem reported {file : Text} {span : Span} {cause : ProblemCause} {next : Unit → Check β}
    {after : β → Checker → Prop}
    (later : Cleanly (fun _ => False) (next ()) after) :
    Cleanly before (Check.report file span cause >>= next) after :=
  report.bind fun _ => later

theorem modify {change : Checker → Checker} {after : Unit → Checker → Prop}
    (problems : ∀ checker, (change checker).problems = checker.problems)
    (holds : ∀ checker, before checker → after () (change checker)) :
    Cleanly before (modify change) after :=
  fun checker start clean =>
    have none := (problems checker).symm.trans clean
    ⟨none, holds checker (start none)⟩

theorem forM {step : α → Check PUnit} {items : List α}
    (each : ∀ item ∈ items, Cleanly before (step item) fun _ => before) :
    Cleanly before (items.forM step) fun _ => before := by
  induction items with
  | nil => exact pure fun _ => id
  | cons item items ih =>
    exact (each item List.mem_cons_self).bind fun _ =>
      ih fun other mem => each other (List.mem_cons_of_mem _ mem)

end Cleanly

theorem cleanly_resolve (file : Text) (type : TypeExpr) :
    Cleanly before (resolve file type) fun found checker => before checker ∧ found ≠ none := by
  refine Cleanly.get.bind fun checker => ?_
  split
  · exact .pure fun _ holds => ⟨holds.2, by simp⟩
  · exact .reported (.pure fun _ => False.elim)

theorem cleanly_parameterTypes (file : Text) (fields : List Field) :
    Cleanly before (parameterTypes file fields) fun types checker =>
      before checker ∧ types.length = fields.length := by
  induction fields with
  | nil => exact .pure fun _ holds => ⟨holds, rfl⟩
  | cons field fields ih =>
    unfold parameterTypes
    refine (cleanly_resolve file field.type).bind fun type => ?_
    have rest : ∀ {found : Checker → Prop}, (∀ checker, found checker → before checker) →
        Cleanly found (do return type :: (← parameterTypes file fields)) fun types checker =>
          before checker ∧ types.length = fields.length + 1 :=
      fun weaker => (ih.mono weaker fun _ _ => id).bind fun types =>
        .pure fun _ holds => ⟨holds.1, congrArg (· + 1) holds.2⟩
    exact .ite (fun _ => .reported (rest fun _ => False.elim)) fun _ => rest fun _ holds => holds.1

theorem cleanly_mainSignature (file : Text) (decl : FuncDecl) (result : ValueType) :
    Cleanly before (mainSignature file decl result) fun _ checker =>
      before checker ∧ decl.params = [] ∧ (result = .void ∨ result = .int) := by
  have second : ∀ {found : Checker → Prop}, (∀ checker, found checker →
      before checker ∧ decl.params = []) →
      Cleanly found (if result ≠ .void ∧ result ≠ .int then
        Check.report file decl.span (.mainResult result) else Pure.pure ()) fun _ checker =>
          before checker ∧ decl.params = [] ∧ (result = .void ∨ result = .int) := by
    refine fun weaker => .ite (fun _ => .report) fun fits => .pure fun checker holds => ?_
    obtain ⟨kept, none⟩ := weaker checker holds
    refine ⟨kept, none, Decidable.or_iff_not_imp_left.mpr fun some => ?_⟩
    exact Decidable.not_not.mp fun other => fits ⟨some, other⟩
  exact .ite (fun _ => .reported (second fun _ => False.elim)) fun none =>
    second fun _ holds => ⟨holds, Decidable.not_not.mp none⟩

theorem cleanly_free (file : Text) (span : Span) (name : Text) :
    Cleanly before (free file span name) fun _ checker =>
      before checker ∧ checker.environment.global? name = none := by
  refine Cleanly.get.bind fun checker => ?_
  refine .ite (fun _ => .reported (.pure fun _ => False.elim)) fun free => .pure fun _ holds => ?_
  obtain ⟨rfl, holds⟩ := holds
  rw [Bool.or_eq_true, not_or] at free
  exact ⟨holds, Option.not_isSome_iff_eq_none.mp free.2⟩

/-- What holds of a check between its steps. -/
def Good (checker : Checker) : Prop := checker.environment.Settled ∧ checker.Stored

theorem cleanly_function (file : SourceFile) (decl : FuncDecl) :
    Cleanly Good (function file decl) fun _ => Good := by
  unfold function
  refine .ite (fun _ => .report) fun _ => Cleanly.get.bind fun checker => ?_
  refine .ite (fun _ => .report) fun _ => ?_
  have rest : ∀ (found : Checker → Prop) (result : ValueType),
    (∀ checker, found checker → Good checker) →
      Cleanly found (do
      let types ← parameterTypes file.name decl.params
      let layout := ArgumentLayout.ofSizes (types.map (← get).environment.sizeOf)
      let params := (decl.params.zip (types.zip layout.offsets)).map
        fun part => ⟨part.1.name, part.2.1, part.2.2⟩
      if decl.name = "main" then mainSignature file.name decl result
      extend fun env => { env with
        functions := env.functions ++
          [⟨decl, file, params, result, layout.block⟩] }) fun _ => Good := by
    intro found result weaker
    refine ((cleanly_parameterTypes _ _).mono weaker fun _ _ => id).bind fun types => ?_
    refine Cleanly.get.bind fun seen => ?_
    have added : Cleanly (fun checker =>
        (seen = checker ∧ Good checker ∧ types.length = decl.params.length) ∧
        (decl.name = "main" → decl.params = [] ∧ (result = .void ∨ result = .int)))
        (extend fun env => { env with
          functions := env.functions ++ [⟨decl, file,
            (decl.params.zip (types.zip
              (ArgumentLayout.ofSizes (types.map seen.environment.sizeOf)).offsets)).map
                fun part => ⟨part.1.name, part.2.1, part.2.2⟩, result,
            (ArgumentLayout.ofSizes (types.map seen.environment.sizeOf)).block⟩] })
        fun _ => Good := by
      refine .modify (fun _ => rfl) ?_
      rintro checker ⟨⟨rfl, ⟨settled, stored⟩, paired⟩, main⟩
      refine ⟨{ settled with
        params := fun found mem few => ?_
        words := fun found mem => ?_
        main := fun found mem named => ?_ }, stored⟩
      · rcases List.mem_append.mp mem with old | new
        · exact settled.params found old few
        · obtain rfl := List.mem_singleton.mp new
          exact settled.block paired few
      · rcases List.mem_append.mp mem with old | new
        · exact settled.words found old
        · rw [List.mem_singleton.mp new]
          exact dvd_alignUp _ (Nat.dvd_refl 8)
      · rcases List.mem_append.mp mem with old | new
        · exact settled.main found old named
        · obtain rfl := List.mem_singleton.mp new
          obtain ⟨none, result⟩ := main named
          exact ⟨by simp [none], result⟩
    refine .ite (fun _ => ?_) fun other => ?_
    · exact (cleanly_mainSignature _ _ _).bind fun _ =>
        added.mono (fun _ holds => ⟨holds.1, fun _ => holds.2⟩) fun _ _ => id
    · exact added.mono (fun _ holds => ⟨holds, fun main => absurd main other⟩) fun _ _ => id
  cases decl.result with
  | none => exact (Cleanly.pure fun _ holds => holds.2).bind fun result => rest Good _ fun _ => id
  | some type =>
    refine (cleanly_resolve _ _).bind fun type => ?_
    refine (Cleanly.pure fun _ holds => holds.1.2).bind fun result => rest Good _ fun _ => id

theorem cleanly_constant (file : SourceFile) (decl : ConstDecl) :
    Cleanly Good (constant file decl) fun _ => Good := by
  refine (cleanly_free _ _ _).bind fun free => .ite (fun _ => ?_) fun _ => .pure fun _ => And.left
  refine Cleanly.get.bind fun seen => ?_
  split
  · next constant found =>
    refine .modify (fun _ => rfl) ?_
    rintro checker ⟨rfl, ⟨settled, stored⟩, -⟩
    exact ⟨{ settled with }, stored⟩
  · exact .report

theorem cleanly_global (file : SourceFile) (decl : GlobalDecl) :
    Cleanly Good (global file decl) fun _ => Good := by
  refine (cleanly_free _ _ _).bind fun free => .ite (fun _ => ?_) fun _ => .pure fun _ => And.left
  refine (cleanly_resolve _ _).bind fun type => ?_
  split
  · exact .pure fun _ holds => holds.1.1
  · next type =>
    refine .ite (fun _ => .report) fun _ => Cleanly.get.bind fun seen => ?_
    have aligned : Cleanly (fun checker => seen = checker ∧
          (Good checker ∧ checker.environment.global? decl.name = none) ∧ some type ≠ none)
        (alignData (seen.environment.structs.alignOf type)) fun _ checker =>
          (checker.environment = seen.environment ∧
            seen.environment.global? decl.name = none) ∧ Good checker := by
      refine .modify (fun _ => rfl) ?_
      rintro checker ⟨rfl, ⟨⟨settled, stored⟩, free⟩, -⟩
      refine ⟨⟨rfl, free⟩, settled, stored.mono (Int.le_refl _) ?_⟩
      rw [Program.size_appendData]
      omega
    have reserved : Cleanly (fun checker => (checker.environment = seen.environment ∧
          seen.environment.global? decl.name = none) ∧ Good checker)
        (reserve (seen.environment.structs.sizeOf type)) fun offset checker =>
          (checker.environment = seen.environment ∧
            seen.environment.global? decl.name = none) ∧ checker.environment.Settled ∧
          (offset = none → checker.Stored) ∧ ∀ place, offset = some place →
            Slot.Follow 0 place (checker.environment.globals.map fun global =>
              ⟨global.offset, checker.environment.structs.sizeOf global.type⟩) ∧
            checker.program.data.size = place + seen.environment.structs.sizeOf type := by
      intro checker start
      refine (meets_reserve _ checker).mono ?_
      rintro _ _ (⟨rfl, rfl, -⟩ | ⟨rfl, rfl, -⟩) clean <;>
        obtain ⟨same, settled, stored⟩ := start clean
      · exact ⟨clean, same, settled, fun _ => stored, by simp⟩
      · refine ⟨clean, same, settled, by simp, fun place found => ?_⟩
        obtain rfl := Option.some.inj found
        exact ⟨stored, Program.size_appendData _ _⟩
    refine aligned.bind fun _ => reserved.bind fun offset => ?_
    cases offset with
    | none => exact .pure fun _ holds => ⟨holds.2.1, holds.2.2.1 rfl⟩
    | some offset =>
    refine .modify (fun _ => rfl) ?_
    rintro checker ⟨⟨same, free⟩, settled, -, places⟩
    obtain ⟨stored, size⟩ := places offset rfl
    refine ⟨{ settled with globals := ?_ }, ?_⟩
    · show ((checker.environment.globals ++ [_]).map _).Nodup
      rw [List.map_append, List.nodup_append]
      refine ⟨settled.globals, by simp, fun name taken other here same' => ?_⟩
      obtain ⟨global, listed, rfl⟩ := List.mem_map.mp taken
      rw [List.mem_singleton.mp here] at same'
      have missing := List.find?_eq_none.mp free global (same ▸ listed)
      exact missing (beq_iff_eq.mpr same')
    show Slot.Follow 0 checker.program.data.size (List.map _ (_ ++ [_]))
    rw [List.map_append]
    refine stored.snoc (Int.le_refl _) ?_
    rw [size, same]
    push_cast
    exact Int.le_refl _

theorem cleanly_strings (file : SourceFile) : Cleanly Good (strings file) fun _ => Good := by
  refine .modify (fun _ => rfl) fun checker good => ⟨good.1, ?_⟩
  rw [stored_strings]
  exact good.2.mono (Int.le_refl _) (Int.ofNat_le.mpr (checker.program.keeps_depositAll _).size_le)

theorem good_structs {files : List SourceFile}
    (clean : (StateT.run (structs files) {}).2.problems = #[]) :
    Good (StateT.run (structs files) {}).2 := by
  have same := frames_structs files {}
  obtain ⟨laid, done⟩ := meets_structs files
  have spans : ∀ name, (StateT.run (structs files) {}).2.environment.structs.Lies
      ((StateT.run (structs files) {}).2.environment.structs.get name).size
      ((StateT.run (structs files) {}).2.environment.structs.get name) := by
    intro name
    by_cases known : ((StateT.run (structs files) {}).2.environment.structs.get? name).isSome
    · exact laid.done name (done clean name known)
    · rw [StructTable.get, Option.not_isSome_iff_eq_none.mp known]
      exact fun _ => ⟨fun place => Int.le_of_eq (Int.add_zero place).symm,
        fun _ inside => absurd inside List.not_mem_nil, Nat.zero_le _⟩
  refine ⟨⟨fun name mem inside => (laid.members name mem inside).2, spans, laid.distinct,
    ?_, ?_, ?_, ?_⟩, ?_⟩
  · rw [same.globals]
    exact .nil
  · rw [same.functions]
    simp
  · rw [same.functions]
    simp
  · rw [same.functions]
    simp
  · rw [Checker.Stored, same.globals]
    exact Int.natCast_nonneg _

theorem cleanly_rest (files : List SourceFile) : Cleanly Good (do
    files.forM fun file => file.funcs.forM (function file)
    files.forM fun file => file.consts.forM (constant file)
    files.forM fun file => file.globals.forM (global file)
    files.forM strings) fun _ => Good :=
  (Cleanly.forM fun _ _ => .forM fun _ _ => cleanly_function _ _).bind fun _ =>
  (Cleanly.forM fun _ _ => .forM fun _ _ => cleanly_constant _ _).bind fun _ =>
  (Cleanly.forM fun _ _ => .forM fun _ _ => cleanly_global _ _).bind fun _ =>
  .forM fun _ _ => cleanly_strings _

end Check

/-- A check that reports no problem settles its declarations. -/
theorem Checker.settled_ofFiles {files : List SourceFile} (clean : (ofFiles files).problems = #[]) :
    (ofFiles files).environment.Settled ∧ (ofFiles files).Stored :=
  (Check.cleanly_rest files _ Check.good_structs clean).2

end TinLang
