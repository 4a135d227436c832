import Mathlib.Data.List.Nodup
import TinLang.Proofs.Layout

/-!
# The data segment

Global variables and strings are the tenants of the data segment. Each stands behind those before
it, so that no two of them share a byte; a global variable starts at a multiple of its alignment and
is zero, and a string ends in a zero. More data goes behind all of them, and a string that is stored
already is found at its place, so whatever is stored later leaves every tenant as it is.
-/
namespace TinLang

/-- Bytes that stand at an offset of the data segment. -/
structure Tenant where
  offset : Nat
  bytes : Text
  deriving DecidableEq, Repr

namespace Tenant

/-- The offset behind the bytes. -/
def stop (tenant : Tenant) : Nat := tenant.offset + tenant.bytes.length

/-- The bytes stand in some data. -/
def StandsIn (tenant : Tenant) (data : List UInt8) : Prop :=
  tenant.stop ≤ data.length ∧
    ∀ index < tenant.bytes.length, data[tenant.offset + index]? = tenant.bytes[index]?

theorem StandsIn.append {tenant : Tenant} {data : List UInt8} (stands : tenant.StandsIn data)
    (more : List UInt8) : tenant.StandsIn (data ++ more) := by
  obtain ⟨inside, bytes⟩ := stands
  refine ⟨by rw [List.length_append]; omega, fun index small => ?_⟩
  rw [← bytes index small, List.getElem?_append_left]
  unfold stop at inside
  omega

/-- Bytes that are added stand at the end. -/
theorem standsIn_append (data : List UInt8) (bytes : Text) :
    StandsIn ⟨data.length, bytes⟩ (data ++ bytes) := by
  refine ⟨by simp [stop], fun index small => ?_⟩
  rw [List.getElem?_append_right (Nat.le_add_right _ _), Nat.add_sub_cancel_left]

end Tenant

/-- The bytes of a string, with the zero behind them. -/
def InternedString.tenant (string : InternedString) : Tenant :=
  ⟨string.offset.toNat, string.text ++ [0]⟩

/-- The zeros that a global variable is at first. -/
def StructTable.tenantOf (table : StructTable) (global : Global) : Tenant :=
  ⟨global.offset, List.replicate (table.sizeOf global.type) 0⟩

/-- The global variables of an environment, then the strings of a program. -/
def Environment.tenants (env : Environment) (prog : Program) : List Tenant :=
  env.globals.map env.structs.tenantOf ++
    prog.interned.map InternedString.tenant

/-- The data segment of a program holds the global variables of an environment and the strings of
the program. -/
structure Environment.Arranged (env : Environment) (prog : Program) : Prop where
  stands : ∀ tenant ∈ env.tenants prog, tenant.StandsIn prog.data.toList
  /-- No two tenants share a byte. -/
  apart : (env.tenants prog).Pairwise fun first second => first.stop ≤ second.offset
  aligned : ∀ global ∈ env.globals,
    env.structs.alignOf global.type ∣ global.offset
  natural : ∀ string ∈ prog.interned, 0 ≤ string.offset
  /-- Equal strings share one place. -/
  distinct : (prog.interned.map InternedString.text).Nodup

namespace Program

/-- A call that stores something in the data segment. -/
inductive Deposit where
  | append (size : Nat) (initial : Text)
  | intern (text : Text)
  deriving Repr

/-- The program after a call that stores something. -/
def deposit (prog : Program) : Deposit → Program
  | .append size initial => (prog.appendData size initial).1
  | .intern text => (prog.intern text).1

/-- The program after some calls that store something. -/
def depositAll (prog : Program) (deposits : List Deposit) : Program :=
  deposits.foldl deposit prog

/-- A program keeps the data and the strings of an earlier one at their places. -/
structure Keeps (prog later : Program) : Prop where
  data : prog.data.toList <+: later.data.toList
  interned : prog.interned <+: later.interned

variable {prog : Program}

/-- What is appended stands behind the data. -/
theorem data_appendData (size : Nat) (initial : Text) :
    (prog.appendData size initial).1.data.toList =
      prog.data.toList ++ (initial.take size ++ List.replicate (size - initial.length) 0) := by
  by_cases empty : size = 0
  · simp [appendData, data, empty]
  · simp [appendData, data, empty]

/-- A string that is stored is found at its place. -/
theorem intern_of_mem (distinct : (prog.interned.map InternedString.text).Nodup)
    {string : InternedString} (mem : string ∈ prog.interned) :
    prog.intern string.text = (prog, string.offset) := by
  unfold intern
  split
  · next found there =>
    have text : found.text = string.text := by simpa using List.find?_some there
    rw [List.inj_on_of_nodup_map distinct (List.mem_of_find?_eq_some there) mem text]
  · next none =>
    have differs := List.find?_eq_none.mp none string mem
    simp at differs

theorem keeps_deposit (deposit : Deposit) : prog.Keeps (prog.deposit deposit) := by
  have append : ∀ size initial, prog.Keeps (prog.appendData size initial).1 :=
    fun size initial => ⟨⟨_, (data_appendData size initial).symm⟩, List.prefix_rfl⟩
  cases deposit with
  | append size initial => exact append size initial
  | intern text =>
    by_cases holds : prog.Holds text
    · obtain ⟨offset, same⟩ := intern_of_holds holds
      rw [Program.deposit, same]
      exact ⟨List.prefix_rfl, List.prefix_rfl⟩
    · rw [Program.deposit, intern_of_not_holds holds]
      exact ⟨(append (text.length + 1) text).data, List.prefix_append _ _⟩

theorem Keeps.size_le {later : Program} (keeps : prog.Keeps later) :
    prog.data.size ≤ later.data.size := by
  simpa using keeps.data.length_le

theorem keeps_depositAll (deposits : List Deposit) :
    prog.Keeps (prog.depositAll deposits) := by
  induction deposits generalizing prog with
  | nil => exact ⟨List.prefix_rfl, List.prefix_rfl⟩
  | cons deposit deposits ih =>
    have first := @keeps_deposit prog deposit
    have later := @ih (prog.deposit deposit)
    exact ⟨first.data.trans later.data, first.interned.trans later.interned⟩

end Program

namespace Environment.Arranged

open Program (Deposit)

variable {env : Environment} {prog : Program}

theorem appendData (arranged : env.Arranged prog) (size : Nat) (initial : Text) :
    env.Arranged (prog.appendData size initial).1 :=
  { arranged with
    stands := fun tenant mem => by
      rw [Program.data_appendData]
      exact (arranged.stands tenant mem).append _ }

/-- Another string goes behind all tenants. -/
theorem intern (arranged : env.Arranged prog) (text : Text) :
    env.Arranged (prog.intern text).1 := by
  by_cases holds : prog.Holds text
  · obtain ⟨offset, same⟩ := Program.intern_of_holds holds
    rwa [same]
  · have grown := arranged.appendData (text.length + 1) text
    have bytes : (prog.appendData (text.length + 1) text).1.data.toList =
        prog.data.toList ++ (text ++ [0]) := by
      rw [Program.data_appendData, List.take_of_length_le (Nat.le_succ _), Nat.add_sub_cancel_left]
      rfl
    have size : prog.data.toList.length = prog.data.size := Array.length_toList
    have last : InternedString.tenant ⟨prog.data.size, text⟩ =
        ⟨prog.data.toList.length, text ++ [0]⟩ := by
      rw [InternedString.tenant, size, Int.toNat_natCast]
    have tenants : env.tenants (prog.intern text).1 =
        env.tenants prog ++ [⟨prog.data.toList.length, text ++ [0]⟩] := by
      rw [Program.intern_of_not_holds holds, Environment.tenants, Environment.tenants,
        List.map_append, ← List.append_assoc, List.map_singleton, last]
    refine ⟨?_, ?_, arranged.aligned, ?_, ?_⟩
    · intro tenant mem
      rw [tenants] at mem
      rw [Program.intern_of_not_holds holds]
      show tenant.StandsIn (prog.appendData (text.length + 1) text).1.data.toList
      rcases List.mem_append.mp mem with old | new
      · exact grown.stands tenant old
      · rw [List.mem_singleton.mp new, bytes]
        exact Tenant.standsIn_append _ _
    · rw [tenants, List.pairwise_append]
      refine ⟨arranged.apart, List.pairwise_singleton _ _, fun tenant old second new => ?_⟩
      rw [List.mem_singleton.mp new]
      exact (arranged.stands tenant old).1
    · intro string mem
      rw [Program.intern_of_not_holds holds] at mem
      rcases List.mem_append.mp mem with old | new
      · exact arranged.natural string old
      · rw [List.mem_singleton.mp new]
        exact Int.natCast_nonneg _
    · rw [Program.intern_of_not_holds holds]
      show ((prog.interned ++ [_]).map InternedString.text).Nodup
      rw [List.map_append, List.nodup_append]
      refine ⟨arranged.distinct, by simp, fun first old second new same => ?_⟩
      obtain ⟨string, mem, rfl⟩ := List.mem_map.mp old
      have also : second = text := by simpa using new
      exact holds ⟨string, mem, same.trans also⟩

/-- Whatever is stored goes behind all tenants. -/
theorem depositAll (arranged : env.Arranged prog) (deposits : List Deposit) :
    env.Arranged (prog.depositAll deposits) := by
  induction deposits generalizing prog with
  | nil => exact arranged
  | cons deposit deposits ih =>
    cases deposit with
    | append size initial => exact ih (arranged.appendData size initial)
    | intern text => exact ih (arranged.intern text)

/-- Another global variable goes behind all others, as long as there are no strings. -/
theorem global (arranged : env.Arranged prog) (stringless : prog.interned = [])
    (decl : GlobalDecl) (file : SourceFile) {type : ValueType}
    (aligned : env.structs.alignOf type ∣ prog.data.size) :
    Arranged { env with
        globals := env.globals ++ [⟨decl, file, type, prog.data.size⟩] }
      (prog.appendData (env.structs.sizeOf type) []).1 := by
  have grown := arranged.appendData (env.structs.sizeOf type) []
  have none : (prog.appendData (env.structs.sizeOf type) []).1.interned = [] := stringless
  have bytes : (prog.appendData (env.structs.sizeOf type) []).1.data.toList =
      prog.data.toList ++ List.replicate (env.structs.sizeOf type) 0 := by
    rw [Program.data_appendData]
    simp
  have before : env.tenants prog =
      env.globals.map env.structs.tenantOf := by
    rw [Environment.tenants, stringless, List.map_nil, List.append_nil]
  have last : env.structs.tenantOf ⟨decl, file, type, prog.data.size⟩ =
      ⟨prog.data.toList.length, List.replicate (env.structs.sizeOf type) 0⟩ := by
    rw [StructTable.tenantOf, Array.length_toList]
  have tenants : Environment.tenants { env with
        globals := env.globals ++ [⟨decl, file, type, prog.data.size⟩] }
      (prog.appendData (env.structs.sizeOf type) []).1 =
      env.tenants prog ++
        [⟨prog.data.toList.length, List.replicate (env.structs.sizeOf type) 0⟩] := by
    rw [Environment.tenants, none, before, List.map_nil, List.append_nil, List.map_append,
      List.map_singleton, last]
  refine ⟨?_, ?_, ?_, ?_, ?_⟩
  · intro tenant mem
    rw [tenants] at mem
    rcases List.mem_append.mp mem with old | new
    · exact grown.stands tenant old
    · rw [List.mem_singleton.mp new, bytes]
      exact Tenant.standsIn_append _ _
  · rw [tenants, List.pairwise_append]
    refine ⟨arranged.apart, List.pairwise_singleton _ _, fun tenant old second new => ?_⟩
    rw [List.mem_singleton.mp new]
    exact (arranged.stands tenant old).1
  · intro global mem
    rcases List.mem_append.mp mem with old | new
    · exact arranged.aligned global old
    · rw [List.mem_singleton.mp new]
      exact aligned
  · rw [none]
    simp
  · rw [none]
    exact List.nodup_nil

end Environment.Arranged

/-- A struct contains itself. -/
def ProblemCause.circular : ProblemCause → Bool
  | .containsItself _ => true
  | _ => false

/-- Two checks with the same structs, of which the second may have more problems, but none of a
struct that contains itself. -/
structure Checker.Rested (before after : Checker) : Prop where
  structs : after.environment.structs = before.environment.structs
  drafts : after.drafts = before.drafts
  problems : ∀ problem ∈ before.problems, problem ∈ after.problems
  added : ∀ problem ∈ after.problems, problem.cause.circular = true → problem ∈ before.problems

/-- Two checks that also have the same global variables and program. -/
structure Checker.Kept (before after : Checker) : Prop extends Checker.Rested before after where
  globals : after.environment.globals = before.environment.globals
  program : after.program = before.program
  panicked : after.panicked = before.panicked

theorem Checker.Rested.trans {before between after : Checker} (first : before.Rested between)
    (second : between.Rested after) : before.Rested after :=
  ⟨second.structs.trans first.structs, second.drafts.trans first.drafts,
    fun problem mem => second.problems problem (first.problems problem mem),
    fun problem mem circular =>
      first.added problem (second.added problem mem circular) circular⟩

namespace Check

variable {α β : Type}

/-- A step places no global variable and stores nothing. -/
def Tame (step : Check α) : Prop := ∀ checker : Checker, checker.Kept (step.run checker).2

theorem Tame.pure (value : α) : Tame (pure value) :=
  fun _ => ⟨⟨rfl, rfl, fun _ => id, fun _ mem _ => mem⟩, rfl, rfl, rfl⟩

theorem Tame.get : Tame get :=
  fun _ => ⟨⟨rfl, rfl, fun _ => id, fun _ mem _ => mem⟩, rfl, rfl, rfl⟩

theorem Tame.bind {step : Check α} {next : α → Check β} (first : Tame step)
    (later : ∀ value, Tame (next value)) : Tame (step >>= next) := by
  intro checker
  have before := first checker
  have after := later (step.run checker).1 (step.run checker).2
  exact ⟨before.toRested.trans after.toRested, after.globals.trans before.globals,
    after.program.trans before.program, after.panicked.trans before.panicked⟩

theorem Tame.ite {test : Prop} [Decidable test] {yes no : Check α} (first : Tame yes)
    (second : Tame no) : Tame (if test then yes else no) := by
  split
  · exact first
  · exact second

theorem Tame.forM {step : α → Check PUnit} {items : List α} (each : ∀ item, Tame (step item)) :
    Tame (items.forM step) := by
  induction items with
  | nil => exact .pure _
  | cons item items ih => exact .bind (each item) fun _ => ih

theorem tame_report (file : Text) (span : Span) {cause : ProblemCause}
    (plain : cause.circular = false) : Tame (report file span cause) := by
  refine fun _ => ⟨⟨rfl, rfl, fun _ mem => Array.mem_push.mpr (.inl mem), ?_⟩, rfl, rfl, rfl⟩
  intro problem mem circular
  rcases Array.mem_push.mp mem with old | rfl
  · exact old
  · exact absurd circular (by simp [plain])

theorem tame_resolve (file : Text) (type : TypeExpr) : Tame (resolve file type) := by
  refine .bind .get fun _ => ?_
  split
  · exact .pure _
  · exact .bind (tame_report _ _ rfl) fun _ => .pure _

theorem tame_free (file : Text) (span : Span) (name : Text) : Tame (free file span name) :=
  .bind .get fun _ => .ite (.bind (tame_report _ _ rfl) fun _ => .pure _) (.pure _)

theorem tame_parameterTypes (file : Text) (fields : List Field) :
    Tame (parameterTypes file fields) := by
  induction fields with
  | nil => exact .pure _
  | cons field fields ih =>
    exact .bind (tame_resolve _ _) fun _ => .ite (.bind (tame_report _ _ rfl) fun _ =>
      .bind ih fun _ => .pure _) (.bind ih fun _ => .pure _)

theorem tame_mainSignature (file : Text) (decl : FuncDecl) (result : ValueType) :
    Tame (mainSignature file decl result) := by
  have second : Tame (if result ≠ .void ∧ result ≠ .int then
      report file decl.span (.mainResult result) else pure ()) :=
    .ite (tame_report _ _ rfl) (.pure _)
  exact .ite (.bind (tame_report _ _ rfl) fun _ => second) second

theorem tame_function (file : SourceFile) (decl : FuncDecl) :
    Tame (function file decl) := by
  refine .ite (tame_report _ _ rfl) (.bind .get fun _ => .ite (tame_report _ _ rfl) ?_)
  have rest : ∀ (params : List (Option ValueType) → Checker → List Parameter)
      (block : List (Option ValueType) → Checker → Nat) (result : ValueType), Tame (do
        let types ← parameterTypes file.name decl.params
        let checker ← get
        if decl.name = "main" then mainSignature file.name decl result
        extend fun env => { env with
          functions := env.functions ++
            [⟨decl, file, params types checker, result, block types checker⟩] }) := by
    intro params block result
    refine .bind (tame_parameterTypes _ _) fun types => .bind .get fun checker => ?_
    have entered : Tame (extend fun env => { env with
        functions := env.functions ++
          [⟨decl, file, params types checker, result, block types checker⟩] }) :=
      fun _ => ⟨⟨rfl, rfl, fun _ => id, fun _ mem _ => mem⟩, rfl, rfl, rfl⟩
    exact .ite (.bind (tame_mainSignature _ _ _) fun _ => entered) entered
  let layout (types : List (Option ValueType)) (checker : Checker) : ArgumentLayout :=
    .ofSizes (types.map checker.environment.sizeOf)
  let params (types : List (Option ValueType)) (checker : Checker) : List Parameter :=
    (decl.params.zip (types.zip (layout types checker).offsets)).map
      fun part => ⟨part.1.name, part.2.1, part.2.2⟩
  let block (types : List (Option ValueType)) (checker : Checker) : Nat :=
    (layout types checker).block
  cases decl.result with
  | none => exact rest params block .void
  | some type => exact .bind (tame_resolve _ _) fun _ => rest params block _

/-- A constant is refused for its literal or its type. -/
theorem circular_of_constantOf {env : Environment} {decl : ConstDecl} {span : Span}
    {cause : ProblemCause} (failed : env.constantOf decl = .error (span, cause)) :
    cause.circular = false := by
  unfold Environment.constantOf at failed
  repeat' split at failed
  all_goals cases failed <;> rfl

theorem tame_constant (file : SourceFile) (decl : ConstDecl) :
    Tame (constant file decl) := by
  refine .bind (tame_free _ _ _) fun free => .ite (.bind .get fun checker => ?_) (.pure _)
  split
  · exact fun _ => ⟨⟨rfl, rfl, fun _ => id, fun _ mem _ => mem⟩, rfl, rfl, rfl⟩
  · next failed => exact tame_report _ _ (circular_of_constantOf failed)

/-- A global variable of some files has a size that leaves the numbers of 64 bits. -/
def Overfull (files : List SourceFile) (checker : Checker) : Prop :=
  ∃ file ∈ files, ∃ decl ∈ file.globals, ∃ type,
    checker.environment.resolve? decl.type = some type ∧
      2 ^ 63 ≤ checker.program.data.size + checker.environment.structs.sizeOf type

theorem Overfull.later {files : List SourceFile} {before after : Checker}
    (overfull : Overfull files before) (structs : after.environment.structs =
    before.environment.structs)
    (size : before.program.data.size ≤ after.program.data.size) : Overfull files after := by
  obtain ⟨file, known, decl, declared, type, found, large⟩ := overfull
  refine ⟨file, known, decl, declared, type, ?_, ?_⟩
  · unfold Environment.resolve? at found ⊢
    rwa [structs]
  · rw [structs]
    omega

variable {files : List SourceFile} {file : SourceFile} {decl : GlobalDecl}

/-- What holds of a check that places global variables. -/
structure Placing (files : List SourceFile) (checker : Checker) : Prop where
  even : ∀ name, (checker.environment.structs.get name).align ∣ 8
  arranged : checker.program.data.size + 8 ≤ 2 ^ 63 →
    checker.environment.Arranged checker.program
  stringless : checker.program.interned = []
  overfull : checker.panicked = true → Overfull files checker

theorem Tame.placing {step : Check α} (tame : Tame step) :
    Leads (Placing files) step (Placing files) := by
  intro checker placing
  have kept := tame checker
  have tenants : (step.run checker).2.environment.tenants (step.run checker).2.program =
      checker.environment.tenants checker.program := by
    rw [Environment.tenants, Environment.tenants, kept.structs, kept.globals, kept.program]
  refine ⟨?_, fun short => ?_, ?_, fun ended => ?_⟩
  · rw [kept.structs]
    exact placing.even
  · have arranged := placing.arranged (kept.program ▸ short)
    refine ⟨?_, ?_, ?_, ?_, ?_⟩
    · rw [tenants, kept.program]
      exact arranged.stands
    · rw [tenants]
      exact arranged.apart
    · rw [kept.structs, kept.globals]
      exact arranged.aligned
    · rw [kept.program]
      exact arranged.natural
    · rw [kept.program]
      exact arranged.distinct
  · rw [kept.program]
    exact placing.stringless
  · exact (placing.overfull (kept.panicked.symm.trans ended)).later kept.structs
      (Nat.le_of_eq (congrArg (·.data.size) kept.program).symm)

/-- The data segment is filled up to an alignment. -/
theorem size_padded {prog : Program} {align : Nat} (even : align ∣ 8)
    (short : prog.data.size + 8 ≤ 2 ^ 63) : (prog.appendData
      (padding prog.data.size align) []).1.data.size = alignUp prog.data.size align := by
  have positive := Nat.pos_of_dvd_of_pos even (by decide)
  have narrow := Nat.le_of_dvd (by decide) even
  have reached := le_alignUp positive (show prog.data.size + align ≤ 2 ^ 63 by omega)
  have within := alignUp_lt positive (show prog.data.size + align ≤ 2 ^ 63 by omega)
  rw [Program.size_appendData, padding, wrapSigned_eq (by omega) (by omega)]
  omega

/-- A type that is found leaves the check as it is. -/
theorem meets_resolve_some (file : Text) (type : TypeExpr) (checker : Checker) :
    Meets (resolve file type) checker fun value after => ∀ found, value = some found →
      after = checker ∧ checker.environment.resolve? type = some found := by
  refine .at ?_
  split
  · next there => exact fun _ same => ⟨rfl, there.trans same⟩
  · exact fun _ none => absurd none.symm (Option.some_ne_none _)

/-- The data segment is filled up to the alignment of the next global variable. -/
theorem Placing.aligned {checker : Checker} (placing : Placing files checker) (type : ValueType) :
    Meets (alignData (checker.environment.structs.alignOf type)) checker fun _ after =>
      Placing files after ∧ after.environment = checker.environment ∧
        (after.program.data.size + 8 ≤ 2 ^ 63 →
          checker.environment.structs.alignOf type ∣ after.program.data.size) := by
  have even := StructTable.alignOf_dvd placing.even type
  refine (meets_alignData _ _).mono ?_
  rintro _ _ rfl
  have filled := @size_padded checker.program _ even
  generalize padding _ _ = count at filled ⊢
  have grown := checker.program.size_appendData count []
  refine ⟨⟨placing.even, fun short => ?_, (Program.interned_appendData _ _).trans
    placing.stringless, fun ended => ?_⟩, rfl, fun short => ?_⟩
  · exact (placing.arranged (by dsimp only at short; omega)).appendData _ []
  · exact (placing.overfull ended).later rfl (by dsimp only; omega)
  · dsimp only at short ⊢
    rw [filled (by omega)]
    exact dvd_alignUp _ even

/-- A global variable is placed at the next multiple of its alignment. -/
theorem placing_global (known : file ∈ files) (declared : decl ∈ file.globals) :
    Leads (Placing files) (global file decl) (Placing files) := by
  refine .bind (tame_free _ _ _).placing fun free => .ite (fun _ checker placing => ?_)
    fun _ => fun _ => id
  have resolved : Meets (resolve file.name decl.type) checker fun type after =>
      Placing files after ∧ ∀ found, type = some found →
        after = checker ∧ checker.environment.resolve? decl.type = some found :=
    ⟨(tame_resolve file.name decl.type).placing checker placing,
      meets_resolve_some file.name decl.type checker⟩
  show Meets (resolve file.name decl.type >>= _) checker fun _ => Placing files
  refine Meets.bind resolved ?_
  rintro type after ⟨placing, resolved⟩
  cases type with
  | none => exact placing
  | some type =>
    obtain ⟨rfl, found⟩ := resolved type rfl
    dsimp only
    split
    · exact (tame_report _ _ rfl).placing after placing
    refine .at (Meets.bind (placing.aligned type) ?_)
    rintro - between ⟨placed, same, multiple⟩
    rw [← same] at found multiple ⊢
    refine Meets.bind (meets_reserve _ _) ?_
    rintro _ _ (⟨rfl, rfl, large⟩ | ⟨rfl, rfl, -⟩)
    · exact ⟨placed.even, placed.arranged, placed.stringless, fun _ =>
        ⟨file, known, decl, declared, type, found, large⟩⟩
    · have more := between.program.size_appendData (between.environment.structs.sizeOf type) []
      have above : between.program.data.size ≤ (between.program.appendData
        (between.environment.structs.sizeOf type) []).1.data.size := more ▸ Nat.le_add_right _ _
      refine ⟨placed.even, fun short => ?_, placed.stringless, fun ended =>
        (placed.overfull ended).later rfl above⟩
      have before := Nat.le_trans (Nat.add_le_add_right above 8) short
      exact (placed.arranged before).global placed.stringless decl file (multiple before)

/-- A declaration of a global variable has led to one, or to a problem at its place, or the check
has ended the whole program. -/
def Admitted (file : SourceFile) (decl : GlobalDecl) (checker : Checker) : Prop :=
  checker.panicked = true ∨
  (∃ global ∈ checker.environment.globals, global.declaration = decl ∧ global.file = file) ∨
    ∃ problem ∈ checker.problems, problem.file = file.name ∧
      (problem.position = decl.span.start ∨ problem.position = decl.type.span.start)

/-- A step leaves the structs alone, and takes back no global variable, no problem and no data. -/
def Lasting (step : Check α) : Prop := ∀ checker : Checker,
  ((∀ global ∈ checker.environment.globals, global ∈ (step.run checker).2.environment.globals) ∧
    (checker.panicked = true → (step.run checker).2.panicked = true) ∧
    checker.program.data.size ≤ (step.run checker).2.program.data.size) ∧
  checker.Rested (step.run checker).2

theorem Tame.lasting {step : Check α} (tame : Tame step) : Lasting step := fun checker =>
  ⟨⟨fun _ mem => (tame checker).globals ▸ mem, fun ended => (tame checker).panicked.trans ended,
    Nat.le_of_eq (congrArg (·.data.size) (tame checker).program).symm⟩, (tame checker).toRested⟩

theorem Lasting.bind {step : Check α} {next : α → Check β} (first : Lasting step)
    (later : ∀ value, Lasting (next value)) : Lasting (step >>= next) := by
  intro checker
  have before := first checker
  have after := later (step.run checker).1 (step.run checker).2
  exact ⟨⟨fun global mem => after.1.1 global (before.1.1 global mem),
    fun ended => after.1.2.1 (before.1.2.1 ended), Nat.le_trans before.1.2.2 after.1.2.2⟩,
    before.2.trans after.2⟩

theorem Lasting.forM {step : α → Check PUnit} {items : List α}
    (each : ∀ item, Lasting (step item)) : Lasting (items.forM step) := by
  induction items with
  | nil => exact (Tame.pure _).lasting
  | cons item items ih => exact .bind (each item) fun _ => ih

theorem Lasting.admitted {step : Check α} (lasting : Lasting step) {file : SourceFile}
    {decl : GlobalDecl} : Leads (Admitted file decl) step (Admitted file decl) := by
  rintro checker (ended | ⟨global, mem, same⟩ | ⟨problem, mem, place⟩)
  · exact .inl ((lasting checker).1.2.1 ended)
  · exact .inr (.inl ⟨global, (lasting checker).1.1 global mem, same⟩)
  · exact .inr (.inr ⟨problem, (lasting checker).2.problems problem mem, place⟩)

theorem Lasting.store {step : Check α} (keeps : ∀ checker : Checker, ∃ prog,
    checker.program.Keeps prog ∧ (step.run checker).2 = { checker with program := prog }) :
      Lasting step := by
  intro checker
  obtain ⟨prog, kept, same⟩ := keeps checker
  rw [same]
  exact ⟨⟨fun _ => id, id, kept.size_le⟩, rfl, rfl, fun _ => id, fun _ mem _ => mem⟩

theorem lasting_reserve (size : Nat) : Lasting (reserve size) := by
  intro checker
  obtain ⟨-, same, -⟩ | ⟨-, same, -⟩ := meets_reserve size checker <;> rw [same]
  · exact ⟨⟨fun _ => id, fun _ => rfl, Nat.le_refl _⟩, rfl, rfl, fun _ => id, fun _ mem _ => mem⟩
  · exact ⟨⟨fun _ => id, id, (@Program.keeps_deposit checker.program (.append size [])).size_le⟩,
      rfl, rfl, fun _ => id, fun _ mem _ => mem⟩

theorem lasting_global (file : SourceFile) (decl : GlobalDecl) :
    Lasting (global file decl) := by
  refine .bind (tame_free _ _ _).lasting fun free => ?_
  split
  · refine .bind (tame_resolve _ _).lasting fun type => ?_
    split
    · exact (Tame.pure _).lasting
    · split
      · exact (tame_report _ _ rfl).lasting
      · refine .bind Tame.get.lasting fun _ => .bind (.store fun checker =>
          ⟨_, @Program.keeps_deposit checker.program (.append (padding _ _) []), rfl⟩) fun _ =>
            .bind (lasting_reserve _) fun place => ?_
        cases place with
        | none => exact (Tame.pure _).lasting
        | some =>
          exact fun _ => ⟨⟨fun _ mem => List.mem_append_left _ mem, id, Nat.le_refl _⟩, rfl, rfl,
            fun _ => id, fun _ mem _ => mem⟩
  · exact (Tame.pure _).lasting

theorem admitted_global (file : SourceFile) (decl : GlobalDecl) (checker : Checker) :
    Admitted file decl ((global file decl).run checker).2 := by
  have reported : ∀ (checker : Checker) (span : Span) cause,
      span.start = decl.span.start ∨ span.start = decl.type.span.start →
      Admitted file decl ((report file.name span cause).run checker).2 :=
    fun checker span cause place =>
      .inr (.inr ⟨_, Array.mem_push.mpr (.inr rfl), rfl, place⟩)
  have free : Meets (free file.name decl.span decl.name) checker fun value after =>
      value = false → Admitted file decl after := by
    refine .at ?_
    dsimp only
    split
    · exact fun _ => reported _ _ _ (.inl rfl)
    · exact fun taken => absurd taken Bool.noConfusion
  show Meets (global file decl) checker fun _ after => Admitted file decl after
  refine Meets.bind free fun value between taken => ?_
  cases value with
  | false => exact taken rfl
  | true =>
    have resolved : Meets (resolve file.name decl.type) between fun type after =>
        type = none → Admitted file decl after := by
      refine .at ?_
      split
      · exact fun unknown => absurd unknown (Option.some_ne_none _)
      · exact fun _ => reported _ _ _ (.inr rfl)
    refine Meets.bind resolved fun type after unknown => ?_
    cases type with
    | none => exact unknown rfl
    | some type =>
      dsimp only
      split
      · exact reported _ _ _ (.inl rfl)
      · refine .at (Meets.bind (.run (alignData _)) ?_)
        rintro - - ⟨-, rfl⟩
        refine Meets.bind (meets_reserve _ _) ?_
        rintro _ _ (⟨rfl, rfl, -⟩ | ⟨rfl, rfl, -⟩)
        · exact .inl rfl
        · exact .inr (.inl ⟨_, List.mem_append_right _ (List.mem_singleton.mpr rfl), rfl, rfl⟩)

/-- A step over all items establishes of each what its own step does, when no step undoes it. -/
theorem establishes_forM {step : α → Check PUnit} {items : List α} {holds : α → Checker → Prop}
    (each : ∀ item checker, holds item ((step item).run checker).2)
    (stays : ∀ item other, Leads (holds other) (step item) (holds other)) (checker : Checker) :
    ∀ item ∈ items, holds item ((items.forM step).run checker).2 := by
  induction items generalizing checker with
  | nil => simp
  | cons first items ih =>
    intro item mem
    rcases List.mem_cons.mp mem with rfl | later
    · exact Leads.forM (fun other _ => stays other item) ((step item).run checker).2
        (each item checker)
    · exact ih ((step first).run checker).2 item later

/-- The globals of all files. -/
def globals (files : List SourceFile) : Check Unit :=
  files.forM fun file => file.globals.forM (global file)

theorem admitted_globals (files : List SourceFile) (checker : Checker) :
    ∀ file ∈ files, ∀ decl ∈ file.globals,
      Admitted file decl ((globals files).run checker).2 := by
  refine @establishes_forM _ _ _ (fun file checker => ∀ decl ∈ file.globals,
    Admitted file decl checker) (fun file checker => ?_) (fun file other checker => ?_) checker
  · exact establishes_forM (admitted_global file)
      (fun item other => (lasting_global file item).admitted) checker
  · exact fun admitted decl mem =>
      (Lasting.forM (lasting_global file)).admitted _ (admitted decl mem)

theorem stored_strings (file : SourceFile) (prog : Program) :
    file.strings.foldl (fun prog text => (prog.intern text).1) prog =
      prog.depositAll (file.strings.map .intern) := by
  rw [Program.depositAll, List.foldl_map]
  rfl

theorem lasting_strings (file : SourceFile) : Lasting (strings file) :=
  .store fun checker => ⟨_, checker.program.keeps_depositAll (file.strings.map .intern),
    congrArg (fun prog => { checker with program := prog }) (stored_strings file checker.program)⟩

theorem arranged_strings (file : SourceFile) :
    Leads (fun checker => checker.environment.Arranged checker.program) (strings file)
      fun checker => checker.environment.Arranged checker.program := by
  intro checker arranged
  show checker.environment.Arranged (file.strings.foldl _ checker.program)
  rw [stored_strings]
  exact arranged.depositAll _

theorem placing_structs (files : List SourceFile) :
    Placing files ((structs files).run {}).2 := by
  have same := frames_structs files {}
  have laid := (meets_structs files).1
  have tenants : ((structs files).run {}).2.environment.tenants ((structs files).run {}).2.program =
      [] := by
    rw [Environment.tenants, same.globals, same.program]
    rfl
  refine ⟨laid.aligned, fun _ => ⟨?_, ?_, ?_, ?_, ?_⟩, ?_, fun ended => ?_⟩
  · rw [tenants]
    simp
  · rw [tenants]
    exact .nil
  · rw [same.globals]
    simp
  · rw [same.program]
    simp
  · rw [same.program]
    exact List.nodup_nil
  · rw [same.program]
  · rw [same.panicked] at ended
    contradiction

/-- The declarations of all files but the structs. -/
theorem placing_rest (files : List SourceFile) : Leads (Placing files) (do
    files.forM fun file => file.funcs.forM (function file)
    files.forM fun file => file.consts.forM (constant file)
    globals files) (Placing files) :=
  .bind (Tame.forM fun _ => .forM fun _ => tame_function _ _).placing fun _ =>
  .bind (Tame.forM fun _ => .forM fun _ => tame_constant _ _).placing fun _ =>
  .forM fun _ known => .forM fun _ declared => placing_global known declared

end Check

namespace Checker

open Check

/-- The check before the strings are stored. -/
def placed (files : List SourceFile) : Checker :=
  ((do
    files.forM fun file => file.funcs.forM (function file)
    files.forM fun file => file.consts.forM (constant file)
    globals files : Check Unit).run ((structs files).run {}).2).2

theorem ofFiles_eq (files : List SourceFile) :
    ofFiles files = ((files.forM strings).run (placed files)).2 := rfl

/-- Storing the strings leaves what was placed. -/
theorem lasting_of_files (files : List SourceFile) :
    (placed files).program.data.size ≤ (ofFiles files).program.data.size ∧
      (placed files).Rested (ofFiles files) ∧ (ofFiles files).panicked =
        (placed files).panicked := by
  rw [ofFiles_eq]
  have lasting := @Lasting.forM _ _ files lasting_strings (placed files)
  have ended : Leads (fun checker => checker.panicked = (placed files).panicked)
    (files.forM strings)
      fun checker => checker.panicked = (placed files).panicked :=
    .forM fun _ _ _ same => same
  exact ⟨lasting.1.2.2, lasting.2, ended _ rfl⟩

theorem arranged_of_files {files : List SourceFile} (short : (ofFiles files).program.data.size +
    8 ≤ 2 ^ 63) :
    (ofFiles files).environment.Arranged (ofFiles files).program := by
  have grown := (lasting_of_files files).1
  have arranged := (placing_rest files _ (placing_structs files)).arranged
  rw [ofFiles_eq]
  exact Leads.forM (fun file _ => arranged_strings file) _
    (arranged (Nat.le_trans (Nat.add_le_add_right grown 8) short))

/-- Only a global variable with a size that leaves the numbers of 64 bits ends the whole program. -/
theorem overfull_of_files {files : List SourceFile} (ended : (ofFiles files).panicked = true) :
    Overfull files (ofFiles files) := by
  obtain ⟨grown, rested, same⟩ := lasting_of_files files
  exact ((placing_rest files _ (placing_structs files)).overfull (same ▸ ended)).later
    rested.structs grown

/-- Every declaration of a global variable leads to one, or to a problem at its place. -/
theorem admitted_of_files {files : List SourceFile} {file : SourceFile} (known : file ∈ files)
    {decl : GlobalDecl} (declared : decl ∈ file.globals) :
    Admitted file decl (ofFiles files) := by
  rw [ofFiles_eq]
  exact (Lasting.forM lasting_strings).admitted _
    (admitted_globals files _ file known decl declared)

/-- Whatever the files declare and whatever is stored later, the data segment holds the global
variables and the strings apart from each other and at the places they were given, unless the size
of a global variable leaves the numbers of 64 bits. -/
theorem arranged_ofFiles {files : List SourceFile}
    (short : (ofFiles files).program.data.size + 8 ≤ 2 ^ 63)
    (roomy : ∀ file ∈ files, ∀ decl ∈ file.globals, ∀ type,
      (ofFiles files).environment.resolve? decl.type = some type →
        (ofFiles files).program.data.size + (ofFiles files).environment.structs.sizeOf
          type < 2 ^ 63)
    (deposits : List Program.Deposit) :
    (ofFiles files).panicked = false ∧
      (ofFiles files).environment.Arranged ((ofFiles files).program.depositAll deposits) ∧
      (ofFiles files).program.Keeps ((ofFiles files).program.depositAll deposits) ∧
      (∀ file ∈ files, ∀ text ∈ file.strings, ∃ offset,
        (⟨offset, text⟩ : InternedString) ∈ (ofFiles files).program.interned ∧
        ((ofFiles files).program.depositAll deposits).intern text =
          ((ofFiles files).program.depositAll deposits, offset)) ∧
      ∀ file ∈ files, ∀ decl ∈ file.globals, Admitted file decl (ofFiles files) := by
  have arranged := (arranged_of_files short).depositAll deposits
  have keeps := @Program.keeps_depositAll (ofFiles files).program deposits
  refine ⟨Bool.eq_false_iff.mpr fun ended => ?_, arranged, keeps, fun file known text inside => ?_,
    fun file known decl declared => admitted_of_files known declared⟩
  · obtain ⟨file, known, decl, declared, type, found, large⟩ := overfull_of_files ended
    exact Nat.not_lt_of_le large (roomy file known decl declared type found)
  · obtain ⟨string, mem, rfl⟩ := holds_ofFiles ⟨file, known, inside⟩
    exact ⟨string.offset, mem,
      Program.intern_of_mem arranged.distinct (keeps.interned.subset mem)⟩

/-- A file with a character, an integer and a string. -/
def greeting : SourceFile where
  name := "greeting.tin"
  source := ""
  structs := []
  funcs := []
  globals := [⟨default, "flag", ⟨default, "char", 0⟩, none⟩,
    ⟨default, "count", ⟨default, "int", 0⟩, none⟩]
  consts := [⟨default, "HELLO", none, .string default "hi"⟩]

theorem arranged_ofFiles_greeting :
    (ofFiles [greeting]).program.data.size = 11 ∧
      (∀ decl ∈ greeting.globals, ∀ type,
        (ofFiles [greeting]).environment.resolve? decl.type = some type →
          11 + (ofFiles [greeting]).environment.structs.sizeOf type < 2 ^ 63) ∧
      (ofFiles [greeting]).environment.globals.map Global.offset = [0, 4] ∧
      (ofFiles [greeting]).program.interned = [⟨8, "hi"⟩] ∧
      (ofFiles [greeting]).environment.Arranged
        ((ofFiles [greeting]).program.depositAll [.append 3 [1], .intern "hi", .intern "bye"]) ∧
      ((ofFiles [greeting]).program.depositAll
        [.append 3 [1], .intern "hi", .intern "bye"]).interned = [⟨8, "hi"⟩, ⟨14, "bye"⟩] ∧
      ∀ decl ∈ greeting.globals, Admitted greeting decl (ofFiles [greeting]) := by
  have size : (ofFiles [greeting]).program.data.size = 11 := by decide
  have types : ∀ decl ∈ greeting.globals,
      (((ofFiles [greeting]).environment.resolve? decl.type).map
        (ofFiles [greeting]).environment.structs.sizeOf).getD 0 ≤ 4 := by decide
  have roomy : ∀ decl ∈ greeting.globals, ∀ type,
      (ofFiles [greeting]).environment.resolve? decl.type = some type →
        11 + (ofFiles [greeting]).environment.structs.sizeOf type < 2 ^ 63 := by
    intro decl declared type found
    have small := types decl declared
    rw [found] at small
    exact Nat.lt_of_le_of_lt (Nat.add_le_add_left small 11) (by decide)
  obtain ⟨-, arranged, -, -, admitted⟩ := @arranged_ofFiles [greeting]
    (by rw [size]; decide) (fun file known => by
      rw [List.mem_singleton.mp known, size]
      exact roomy) [.append 3 [1], .intern "hi", .intern "bye"]
  exact ⟨size, roomy, by decide, by decide, arranged, by decide,
    admitted greeting (List.mem_singleton.mpr rfl)⟩

/-- A struct with eight members of a type. -/
def octet (name : Text) (type : TypeExpr) : StructDecl :=
  ⟨default, name, ["a", "b", "c", "d", "e", "f", "g", "h"].map (⟨default, ·, type⟩)⟩

/-- Structs A to U, of which each holds eight of the one before it, and a variable of 2 ^ 63 bytes.
-/
def spreading : SourceFile where
  name := "spreading.tin"
  source := ""
  structs := octet "A" ⟨default, "char", 1⟩ ::
    (List.range 20).map fun below => octet [66 + below.toUInt8] ⟨default, [65 + below.toUInt8], 0⟩
  funcs := []
  globals := [⟨default, "wide", ⟨default, "T", 0⟩, none⟩]
  consts := []

/-- The sizes of T and U wrap around. -/
theorem spreading_checked :
    (ofFiles [spreading]).panicked = true ∧ (ofFiles [spreading]).problems.isEmpty ∧
    (ofFiles [spreading]).environment.globals.isEmpty ∧ (ofFiles [spreading]).progress? "U" =
    some .done ∧
    ((ofFiles [spreading]).environment.structs.get "U").size = 96 ∧
    ((ofFiles [spreading]).environment.structs.get "U").members.map Member.offset =
      (List.range 8).map fun index => index / 2 * 24 + index % 2 * (2 ^ 63 + 16) := by
  decide +kernel

/-- The program ends at a global variable of a size that leaves the numbers of 64 bits. -/
theorem panicked_spreading :
    (ofFiles [spreading]).panicked = true ∧ (ofFiles [spreading]).problems.isEmpty ∧
      ∃ decl ∈ spreading.globals, ∀ global ∈ (ofFiles [spreading]).environment.globals,
        global.declaration ≠ decl := by
  obtain ⟨ended, clean, unplaced, -⟩ := spreading_checked
  rw [List.isEmpty_iff] at unplaced
  exact ⟨ended, clean, _, List.mem_singleton.mpr rfl, fun global mem => by simp [unplaced] at mem⟩

end Checker

end TinLang
