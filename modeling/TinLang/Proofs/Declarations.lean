import TinLang.Compile.Declarations
import TinLang.Proofs.Strings

/-!
# Checked declarations

Whatever problems a check reports, the functions, global variables and constants it enters come
from the files, the functions under different names; and afterwards the data segment holds every
string literal of the files, each once.
-/
namespace TinLang

variable {file : SourceFile} {before after : Checker → Prop}

/-- The compiler reports that its own code for a statement is wrong. -/
def ProblemCause.internal : ProblemCause → Bool
  | .unbalanced .. | .unbalancedReturn _ => true
  | _ => false

/-- A diagnostic shows a problem that the program has. -/
def Diagnostic.OfProgram (diagnostic : Diagnostic) : Prop :=
  ∃ problem : Problem, problem.cause.internal = false ∧ diagnostic = problem.diagnostic

/-- Two checks with the same functions, global variables, constants and program. -/
structure Checker.Same (before after : Checker) : Prop where
  functions : after.environment.functions = before.environment.functions
  globals : after.environment.globals = before.environment.globals
  constants : after.environment.constants = before.environment.constants
  program : after.program = before.program
  panicked : after.panicked = before.panicked

namespace Check

variable {α β : Type}

/-- A step enters no function, global variable or constant and stores nothing. -/
def Frames (step : Check α) : Prop := ∀ checker : Checker, checker.Same (step.run checker).2

theorem Frames.pure (value : α) : Frames (pure value) := fun _ => ⟨rfl, rfl, rfl, rfl, rfl⟩

theorem Frames.get : Frames get := fun _ => ⟨rfl, rfl, rfl, rfl, rfl⟩

/-- A step that looks at the state may be examined at that state. -/
theorem Frames.at {next : Checker → Check β}
    (later : ∀ checker : Checker, checker.Same ((next checker).run checker).2) :
    Frames (MonadState.get >>= next) := later

theorem Frames.bind {step : Check α} {next : α → Check β} (first : Frames step)
    (later : ∀ value, Frames (next value)) : Frames (step >>= next) := by
  intro checker
  have before := first checker
  have after := later (step.run checker).1 (step.run checker).2
  exact ⟨after.functions.trans before.functions, after.globals.trans before.globals,
    after.constants.trans before.constants, after.program.trans before.program,
    after.panicked.trans before.panicked⟩

theorem Frames.ite {test : Prop} [Decidable test] {yes no : Check α} (first : Frames yes)
    (second : Frames no) : Frames (if test then yes else no) := by
  split
  · exact first
  · exact second

theorem Frames.forM {step : α → Check PUnit} {items : List α} (each : ∀ item, Frames (step item)) :
    Frames (items.forM step) := by
  induction items with
  | nil => exact .pure _
  | cons item items ih => exact .bind (each item) fun _ => ih

theorem frames_report (file : Text) (span : Span) (cause : ProblemCause) :
    Frames (report file span cause) := fun _ => ⟨rfl, rfl, rfl, rfl, rfl⟩

theorem frames_extendStructs (change : StructTable → StructTable) :
    Frames (extend fun env => { env with structs := change env.structs }) :=
  fun _ => ⟨rfl, rfl, rfl, rfl, rfl⟩

theorem frames_resolve (file : Text) (type : TypeExpr) : Frames (resolve file type) := by
  refine .bind .get fun _ => ?_
  split
  · exact .pure _
  · exact .bind (frames_report _ _ _) fun _ => .pure _

theorem frames_enterStruct (file : Text) (decl : StructDecl) :
    Frames (enterStruct file decl) := by
  refine .at fun checker => ?_
  split
  · exact frames_report _ _ _ checker
  · split
    · exact frames_report _ _ _ checker
    · exact ⟨rfl, rfl, rfl, rfl, rfl⟩

theorem frames_mark (name : Text) (progress : LayoutProgress) : Frames (mark name progress) :=
  fun _ => ⟨rfl, rfl, rfl, rfl, rfl⟩

theorem frames_placeMember (struct : Text) (offset : Nat) (name : Text) (type : ValueType) :
    Frames (placeMember struct offset name type) :=
  .bind .get fun _ => .bind (frames_extendStructs _) fun _ => .pure _

theorem frames_placeMembers {layout : Text → Check Bool} (file struct : Text) (offset : Nat)
    (seen : List Text) (fields : List Field) (inner : ∀ name, Frames (layout name)) :
    Frames (placeMembers layout file struct offset seen fields) := by
  induction fields generalizing offset seen with
  | nil => exact .bind (frames_extendStructs _) fun _ => .pure _
  | cons field fields ih =>
    unfold placeMembers
    refine .ite (.bind (frames_report _ _ _) fun _ => .pure _) ?_
    refine .bind (frames_resolve _ _) fun type => ?_
    split
    · exact .pure _
    · next type =>
      refine .ite (.bind (frames_report _ _ _) fun _ => .pure _) ?_
      have rest : ∀ complete : Bool, Frames (if complete then do
          let next ← placeMember struct offset field.name type
          placeMembers layout file struct next (field.name :: seen) fields
        else return false) :=
        fun _ => .ite (.bind (frames_placeMember _ _ _ _) fun _ => ih _ _) (.pure _)
      dsimp only
      split
      · exact .bind (inner _) fun _ => rest _
      · exact .bind (.pure _) fun _ => rest _

theorem frames_layoutStruct (depth : Nat) (name : Text) : Frames (layoutStruct depth name) := by
  induction depth generalizing name with
  | zero => exact .pure _
  | succ depth ih =>
    refine .bind .get fun checker => ?_
    split
    · exact .pure _
    · split
      · exact .pure _
      · exact .pure _
      · exact .bind (frames_report _ _ _) fun _ => .pure _
      · exact .bind (frames_mark _ _) fun _ =>
          .bind (frames_placeMembers _ _ _ _ _ ih) fun _ => .bind (frames_mark _ _) fun _ =>
          .pure _

theorem frames_structs (files : List SourceFile) : Frames (structs files) :=
  .bind (.forM fun _ => .forM fun _ => frames_enterStruct _ _) fun _ => .bind .get fun _ =>
    .forM fun _ => .bind (frames_layoutStruct _ _) fun _ => .pure _

theorem frames_parameterTypes (file : Text) (fields : List Field) :
    Frames (parameterTypes file fields) := by
  induction fields with
  | nil => exact .pure _
  | cons field fields ih =>
    exact .bind (frames_resolve _ _) fun _ => .ite (.bind (frames_report _ _ _) fun _ =>
      .bind ih fun _ => .pure _) (.bind ih fun _ => .pure _)

theorem frames_mainSignature (file : Text) (decl : FuncDecl) (result : ValueType) :
    Frames (mainSignature file decl result) := by
  have second : Frames (if result ≠ .void ∧ result ≠ .int then
      report file decl.span (.mainResult result) else pure ()) :=
    .ite (frames_report _ _ _) (.pure _)
  exact .ite (.bind (frames_report _ _ _) fun _ => second) second

theorem frames_free (file : Text) (span : Span) (name : Text) : Frames (free file span name) :=
  .bind .get fun _ => .ite (.bind (frames_report _ _ _) fun _ => .pure _) (.pure _)

end Check

/-- A string literal of some files. -/
def LiteralOf (files : List SourceFile) (text : Text) : Prop := ∃ file ∈ files, text ∈ file.strings

/-- What holds of a check at every point. -/
structure Checker.Sound (files : List SourceFile) (checker : Checker) : Prop where
  functions : ∀ function ∈ checker.environment.functions,
    function.file ∈ files ∧ function.declaration ∈ function.file.funcs
  /-- Functions have different names. -/
  names : (checker.environment.functions.map Function.name).Nodup
  globals : ∀ global ∈ checker.environment.globals,
    global.file ∈ files ∧ global.declaration ∈ global.file.globals
  constants : ∀ constant ∈ checker.environment.constants,
    ∃ file ∈ files, ∃ decl ∈ file.consts, constant.value = decl.value
  strings : checker.program.StringsAt (LiteralOf files)
  pieces : checker.program.pieces = #[]
  linked : checker.program.linked = false

theorem Checker.Sound.same {files : List SourceFile} {before after : Checker}
    (sound : before.Sound files) (same : before.Same after) : after.Sound files := by
  refine ⟨?_, ?_, ?_, ?_, ?_, ?_, ?_⟩
  · rw [same.functions]
    exact sound.functions
  · rw [same.functions]
    exact sound.names
  · rw [same.globals]
    exact sound.globals
  · rw [same.constants]
    exact sound.constants
  · rw [same.program]
    exact sound.strings
  · rw [same.program]
    exact sound.pieces
  · rw [same.program]
    exact sound.linked

namespace Check

variable {α β : Type} {files : List SourceFile}

/-- A step leads from one condition on the check to another. -/
def Leads (before : Checker → Prop) (step : Check α) (after : Checker → Prop) : Prop :=
  ∀ checker, before checker → after (step.run checker).2

theorem Leads.bind {between : Checker → Prop} {step : Check α} {next : α → Check β}
    (first : Leads before step between) (later : ∀ value, Leads between (next value) after) :
    Leads before (step >>= next) after :=
  fun checker holds => later _ _ (first checker holds)

theorem Leads.ite {test : Prop} [Decidable test]
    {yes no : Check α} (first : test → Leads before yes after)
    (second : ¬ test → Leads before no after) :
    Leads before (if test then yes else no) after := by
  split
  · next holds => exact first holds
  · next fails => exact second fails

/-- A step that looks at the state may be examined at that state. -/
theorem Leads.at {next : Checker → Check β}
    (later : ∀ checker, before checker → after ((next checker).run checker).2) :
    Leads before (MonadState.get >>= next) after := later

theorem Leads.forM {holds : Checker → Prop} {step : α → Check PUnit} {items : List α}
    (each : ∀ item ∈ items, Leads holds (step item) holds) :
    Leads holds (items.forM step) holds := by
  induction items with
  | nil => exact fun _ => id
  | cons item items ih =>
    exact .bind (each item (by simp)) fun _ => ih fun other mem => each other (by simp [mem])

theorem Frames.sound {step : Check α} (frames : Frames step) :
    Leads (Checker.Sound files) step (Checker.Sound files) :=
  fun checker sound => sound.same (frames checker)

/-- The name is not that of a function yet. -/
def Fresh (name : Text) (checker : Checker) : Prop :=
  ∀ function ∈ checker.environment.functions, function.name ≠ name

theorem Frames.fresh {step : Check α} {name : Text} (frames : Frames step) :
    Leads (fun checker => checker.Sound files ∧ Fresh name checker) step
      fun checker => checker.Sound files ∧ Fresh name checker := by
  intro checker holds
  have same := frames checker
  refine ⟨holds.1.same same, ?_⟩
  rw [Fresh, same.functions]
  exact holds.2

theorem fresh_of_function? {checker : Checker} {name : Text}
    (unknown : ¬ (checker.environment.function? name).isSome) : Fresh name checker := by
  intro function mem same
  obtain ⟨index, inside, found⟩ := List.mem_iff_getElem.mp mem
  refine unknown ?_
  rw [Environment.function?, Option.isSome_map, List.find?_isSome]
  exact ⟨(function, index), by simp [List.mem_zipIdx_iff_getElem?, ← found], by simp [same]⟩

/-- A function under a new name is entered. -/
theorem leads_addFunction {decl : FuncDecl} (known : file ∈ files)
    (declared : decl ∈ file.funcs) (params : List Parameter) (result : ValueType)
    (block : Nat) :
    Leads (fun checker => checker.Sound files ∧ Fresh decl.name checker)
      (extend fun env => { env with
        functions := env.functions ++ [⟨decl, file, params, result, block⟩] })
      (Checker.Sound files) := by
  rintro checker ⟨sound, fresh⟩
  refine { sound with functions := ?_, names := ?_ }
  · intro found mem
    rcases List.mem_append.mp mem with old | new
    · exact sound.functions found old
    · rw [List.mem_singleton.mp new]
      exact ⟨known, declared⟩
  · show ((checker.environment.functions ++
      [(⟨decl, file, params, result, block⟩ : Function)]).map Function.name).Nodup
    rw [List.map_append, List.nodup_append]
    refine ⟨sound.names, by simp, ?_⟩
    intro first firstMember second secondMember same
    obtain ⟨found, mem, rfl⟩ := List.mem_map.mp firstMember
    exact fresh found mem (same.trans (List.mem_singleton.mp secondMember))

theorem sound_function {decl : FuncDecl} (known : file ∈ files)
    (declared : decl ∈ file.funcs) :
    Leads (Checker.Sound files) (function file decl) (Checker.Sound files) := by
  unfold function
  refine .ite (fun _ => (frames_report _ _ _).sound) fun _ => .at fun checker sound => ?_
  split
  · exact (frames_report _ _ _).sound checker sound
  · next unknown =>
    have fresh := fresh_of_function? unknown
    have add : ∀ (params : Checker → List Parameter) (block : Checker → Nat) (result : ValueType),
        Leads (fun checker => checker.Sound files ∧ Fresh decl.name checker) (do
          let checker ← get
          if decl.name = "main" then mainSignature file.name decl result
          extend fun env => { env with
            functions := env.functions ++
              [⟨decl, file, params checker, result, block checker⟩] })
          (Checker.Sound files) := by
      intro params block result
      refine .bind Frames.get.fresh fun checker => .ite (fun _ => ?_) fun _ => ?_
      · exact .bind (frames_mainSignature _ _ _).fresh fun _ =>
          leads_addFunction known declared _ _ _
      · exact leads_addFunction known declared _ _ _
    have rest : ∀ (params : List (Option ValueType) → Checker → List Parameter)
        (block : List (Option ValueType) → Checker → Nat) (result : ValueType),
        Leads (fun checker => checker.Sound files ∧ Fresh decl.name checker) (do
          let types ← parameterTypes file.name decl.params
          let checker ← get
          if decl.name = "main" then mainSignature file.name decl result
          extend fun env => { env with
            functions := env.functions ++
              [⟨decl, file, params types checker, result, block types checker⟩] })
          (Checker.Sound files) :=
      fun params block result => .bind (frames_parameterTypes _ _).fresh fun types =>
        add (params types) (block types) result
    let layout (types : List (Option ValueType)) (checker : Checker) : ArgumentLayout :=
      .ofSizes (types.map checker.environment.sizeOf)
    let params (types : List (Option ValueType)) (checker : Checker) : List Parameter :=
      (decl.params.zip (types.zip (layout types checker).offsets)).map
        fun part => ⟨part.1.name, part.2.1, part.2.2⟩
    let block (types : List (Option ValueType)) (checker : Checker) : Nat :=
      (layout types checker).block
    cases decl.result with
    | none => exact rest params block .void checker ⟨sound, fresh⟩
    | some type =>
      have resolved := (frames_resolve file.name type).fresh checker ⟨sound, fresh⟩
      exact rest params block _ _ resolved

theorem sound_constant {decl : ConstDecl} (known : file ∈ files)
    (declared : decl ∈ file.consts) :
    Leads (Checker.Sound files) (constant file decl) (Checker.Sound files) := by
  refine .bind (frames_free _ _ _).sound fun free => .ite (fun _ => ?_) fun _ => fun _ => id
  refine .at fun checker sound => ?_
  split
  · next constant found =>
    have value : constant.value = decl.value := by
      unfold Environment.constantOf at found
      repeat' split at found
      all_goals first
        | contradiction
        | exact (congrArg Constant.value (Except.ok.inj found)).symm
    refine { sound with constants := ?_ }
    intro other mem
    rcases List.mem_append.mp mem with old | new
    · exact sound.constants other old
    · rw [List.mem_singleton.mp new]
      exact ⟨file, known, decl, declared, value⟩
  · exact (frames_report _ _ _).sound checker sound

theorem sound_appendData {checker : Checker} (sound : checker.Sound files) (size : Nat)
    (initial : Text) : Checker.Sound files
      { checker with program := (checker.program.appendData size initial).1 } :=
  { sound with
    strings := sound.strings.appendData size initial
    pieces := sound.pieces
    linked := sound.linked }

theorem sound_reserve (size : Nat) :
    Leads (Checker.Sound files) (reserve size) (Checker.Sound files) := by
  refine .at fun checker sound => ?_
  split
  · exact sound_appendData sound _ _
  · exact { sound with }

theorem sound_global {decl : GlobalDecl} (known : file ∈ files)
    (declared : decl ∈ file.globals) :
    Leads (Checker.Sound files) (global file decl) (Checker.Sound files) := by
  refine .bind (frames_free _ _ _).sound fun free => .ite (fun _ => ?_) fun _ => fun _ => id
  refine .bind (frames_resolve _ _).sound fun type => ?_
  split
  · exact fun _ => id
  · refine .ite (fun _ => (frames_report _ _ _).sound) fun _ => ?_
    refine .bind Frames.get.sound fun _ => ?_
    refine .bind (fun checker sound => sound_appendData sound _ _) fun _ => ?_
    refine .bind (sound_reserve _) fun offset => ?_
    cases offset with
    | none => exact fun _ => id
    | some offset =>
    intro checker sound
    refine { sound with globals := ?_ }
    intro other mem
    rcases List.mem_append.mp mem with old | new
    · exact sound.globals other old
    · rw [List.mem_singleton.mp new]
      exact ⟨known, declared⟩

theorem sound_strings (known : file ∈ files) :
    Leads (Checker.Sound files) (strings file) (Checker.Sound files) := by
  intro checker sound
  have stored := sound.strings.internAll fun text mem => ⟨file, known, mem⟩
  have unlinked := @Program.pieces_internAll checker.program file.strings
  exact { sound with
    strings := stored
    pieces := unlinked.1.trans sound.pieces
    linked := unlinked.2.trans sound.linked }

theorem sound_files : Leads (Checker.Sound files) (Check.files files) (Checker.Sound files) :=
  .bind (frames_structs files).sound fun _ =>
  .bind (.forM fun _ known => .forM fun _ declared => sound_function known declared) fun _ =>
  .bind (.forM fun _ known => .forM fun _ declared => sound_constant known declared) fun _ =>
  .bind (.forM fun _ known => .forM fun _ declared => sound_global known declared) fun _ =>
  .forM fun _ known => sound_strings known

/-- Storing the literals of files one after another stores all of them. -/
theorem holds_strings (stored : List SourceFile) (checker : Checker) :
    ∀ text, LiteralOf stored text ∨ checker.program.Holds text →
      (StateT.run (stored.forM strings) checker).2.program.Holds text := by
  induction stored generalizing checker with
  | nil =>
    rintro text (⟨file, mem, _⟩ | held)
    · simp at mem
    · exact held
  | cons file stored ih =>
    intro text holds
    refine ih _ text ?_
    rcases holds with ⟨other, mem, inside⟩ | held
    · rcases List.mem_cons.mp mem with rfl | later
      · exact .inr (Program.holds_internAll inside)
      · exact .inl ⟨other, later, inside⟩
    · exact .inr (held.internAll _)

end Check

namespace Checker

/-- The check of some files is sound. -/
theorem sound_ofFiles (files : List SourceFile) : (ofFiles files).Sound files := by
  refine Check.sound_files {} ⟨by simp, by simp, by simp, by simp, ?_, rfl, rfl⟩
  exact ⟨by simp, by simp, by simp, by simp⟩

/-- After a check the program holds every string literal of the files. -/
theorem holds_ofFiles {files : List SourceFile} {text : Text} (literal : LiteralOf files text) :
    (ofFiles files).program.Holds text :=
  Check.holds_strings files _ text (.inl literal)

end Checker

end TinLang
