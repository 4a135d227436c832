import Mathlib.Data.List.Forall2
import TinLang.Compile.Build
import TinLang.Proofs.Generate.Statement
import TinLang.Proofs.Link

/-!
# What a build produces

Generating the functions of checked files stores no new string, because the check has stored all
of them, and yields one sound piece for each function. So the pieces of a program that is built
without a problem are sound, and its calls have targets once it is linked.
-/
namespace TinLang

variable {sources : List Source} {file : SourceFile}

namespace Task

variable {α : Type} {reports : Diagnostic → Prop} {stores : Text → Prop} {yields : α → Prop}

/-- A task that stores only known strings leaves the program as it is. -/
theorem Does.run {task : Task α} (does : task.Does reports stores yields) {shared : Shared}
    (known : ∀ text, stores text → shared.program.Holds text) :
    yields (task.run shared).1 ∧ (task.run shared).2.program = shared.program := by
  induction does generalizing shared with
  | done yielded => exact ⟨yielded, rfl⟩
  | report _ _ ih => exact ih trivial known
  | @intern text rest stored _ ih =>
    obtain ⟨offset, same⟩ := Program.intern_of_holds (known text stored)
    have unchanged : (Task.intern text rest).run shared = (rest offset).run shared := by
      simp [Task.run, same]
    rw [unchanged]
    exact ih offset known

/-- Tasks that store only known strings leave the program as it is. -/
theorem runAll_of_does {item : Type} {tasks : item → Task α} {items : List item}
    {reports : item → Diagnostic → Prop} {yields : item → α → Prop}
    (each : ∀ item ∈ items, (tasks item).Does (reports item) stores (yields item))
    {shared : Shared} (known : ∀ text, stores text → shared.program.Holds text) :
    List.Forall₂ yields items (runAll (items.map tasks) shared).1 ∧
      (runAll (items.map tasks) shared).2.program = shared.program := by
  induction items generalizing shared with
  | nil => exact ⟨.nil, rfl⟩
  | cons item items ih =>
    obtain ⟨first, same⟩ := (each item (by simp)).run known
    have still : ∀ text, stores text → ((tasks item).run shared).2.program.Holds text := by
      rw [same]
      exact known
    obtain ⟨others, after⟩ := ih (fun other mem => each other (by simp [mem])) still
    exact ⟨.cons first others, after.trans same⟩

/-- A task that only reports. -/
theorem does_reporting {result : α} {found : List Diagnostic}
    (reported : ∀ diagnostic ∈ found, reports diagnostic) (yielded : yields result) :
    (reporting result found).Does reports stores yields := by
  induction found with
  | nil => exact .done yielded
  | cons diagnostic found ih =>
    exact .report (reported diagnostic (List.mem_cons_self ..))
      fun _ => ih fun other mem => reported other (List.mem_cons_of_mem _ mem)

/-- A task may be allowed more reports. -/
theorem Does.weaken {others : Diagnostic → Prop} {task : Task α}
    (does : task.Does reports stores yields)
    (weaker : ∀ diagnostic, reports diagnostic → others diagnostic) :
    task.Does others stores yields := by
  induction does with
  | done yielded => exact .done yielded
  | report reported _ ih => exact .report (weaker _ reported) ih
  | intern stored _ ih => exact .intern stored ih

/-- A property of older diagnostics and of those of a task holds behind it of all. -/
theorem Does.diagnostics {task : Task α} (does : task.Does reports stores yields) {shared : Shared}
    (before : ∀ diagnostic ∈ shared.diagnostics, reports diagnostic) :
    ∀ diagnostic ∈ (task.run shared).2.diagnostics, reports diagnostic := by
  induction does generalizing shared with
  | done => exact before
  | @report diagnostic rest reported _ ih =>
    refine @ih trivial { shared with diagnostics := shared.diagnostics.push diagnostic } ?_
    intro other mem
    rcases Array.mem_push.mp mem with old | rfl
    · exact before other old
    · exact reported
  | @intern text rest _ _ ih =>
    exact @ih (shared.program.intern text).2 { shared with program :=
      (shared.program.intern text).1 }
      before

/-- All diagnostics of some tasks satisfy a condition. -/
theorem diagnostics_runAll {item : Type} {tasks : item → Task α} {items : List item}
    (each : ∀ item ∈ items, (tasks item).Does reports stores yields) {shared : Shared}
    (before : ∀ diagnostic ∈ shared.diagnostics, reports diagnostic) :
    ∀ diagnostic ∈ (runAll (items.map tasks) shared).2.diagnostics, reports diagnostic := by
  induction items generalizing shared with
  | nil => exact before
  | cons item items ih =>
    exact ih (fun other mem => each other (List.mem_cons_of_mem _ mem))
      ((each item List.mem_cons_self).diagnostics before)

/-- Tasks leave the diagnostics that are there. -/
theorem clean_of_run {task : Task α} {shared : Shared}
    (clean : (task.run shared).2.diagnostics = #[]) : shared.diagnostics = #[] := by
  induction task generalizing shared with
  | done result => exact clean
  | report diagnostic rest ih => exact absurd (ih clean) (by simp)
  | intern text rest ih =>
    change ({ shared with program := (shared.program.intern text).1 } : Shared).diagnostics = #[]
    exact ih (shared.program.intern text).2 clean

/-- Where tasks end without a diagnostic there was none before. -/
theorem clean_of_runAll {tasks : List (Task α)} {shared : Shared}
    (clean : (runAll tasks shared).2.diagnostics = #[]) : shared.diagnostics = #[] := by
  induction tasks generalizing shared with
  | nil => exact clean
  | cons task tasks ih => exact clean_of_run (ih clean)

end Task

namespace Build

/-- The places where problems of a function are reported: its own nodes and, for main, the initial
values of the global variables. -/
def Territory (env : Environment) (function : Function) (file : Text)
    (position : Position) : Prop :=
  (file = function.file.name ∧ position ∈ function.declaration.starts) ∨
    (function.name = "main" ∧ ∃ global ∈ env.globals,
      file = global.file.name ∧ position ∈ global.declaration.starts)

/-- A diagnostic in the territory of a function. -/
def ReportedIn (env : Environment) (function : Function) (diagnostic : Diagnostic) : Prop :=
  ∃ file position message, Territory env function file position ∧
    diagnostic = .located file position message

variable {files : List SourceFile}

/-- The literals of declarations are literals of their files. -/
theorem literal_of_function {decl : FuncDecl} (known : file ∈ files)
    (declared : decl ∈ file.funcs) :
    ∀ text ∈ decl.body.strings, LiteralOf files text := by
  intro text mem
  refine ⟨file, known, ?_⟩
  simp only [SourceFile.strings, List.mem_append, List.mem_flatMap]
  exact .inr ⟨decl, declared, mem⟩

/-- Strings of global values are literals of the program. -/
theorem literal_of_global {decl : GlobalDecl} (known : file ∈ files)
    (declared : decl ∈ file.globals) :
    ∀ text ∈ Expr.stringsOf? decl.value, LiteralOf files text := by
  intro text mem
  refine ⟨file, known, ?_⟩
  simp only [SourceFile.strings, List.mem_append, List.mem_flatMap]
  exact .inl (.inr ⟨decl, declared, mem⟩)

/-- Strings of constants are literals of the program. -/
theorem literal_of_constant {decl : ConstDecl} (known : file ∈ files)
    (declared : decl ∈ file.consts) :
    ∀ text ∈ decl.value.strings, LiteralOf files text := by
  intro text mem
  refine ⟨file, known, ?_⟩
  simp only [SourceFile.strings, List.mem_append, List.mem_flatMap]
  exact .inl (.inl ⟨decl, declared, mem⟩)

/-- A piece is sound, and when a check of files reports no problem, a listing shows all there is in
its instructions. -/
def Shown (files : List SourceFile) (piece : Piece) : Prop :=
  piece.Sound (Checker.ofFiles files).environment.functions.length ∧
    ∀ instr, .instruction instr ∈ piece.code →
      (Checker.ofFiles files).problems = #[] → instr.Canonical

/-- Where the parameters of checked files are places, everything around a function has a type. -/
theorem around_ofFiles (params : ∀ function ∈ (Checker.ofFiles files).environment.functions,
    ∀ parameter ∈ function.params, Placed parameter.type) {function : Function}
    (listed : function ∈ (Checker.ofFiles files).environment.functions) :
    FunctionContext.Sound ⟨(Checker.ofFiles files).environment, function⟩ :=
  have placed := Checker.placed_ofFiles files
  ⟨placed.structs, fun place listed => (placed.globals place listed).1, params,
    params function listed, placed.constants⟩

/-- What generating a function of checked files does. -/
theorem does_generate {function : Function}
    (mem : function ∈ (Checker.ofFiles files).environment.functions) :
    (function.generate (Checker.ofFiles files).environment).Does
      (ReportedIn (Checker.ofFiles files).environment function) (LiteralOf files) fun piece =>
        Shown files piece ∧ piece.name = function.name := by
  have sound := Checker.sound_ofFiles files
  let ground : Ground := {
    context := ⟨(Checker.ofFiles files).environment, function⟩
    places := Territory (Checker.ofFiles files).environment function
    texts := LiteralOf files
    since := { name := function.name }
    past := True
    typed := (Checker.ofFiles files).problems = #[]
    sound := fun clean => around_ofFiles ((Checker.placed_ofFiles files).params clean) mem
    constants := by
      intro constant declared text inside
      obtain ⟨file, known, decl, found, same⟩ := sound.constants constant declared
      rw [same] at inside
      exact literal_of_constant known found text inside }
  obtain ⟨known, declared⟩ := sound.functions function mem
  refine Function.tracks_generate ground rfl ⟨?_, ?_⟩ ?_
  · exact fun start inside => .inl ⟨rfl, inside⟩
  · exact literal_of_function known declared
  · intro main global inside
    obtain ⟨globalKnown, globalDeclared⟩ := sound.globals global inside
    refine ⟨fun start found => .inr ⟨main, global, inside, rfl, found⟩, ?_⟩
    exact literal_of_global globalKnown globalDeclared

/-- Generating the functions of checked files leaves the program as it is and yields a sound piece
for each. -/
theorem runAll_tasks (files : List SourceFile) :
    List.Forall₂ (fun function piece =>
        Shown files piece ∧ piece.name = function.name)
          (Checker.ofFiles files).environment.functions
      (Task.runAll (tasks (Checker.ofFiles files).environment)
        (checked (Checker.ofFiles files))).1 ∧
      (Task.runAll (tasks (Checker.ofFiles files).environment)
        (checked (Checker.ofFiles files))).2.program = (Checker.ofFiles files).program :=
  Task.runAll_of_does (fun _ mem => does_generate mem)
    fun _ literal => Checker.holds_ofFiles literal

/-- The files that are read from sources. -/
def filesOf (sources : List Source) : List SourceFile :=
  sources.map fun source => (SourceFile.parse source.name source.text).1

/-- Every file of a build was read from one of its sources. -/
theorem source_of_mem_filesOf
    (mem : file ∈ filesOf sources) :
    ∃ source ∈ sources, file = (SourceFile.parse source.name source.text).1 := by
  obtain ⟨source, inside, rfl⟩ := List.mem_map.mp mem
  exact ⟨source, inside, rfl⟩

/-- Reading all sources gives their files. -/
theorem runAll_reading (sources : List Source) (shared : Shared) :
    (Task.runAll (sources.map reading) shared).1 = filesOf sources := by
  induction sources generalizing shared with
  | nil => rfl
  | cons source sources ih =>
    have first : ∀ (found : List Diagnostic) (file : SourceFile) (shared : Shared),
        ((Task.reporting file found).run shared).1 = file := by
      intro found file
      induction found with
      | nil => exact fun _ => rfl
      | cons diagnostic found ih => exact fun _ => ih _
    simp only [List.map_cons, Task.runAll, ih]
    exact congrArg (· :: filesOf sources) (first _ _ _)

/-- What a build does with the files that it reads. -/
theorem ofSources_eq_ofRead (sources : List Source) :
    ofSources sources = ofRead (filesOf sources) (Task.runAll (sources.map reading) {}).2 := by
  rw [← runAll_reading sources {}]
  rfl

/-- A build of files reports what their check and the generators report. -/
theorem mem_diagnostics_ofFiles (files : List SourceFile) (diagnostic : Diagnostic) :
    diagnostic ∈ (ofFiles files).diagnostics ↔
      diagnostic ∈ (Task.runAll (tasks (Checker.ofFiles files).environment)
        (checked (Checker.ofFiles files))).2.diagnostics := by
  unfold ofFiles finish ended
  dsimp only
  rw [← Array.mem_toList_iff]
  split
  · next none =>
    rw [none]
  · exact (List.mergeSort_perm _ _).mem_iff

/-- Sources without syntax errors are checked. -/
theorem ofSources_of_read
    (read : ∀ source ∈ sources, (SourceFile.parse source.name source.text).2 = []) :
    ofSources sources = ofFiles (filesOf sources) := by
  have quiet : (Task.runAll (sources.map reading) {}).2.diagnostics = #[] := by
    have each : ∀ source ∈ sources, (reading source).Does (fun _ => False) (fun _ => False)
        fun _ => True := by
      intro source mem
      have none : ∀ diagnostic ∈ (SourceFile.parse source.name source.text).2, False := by
        rw [read source mem]
        exact fun _ found => List.not_mem_nil found
      exact Task.does_reporting none trivial
    refine Array.eq_empty_iff_forall_not_mem.mpr fun diagnostic => ?_
    exact Task.diagnostics_runAll each (by simp) diagnostic
  rw [ofSources_eq_ofRead, ofRead, quiet]

/-- A build of sources without syntax errors reports what the check of their declarations and the
generators report. -/
theorem mem_diagnostics_iff
    (read : ∀ source ∈ sources, (SourceFile.parse source.name source.text).2 = [])
    (diagnostic : Diagnostic) : diagnostic ∈ (ofSources sources).diagnostics ↔
      diagnostic ∈ (Task.runAll (tasks (Checker.ofFiles (filesOf sources)).environment)
        (checked (Checker.ofFiles (filesOf sources)))).2.diagnostics := by
  rw [ofSources_of_read read]
  exact mem_diagnostics_ofFiles _ diagnostic

/-- A build without a failure has read sources without syntax errors. -/
theorem read_of_built (built : (ofSources sources).failure = none) :
    ∀ source ∈ sources, (SourceFile.parse source.name source.text).2 = [] := by
  have clean : (Task.runAll (sources.map reading) {}).2.diagnostics = #[] := by
    rw [ofSources_eq_ofRead, ofRead] at built
    split at built
    · next none => exact Array.toList_eq_nil_iff.mp none
    · contradiction
  revert clean
  generalize ({} : Shared) = shared
  clear built
  induction sources generalizing shared with
  | nil => exact fun _ => nofun
  | cons source sources ih =>
    intro clean
    refine List.forall_mem_cons.mpr ⟨?_, ih _ clean⟩
    have first : ((Task.reporting (SourceFile.parse source.name source.text).1
        (SourceFile.parse source.name source.text).2).run shared).2.diagnostics = #[] :=
      Task.clean_of_runAll clean
    generalize (SourceFile.parse source.name source.text).2 = found at first
    cases found with
    | nil => rfl
    | cons diagnostic found =>
      have kept := @Task.clean_of_run _ (Task.reporting _ found)
        { shared with diagnostics := shared.diagnostics.push diagnostic } first
      exact absurd kept (by simp)

/-- The program that a build links. -/
def unlinked (files : List SourceFile) : Program :=
  let checker := Checker.ofFiles files
  let (pieces, shared) := Task.runAll (tasks checker.environment) (checked checker)
  { shared.program with
    pieces := pieces.toArray, targets := (targets checker.environment).toArray }

/-- A build without a failure links the program of its files. -/
theorem link_of_built (built : (ofSources sources).failure = none) :
    (unlinked (filesOf sources)).link = ((ofSources sources).program, none) := by
  rw [ofSources_eq_ofRead] at built ⊢
  unfold ofRead ofFiles finish ended at built ⊢
  split at built
  · dsimp only at built ⊢
    split at built
    · contradiction
    split at built
    · have linked : ((unlinked (filesOf sources)).link.2.map BuildFailure.link) = none := built
      exact Prod.ext rfl (Option.map_eq_none_iff.mp linked)
    · contradiction
  · contradiction

/-- A build without a failure has given every global variable its place. -/
theorem panicked_of_built (built : (ofSources sources).failure = none) :
    (Checker.ofFiles (filesOf sources)).panicked = false := by
  rw [ofSources_of_read (read_of_built built)] at built
  refine Bool.eq_false_iff.mpr fun ended => ?_
  simp [ofFiles, Build.ended, ended] at built

/-- The targets of a program of files are its pieces. -/
theorem targetsPieces_unlinked {files : List SourceFile}
    (few : (unlinked files).pieces.size < 2 ^ 31) : (unlinked files).TargetsPieces := by
  intro index target found
  have count : (unlinked files).pieces.size =
    (Checker.ofFiles files).environment.functions.length :=
    (runAll_tasks files).1.length_eq.symm
  have there : (targets (Checker.ofFiles files).environment)[index]? = some target := by
    simpa [unlinked] using found
  simp only [targets, List.getElem?_map, Option.map_eq_some_iff, List.getElem?_zipIdx] at there
  obtain ⟨_, ⟨function, known, rfl⟩, rfl⟩ := there
  have small : index < (Checker.ofFiles files).environment.functions.length :=
    (List.getElem?_eq_some_iff.mp known).1
  have number : (BitVec.ofInt 32 ((index : Int) + 1)).toInt = (index : Int) + 1 := by
    rw [BitVec.toInt_ofInt, Int.bmod_eq_of_le (by omega) (by omega)]
  exact ⟨by simpa [CallTarget.bind] using number, by omega⟩

end Build

end TinLang
