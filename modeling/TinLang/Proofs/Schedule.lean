import Mathlib.Logic.Relation
import TinLang.Proofs.Build
import TinLang.Proofs.Diagnostic
import TinLang.Proofs.Grammar.Extents

/-!
# Builds under any schedule

The tasks of a build may take their steps in any order. When they store only strings that the
program holds already, and report at places of their own, no order can be told from another: every
task goes the same way, the program stays as it is, and the diagnostics of every place come in one
order. Both hold of the tasks of a build, so all schedules of a build have the result of working on
its tasks one after another.
-/
namespace TinLang

variable {files : List SourceFile} {prog : Program} {shared : Shared}

namespace Task

variable {α : Type}

/-- One of some tasks takes its next step. -/
inductive Step : List (Task α) × Shared → List (Task α) × Shared → Prop where
  | report (before after : List (Task α)) (diagnostic : Diagnostic) (rest : Task α)
    (shared : Shared) :
    Step (before ++ .report diagnostic rest :: after, shared)
      (before ++ rest :: after, { shared with diagnostics := shared.diagnostics.push diagnostic })
  | intern (before after : List (Task α)) (text : Text) (rest : Int → Task α) (shared : Shared) :
    Step (before ++ .intern text rest :: after, shared)
      (before ++ rest (shared.program.intern text).2 :: after,
        { shared with program := (shared.program.intern text).1 })

/-- Some tasks take steps in any order. -/
def Reaches : List (Task α) × Shared → List (Task α) × Shared → Prop := Relation.ReflTransGen Step

/-- Some tasks are worked on in any order to the end of all. -/
def Finishes (tasks : List (Task α)) (shared : Shared) (results : List α) (final : Shared) : Prop :=
  Reaches (tasks, shared) (results.map .done, final)

/-- A task can run to its end before the others. -/
theorem reaches_run (before after : List (Task α)) (task : Task α) (shared : Shared) :
    Reaches (before ++ task :: after, shared)
      (before ++ .done (task.run shared).1 :: after, (task.run shared).2) := by
  induction task generalizing shared with
  | done result => exact .refl
  | report diagnostic rest ih => exact .head (.report before after diagnostic rest shared) (ih _)
  | intern text rest ih => exact .head (.intern before after text rest shared) (ih _ _)

/-- Working on tasks one after another is one of the orders. -/
theorem finishes_runAll (tasks : List (Task α)) (shared : Shared) :
    Finishes tasks shared (runAll tasks shared).1 (runAll tasks shared).2 := by
  have later : ∀ (tasks : List (Task α)) (before : List (Task α)) (shared : Shared),
      Reaches (before ++ tasks, shared)
        (before ++ (runAll tasks shared).1.map .done, (runAll tasks shared).2) := by
    intro tasks
    induction tasks with
    | nil => exact fun _ _ => .refl
    | cons task tasks ih =>
      intro before shared
      have first := reaches_run before tasks task shared
      have rest := ih (before ++ [.done (task.run shared).1]) (task.run shared).2
      rw [List.append_assoc, List.append_assoc] at rest
      exact first.trans rest
  exact later tasks [] shared

/-- What a task reports while the program stays as it is. -/
def trace (prog : Program) : Task α → List Diagnostic
  | .done _ => []
  | .report diagnostic rest => diagnostic :: rest.trace prog
  | .intern text rest => (rest (prog.intern text).2).trace prog

/-- What a task yields while the program stays as it is. -/
def outcome (prog : Program) : Task α → α
  | .done result => result
  | .report _ rest => rest.outcome prog
  | .intern text rest => (rest (prog.intern text).2).outcome prog

/-- The trace of a task holds only what it may report. -/
theorem Does.reported {reports : Diagnostic → Prop} {stores : Text → Prop} {yields : α → Prop}
    {task : Task α} (does : task.Does reports stores yields) (prog : Program) :
    ∀ diagnostic ∈ task.trace prog, reports diagnostic := by
  induction does with
  | done => simp [trace]
  | report reported _ ih => simpa [trace] using ⟨reported, ih trivial⟩
  | intern _ _ ih => exact ih _

/-- No diagnostic of one task has the place of one of the other. -/
def Apart (prog : Program) (first second : Task α) : Prop :=
  ∀ one ∈ first.trace prog, ∀ other ∈ second.trace prog, one.place ≠ other.place

/-- Tasks that cannot tell in which order they are worked on. -/
structure Independent (prog : Program) (tasks : List (Task α)) : Prop where
  stores : ∀ task ∈ tasks, task.Does (fun _ => True) prog.Holds fun _ => True
  apart : tasks.Pairwise (Apart prog)

/-- The diagnostics of a place that were reported, and those that the tasks will still report. -/
def pending (prog : Program) (spot : Text × Int × Int) (tasks : List (Task α))
    (diagnostics : Array Diagnostic) : List Diagnostic :=
  Diagnostic.atPlace spot diagnostics.toList ++
    tasks.flatMap fun task => Diagnostic.atPlace spot (task.trace prog)

/-- Tasks at their end report nothing more. -/
theorem pending_done (prog : Program) (spot : Text × Int × Int) (results : List α)
    (diagnostics : Array Diagnostic) : pending prog spot (results.map .done) diagnostics =
      Diagnostic.atPlace spot diagnostics.toList := by
  have none : ((results.map .done).flatMap fun task : Task α =>
      Diagnostic.atPlace spot (task.trace prog)) = [] := by
    rw [List.flatMap_eq_nil_iff]
    intro task mem
    obtain ⟨result, _, rfl⟩ := List.mem_map.mp mem
    rfl
  rw [pending, none, List.append_nil]

/-- Tasks that have come from others the way they had to. -/
structure Follows (prog : Program) (tasks : List (Task α)) (shared : Shared)
    (later : List (Task α)) (after : Shared) : Prop where
  same : after.program = prog
  independent : Independent prog later
  outcomes : later.map (outcome prog) = tasks.map (outcome prog)
  pending : ∀ spot, pending prog spot later after.diagnostics =
    pending prog spot tasks shared.diagnostics

/-- A task of independent ones may go on. -/
theorem Independent.replace {before after : List (Task α)} {task rest : Task α}
    (independent : Independent prog (before ++ task :: after))
    (stores : rest.Does (fun _ => True) prog.Holds fun _ => True)
    (fewer : ∀ diagnostic ∈ rest.trace prog, diagnostic ∈ task.trace prog) :
    Independent prog (before ++ rest :: after) := by
  constructor
  · intro other mem
    rcases List.mem_append.mp mem with inside | inside
    · exact independent.stores other (List.mem_append_left _ inside)
    · rcases List.mem_cons.mp inside with rfl | inside
      · exact stores
      · exact independent.stores other (by simp [inside])
  · have apart := independent.apart
    rw [List.pairwise_append, List.pairwise_cons] at apart ⊢
    obtain ⟨left, ⟨ahead, right⟩, across⟩ := apart
    refine ⟨left, ⟨?_, right⟩, ?_⟩
    · exact fun other mem one inside => ahead other mem one (fewer one inside)
    · intro other mem last inside
      rcases List.mem_cons.mp inside with rfl | inside
      · exact fun one found two inside =>
          across other mem task (by simp) one found two (fewer two inside)
      · exact across other mem last (by simp [inside])

/-- The tasks before one that reports at a place report nothing there. -/
theorem Independent.silent {before after : List (Task α)} {rest : Task α}
    {diagnostic : Diagnostic}
    (independent : Independent prog (before ++ .report diagnostic rest :: after)) :
    (before.flatMap fun task => Diagnostic.atPlace diagnostic.place (task.trace prog)) = [] := by
  rw [List.flatMap_eq_nil_iff]
  intro task mem
  have apart := (List.pairwise_append.mp independent.apart).2.2 task mem
    (.report diagnostic rest) (by simp)
  rw [Diagnostic.atPlace, List.filter_eq_nil_iff]
  intro one inside same
  exact apart one inside diagnostic (by simp [trace]) (by simpa using same)

/-- Where one of independent tasks takes a step, the outcome is that of running them in a row. -/
theorem follows_step {tasks later : List (Task α)} {after : Shared}
    (same : shared.program = prog) (independent : Independent prog tasks)
    (step : Step (tasks, shared) (later, after)) : Follows prog tasks shared later after := by
  cases step with
  | report before behind diagnostic rest =>
    have stores : rest.Does (fun _ => True) prog.Holds fun _ => True := by
      have whole := independent.stores (.report diagnostic rest) (by simp)
      cases whole with
      | report _ later => exact later trivial
    refine ⟨same, independent.replace stores (by simp +contextual [trace]), by simp [outcome], ?_⟩
    intro spot
    by_cases here : diagnostic.place = spot
    · -- Only this task reports here, so what it reports comes next.
      have silent := independent.silent
      simp only [here, Diagnostic.atPlace] at silent
      simp [pending, trace, silent, Diagnostic.atPlace, here]
    · simp [pending, trace, Diagnostic.atPlace, here]
  | intern before behind text rest =>
    have whole := independent.stores (.intern text rest) (by simp)
    cases whole with
    | intern held later =>
      obtain ⟨offset, found⟩ := Program.intern_of_holds held
      subst same
      refine ⟨by simp [found], ?_, by simp [outcome], by simp [pending, trace]⟩
      exact independent.replace (later _) (by simp [trace])

/-- Independent tasks go the way they have to, in whatever order they take their steps. -/
theorem follows_of_reaches {tasks later : List (Task α)}
    {after : Shared} (same : shared.program = prog)
    (independent : Independent prog tasks)
    (reached : Reaches (tasks, shared) (later, after)) :
    Follows prog tasks shared later after := by
  generalize target : (later, after) = state at reached
  induction reached generalizing later after with
  | refl =>
    obtain ⟨rfl, rfl⟩ := Prod.mk.inj target
    exact ⟨same, independent, rfl, fun _ => rfl⟩
  | @tail between _ _ step ih =>
    subst target
    have first : Follows prog tasks shared between.1 between.2 := ih rfl
    have second := follows_step first.same first.independent step
    exact ⟨second.same, second.independent, second.outcomes.trans first.outcomes,
      fun spot => (second.pending spot).trans (first.pending spot)⟩

/-- The results of independent tasks, and what a report of their diagnostics lists, are those of
working on them one after another. -/
theorem finishes_eq {tasks : List (Task α)} {final : Shared} {results : List α}
    (independent : Independent shared.program tasks)
    (finished : Finishes tasks shared results final) :
    results = (runAll tasks shared).1 ∧ final.program = (runAll tasks shared).2.program ∧
      ∀ spot, Diagnostic.atPlace spot final.diagnostics.toList =
        Diagnostic.atPlace spot (runAll tasks shared).2.diagnostics.toList := by
  have ends : ∀ results : List α, ∀ final, Finishes tasks shared results final →
      results = tasks.map (outcome shared.program) ∧ final.program = shared.program ∧
        ∀ spot, Diagnostic.atPlace spot final.diagnostics.toList =
          pending shared.program spot tasks shared.diagnostics := by
    intro results final finished
    have follows := follows_of_reaches rfl independent finished
    refine ⟨?_, follows.same, ?_⟩
    · have outcomes := follows.outcomes
      simpa [Function.comp_def, outcome] using outcomes
    · intro spot
      rw [← follows.pending spot, pending_done]
  obtain ⟨first, second, third⟩ := ends results final finished
  obtain ⟨first', second', third'⟩ := ends _ _ (finishes_runAll tasks shared)
  exact ⟨first.trans first'.symm, second.trans second'.symm,
    fun spot => (third spot).trans (third' spot).symm⟩

end Task

namespace Build

variable {sources : List Source}

/-- Reading a source reports problems of its file only. -/
theorem does_reading (source : Source) :
    (reading source).Does (fun diagnostic => diagnostic.file = source.name) (fun _ => False)
      fun _ => True := by
  have named : ∀ diagnostic ∈ (SourceFile.parse source.name source.text).2,
      diagnostic.file = source.name := by
    intro diagnostic mem
    obtain ⟨problem, _, rfl⟩ := List.mem_map.mp mem
    rfl
  exact Task.does_reporting named trivial

/-- Sources under different names are read independently. -/
theorem independent_reading (prog : Program)
    (distinct : (sources.map Source.name).Nodup) :
    Task.Independent prog (sources.map reading) := by
  constructor
  · intro task mem
    obtain ⟨source, _, rfl⟩ := List.mem_map.mp mem
    exact (does_reading source).storing fun _ => False.elim
  · rw [List.pairwise_map]
    refine List.Pairwise.imp ?_ (List.pairwise_map.mp distinct)
    intro first second different one inside other found same
    have left := (does_reading first).reported prog one inside
    have right := (does_reading second).reported prog other found
    have files : one.file = other.file := congrArg Prod.fst same
    exact different (left.symm.trans (files.trans right))

/-- Files of different sources have different names. -/
theorem eq_of_name (distinct : (sources.map Source.name).Nodup) {file other : SourceFile}
    (known : file ∈ filesOf sources) (alsoKnown : other ∈ filesOf sources)
    (same : file.name = other.name) : file = other := by
  obtain ⟨source, inside, rfl⟩ := source_of_mem_filesOf known
  obtain ⟨source', inside', rfl⟩ := source_of_mem_filesOf alsoKnown
  obtain ⟨_, read⟩ := SourceFile.parse_readUpTo source.name source.text
  obtain ⟨_, read'⟩ := SourceFile.parse_readUpTo source'.name source'.text
  rw [read.name, read'.name] at same
  rw [List.inj_on_of_nodup_map distinct inside inside' same]

/-- The nodes of different declarations of a file stand apart. -/
theorem apart_of_ne {file : SourceFile} (known : file ∈ filesOf sources)
    {first second : Declaration} (declared : first ∈ file.declarations)
    (alsoDeclared : second ∈ file.declarations) (different : first ≠ second) :
    Apart first.places second.places := by
  obtain ⟨source, _, rfl⟩ := source_of_mem_filesOf known
  obtain ⟨_, read⟩ := SourceFile.parse_readUpTo source.name source.text
  have symmetric : Std.Symm fun one other : Declaration => Apart one.places other.places :=
    ⟨fun _ _ => Apart.symm⟩
  exact read.apart.forall declared alsoDeclared different

/-- The starts within a function are places of its declaration. -/
theorem place_of_function {decl : FuncDecl} {place : Position}
    (inside : place ∈ decl.starts) : place ∈ (Declaration.function decl).places :=
  List.mem_append_left _ (List.mem_append_left _ inside)

/-- Two functions do not report at one place. -/
theorem territory_apart (distinct : (sources.map Source.name).Nodup) {first second : Function}
    (firstMember : first ∈ (Checker.ofFiles (filesOf sources)).environment.functions)
    (secondMember : second ∈ (Checker.ofFiles (filesOf sources)).environment.functions)
    (different : first.name ≠ second.name) {file : Text} {here there : Position}
    (left : Territory (Checker.ofFiles (filesOf sources)).environment first file here)
    (right : Territory (Checker.ofFiles (filesOf sources)).environment second file there) :
    ¬ (here.line = there.line ∧ here.column = there.column) := by
  have sound := Checker.sound_ofFiles (filesOf sources)
  have mixed : ∀ {function : Function} {global : Global} {mine other : Position},
      function ∈ (Checker.ofFiles (filesOf sources)).environment.functions →
      global ∈ (Checker.ofFiles (filesOf sources)).environment.globals →
      function.file.name = global.file.name → mine ∈ function.declaration.starts →
      other ∈ global.declaration.starts →
      ¬ (mine.line = other.line ∧ mine.column = other.column) := by
    intro function global mine other inside mem same mineStarts otherStarts
    obtain ⟨known, declared⟩ := sound.functions function inside
    obtain ⟨globalKnown, globalDeclared⟩ := sound.globals global mem
    rw [← eq_of_name distinct known globalKnown same] at globalDeclared
    have apart := apart_of_ne known (SourceFile.mem_function declared)
      (SourceFile.mem_global globalDeclared) nofun
    exact apart mine (place_of_function mineStarts) other
      (List.mem_cons_of_mem _ (List.mem_cons_of_mem _ otherStarts))
  rcases left with ⟨named, starts⟩ | ⟨main, global, mem, named, starts⟩ <;>
    rcases right with ⟨named', starts'⟩ | ⟨main', global', member', named', starts'⟩
  · obtain ⟨known, declared⟩ := sound.functions first firstMember
    obtain ⟨known', declared'⟩ := sound.functions second secondMember
    rw [← eq_of_name distinct known known' (named.symm.trans named')] at declared'
    have apart := apart_of_ne known (SourceFile.mem_function declared)
      (SourceFile.mem_function declared') fun same =>
        different (congrArg FuncDecl.name (Declaration.function.inj same))
    exact apart here (place_of_function starts) there (place_of_function starts')
  · exact mixed firstMember member' (named.symm.trans named') starts starts'
  · intro same
    exact mixed secondMember mem (named'.symm.trans named) starts' starts
      ⟨same.1.symm, same.2.symm⟩
  · exact absurd (main.trans main'.symm) different

/-- The functions of checked files are generated independently. -/
theorem independent_tasks (distinct : (sources.map Source.name).Nodup) :
    Task.Independent (Checker.ofFiles (filesOf sources)).program
      (tasks (Checker.ofFiles (filesOf sources)).environment) := by
  constructor
  · intro task mem
    obtain ⟨function, inside, rfl⟩ := List.mem_map.mp mem
    exact (does_generate inside).storing fun _ literal => Checker.holds_ofFiles literal
  · have names := (Checker.sound_ofFiles (filesOf sources)).names
    rw [tasks, List.pairwise_map]
    refine List.Pairwise.imp_of_mem ?_ (List.pairwise_map.mp names)
    intro first second firstMember secondMember different one inside other found same
    obtain ⟨file, here, _, left, rfl⟩ := (does_generate firstMember).reported _ one inside
    obtain ⟨file', there, _, right, rfl⟩ := (does_generate secondMember).reported _ other found
    simp only [Diagnostic.place, Diagnostic.located, Prod.mk.injEq] at same
    obtain ⟨rfl, line, column⟩ := same
    exact territory_apart distinct firstMember secondMember different left right
      ⟨by omega, by omega⟩

/-- Some sources are built while their tasks take steps in any order: those that read the sources,
and, when they found no error, those that generate the functions. -/
inductive Scheduled (sources : List Source) : Build → Prop where
  | refused {files : List SourceFile} {shared : Shared}
    (read : Task.Finishes (sources.map reading) {} files shared)
    (found : shared.diagnostics.toList ≠ []) : Scheduled sources (ofRead files shared)
  | generated {files : List SourceFile} {shared after : Shared} {pieces : List Piece}
    (read : Task.Finishes (sources.map reading) {} files shared)
    (clean : shared.diagnostics.toList = [])
    (done : Task.Finishes (tasks (Checker.ofFiles files).environment)
      (checked (Checker.ofFiles files)) pieces after) :
    Scheduled sources ((finish files (Checker.ofFiles files).environment pieces after).ended
      (Checker.ofFiles files).panicked)

/-- Files are refused alike for the same diagnostics at every place. -/
theorem ofRead_eq {left right : Shared}
    (same : ∀ spot, Diagnostic.atPlace spot left.diagnostics.toList =
      Diagnostic.atPlace spot right.diagnostics.toList) :
    ofRead files left = ofRead files right := by
  unfold ofRead
  rcases Diagnostic.report_cases same with ⟨none, none'⟩ |
    ⟨first, firsts, second, seconds, some, some', sorted, count⟩
  · rw [none, none']
  · simp only [some, some', sorted, List.length_cons, count]

/-- Pieces are finished alike for the same program and the same diagnostics at every place. -/
theorem finish_eq {env : Environment} {pieces : List Piece}
    {left right : Shared} (prog : left.program = right.program)
    (same : ∀ spot, Diagnostic.atPlace spot left.diagnostics.toList =
      Diagnostic.atPlace spot right.diagnostics.toList) :
    finish files env pieces left = finish files env pieces right := by
  unfold finish
  rw [prog]
  rcases Diagnostic.report_cases same with ⟨none, none'⟩ |
    ⟨first, firsts, second, seconds, some, some', sorted, count⟩
  · rw [none, none']
  · simp only [some, some', sorted, List.length_cons, count]

/-- A build reads its sources as its schedules do. -/
theorem ofSources_eq (distinct : (sources.map Source.name).Nodup)
    (read : Task.Finishes (sources.map reading) {} files shared) :
    files = filesOf sources ∧ ofSources sources = ofRead files shared := by
  obtain ⟨results, _, diagnostics⟩ := Task.finishes_eq (independent_reading {} distinct) read
  refine ⟨results.trans (runAll_reading sources {}), ?_⟩
  rw [ofRead_eq diagnostics, results]
  rfl

/-- A schedule of a build has the result of working on its tasks one after another. -/
theorem eq_of_scheduled (distinct : (sources.map Source.name).Nodup) {build : Build}
    (scheduled : Scheduled sources build) : build = ofSources sources := by
  cases scheduled with
  | refused read found => exact (ofSources_eq distinct read).2.symm
  | generated read clean done =>
    obtain ⟨rfl, whole⟩ := ofSources_eq distinct read
    obtain ⟨rfl, prog, diagnostics⟩ := Task.finishes_eq (independent_tasks distinct) done
    rw [whole, ofRead, clean]
    exact congrArg (fun build : Build => build.ended (Checker.ofFiles (filesOf sources)).panicked)
      (finish_eq prog diagnostics)

/-- Working on the tasks of a build one after another is one of its schedules. -/
theorem scheduled_ofSources (sources : List Source) : Scheduled sources (ofSources sources) := by
  have read := Task.finishes_runAll (sources.map reading) {}
  have whole : ofSources sources = ofRead (Task.runAll (sources.map reading) {}).1
      (Task.runAll (sources.map reading) {}).2 := rfl
  by_cases clean : (Task.runAll (sources.map reading) {}).2.diagnostics.toList = []
  · rw [whole, ofRead, clean]
    exact .generated read clean (Task.finishes_runAll _ _)
  · exact .refused read clean

/-- Building does not depend on the order in which the tasks take their steps: every schedule has
the result of working on them one after another. And whatever steps the tasks that generate
functions have taken, no string they store has changed the program. -/
theorem scheduled_iff (distinct : (sources.map Source.name).Nodup) :
    (∀ build, Scheduled sources build ↔ build = ofSources sources) ∧
      ∀ waiting shared, Task.Reaches (tasks (Checker.ofFiles (filesOf sources)).environment,
          checked (Checker.ofFiles (filesOf sources))) (waiting, shared) →
        shared.program = (Checker.ofFiles (filesOf sources)).program := by
  refine ⟨fun build => ⟨eq_of_scheduled distinct, ?_⟩, ?_⟩
  · rintro rfl
    exact scheduled_ofSources sources
  · intro waiting shared reached
    exact (Task.follows_of_reaches rfl (independent_tasks distinct) reached).same

/-- Two sources that share a string, each with an unknown name. -/
def strangers : List Source :=
  [⟨"one.tin", "fun main() \x7b prints(\"hi\"); left; \x7d\n"⟩,
    ⟨"two.tin", "fun greet() \x7b right; prints(\"hi\"); \x7d\n"⟩]

/-- In every order both sources report their unknown names, and they share one string. -/
theorem scheduled_strangers : (strangers.map Source.name).Nodup ∧
    ∀ build, Scheduled strangers build →
      build.failure = some (.errors 2) ∧ build.program.interned = [⟨0, "hi"⟩] := by
  have distinct : (strangers.map Source.name).Nodup := by decide
  refine ⟨distinct, ?_⟩
  intro build scheduled
  rw [((scheduled_iff distinct).1 build).mp scheduled]
  decide +kernel

end Build

end TinLang
