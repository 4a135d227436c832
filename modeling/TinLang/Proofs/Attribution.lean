import TinLang.Proofs.Generate.Emission
import TinLang.Proofs.LineTable
import TinLang.Proofs.RoundTrip
import TinLang.Proofs.Schedule
import TinLang.Proofs.Settled

/-!
# Lines of initial values

Main gives the global variables their initial values before its body, and for each it sets the line
of the declaration in the file of the declaration. The code of an initial value ends in an
immediate, so it is not cancelled later, and in a program that is built each of its cells shows the
line that was set for it (`Build.line?_of_initializes`). Lines are told apart by their numbers:
where the line before has the same number in another file, the cells have the text from there.
-/
namespace TinLang

variable {place : Global} {earlier : List Global} {file : SourceFile} {piece : Piece} {value : Expr}
    {cell index : Nat}

namespace Task

variable {α β : Type} {prog : Program} {task : Task α} {result : α}

/-- What a task yields that reports nothing while the program stays as it is. -/
def silent? (prog : Program) : Task α → Option α
  | .done result => some result
  | .report _ _ => none
  | .intern text rest => (rest (prog.intern text).2).silent? prog

theorem silent?_andThen (prog : Program) (task : Task α) (next : α → Task β) :
    (task.andThen next).silent? prog =
      (task.silent? prog).bind fun result => (next result).silent? prog := by
  induction task with
  | done result => rfl
  | report diagnostic rest => rfl
  | intern text rest ih => exact ih _

/-- Of two tasks that report nothing each reports nothing. -/
theorem silent?_andThen_eq {next : α → Task β} {last : β}
    (silent : (task.andThen next).silent? prog = some last) :
    ∃ value, task.silent? prog = some value ∧ (next value).silent? prog = some last := by
  rw [silent?_andThen] at silent
  exact Option.bind_eq_some_iff.mp silent

theorem outcome_of_silent? (silent : task.silent? prog = some result) :
    task.outcome prog = result := by
  induction task with
  | done value => exact Option.some.inj silent
  | report => contradiction
  | intern text rest ih => exact ih _ silent

/-- Two conditions on the result of one task. -/
theorem Finds.and {one other : α → Prop} (first : task.Finds one) (second : task.Finds other) :
    task.Finds fun result => one result ∧ other result := by
  induction task with
  | done result => exact ⟨first, second⟩
  | report => trivial
  | intern text rest ih => exact fun offset => ih offset (first offset) (second offset)

theorem Finds.of_silent? {finds : α → Prop} (found : task.Finds finds)
    (silent : task.silent? prog = some result) : finds result := by
  induction task with
  | done value => exact Option.some.inj silent ▸ found
  | report => contradiction
  | intern text rest ih => exact ih _ (found _) silent

/-- A task that stores only known strings and runs without a report is silent. -/
theorem Does.silent?_eq {reports : Diagnostic → Prop} {stores : Text → Prop} {yields : α → Prop}
    (does : task.Does reports stores yields) {shared : Shared}
    (known : ∀ text, stores text → shared.program.Holds text)
    (quiet : (task.run shared).2.diagnostics = #[]) :
    task.silent? shared.program = some (task.run shared).1 := by
  induction does with
  | done => rfl
  | @report diagnostic rest =>
    have reported := @clean_of_run _ _
      { shared with diagnostics := shared.diagnostics.push diagnostic } quiet
    simp at reported
  | @intern text rest stored _ ih =>
    obtain ⟨offset, same⟩ := Program.intern_of_holds (known text stored)
    have unchanged : (Task.intern text rest).run shared = (rest offset).run shared := by
      simp [Task.run, same]
    rw [unchanged] at quiet ⊢
    rw [silent?, same]
    exact ih offset quiet

/-- Tasks that store only known strings and run without a report are silent. -/
theorem silent_runAll {item : Type} {tasks : item → Task α} {items : List item}
    {reports : item → Diagnostic → Prop} {stores : Text → Prop} {yields : item → α → Prop}
    (each : ∀ item ∈ items, (tasks item).Does (reports item) stores (yields item)) {shared : Shared}
    (known : ∀ text, stores text → shared.program.Holds text)
    (quiet : (runAll (items.map tasks) shared).2.diagnostics = #[]) :
    List.Forall₂ (fun item result => (tasks item).silent? shared.program = some result) items
      (runAll (items.map tasks) shared).1 := by
  induction items generalizing shared with
  | nil => exact .nil
  | cons item items ih =>
    have first := each item List.mem_cons_self
    have same := (first.run known).2
    have later := ih (fun other mem => each other (List.mem_cons_of_mem _ mem))
      (by rw [same]; exact known) quiet
    rw [same] at later
    exact .cons (first.silent?_eq known (clean_of_runAll quiet)) later

end Task

/-- The line of a declaration of a global variable, in its own file. -/
def Global.heading (place : Global) : SourceLine :=
  ⟨place.declaration.span.start.line, place.file.line place.declaration.span.start.line⟩

/-- The line of the declaration of a function, in its own file. -/
def Function.heading (function : Function) : SourceLine :=
  ⟨function.declaration.span.start.line, function.file.line function.declaration.span.start.line⟩

/-- The lines of the global variables that have an initial value. -/
def headingsOf (places : List Global) : List SourceLine :=
  (places.filter fun place => place.declaration.value.isSome).map Global.heading

/-- The last cell is an immediate. -/
def Piece.Firm (piece : Piece) : Prop :=
  ∃ (cell : Nat) (value : BitVec 32), piece.code[cell]? = some (.immediate value) ∧
    cell + 1 = piece.size

/-- A generator of main starts. -/
def Function.start (function : Function) : Generator :=
  { piece := { name := function.name }, file := function.file }

/-- Surroundings that allow every problem and every string, where nothing is promised past a
problem. -/
def Ground.silent (ctx : FunctionContext) (sound : ctx.Sound) (since : Piece) : Ground where
  context := ctx
  places _ _ := True
  texts _ := True
  since
  past := False
  typed := True
  sound _ := sound
  constants _ _ _ _ := trivial

namespace Generate

variable {ctx : FunctionContext} {sound : ctx.Sound} {since : Piece} {gen : Generator}

theorem admits_silent {starts : List Position} {strings : List Text} :
    Admits (.silent ctx sound since) file starts strings :=
  ⟨fun _ _ => trivial, fun _ _ => trivial⟩

/-- What a step keeps that reports nothing. -/
theorem Keeps.finds {α : Type} {step : Generate α} {yields : α → Prop}
    (keeps : Keeps (.silent ctx sound since) file step yields)
    (kept : (Ground.silent ctx sound since).Kept file [] gen) :
    (step ctx gen).Finds fun result =>
      (Ground.silent ctx sound since).Kept file [] result.2 ∧ yields result.1 :=
  .of_tracks (keeps [] _ kept)

theorem firm_emitImmediate (piece : Piece) (instr : Instruction) (value : BitVec 32) :
    (piece.emitImmediate instr value).1.Firm := by
  refine ⟨piece.size + 1, value, ?_, (Piece.size_emitImmediate piece instr value).symm⟩
  exact (Piece.getElem?_emitImmediate piece instr value).2

/-- Values are stored by instructions with immediates. -/
theorem finds_popSlots (base : Register) (slots : List Slot) (firm : gen.piece.Firm) :
    (popSlots base slots ctx gen).Finds fun result => result.2.piece.Firm := by
  induction slots generalizing gen with
  | nil => exact firm
  | cons slot slots ih => exact ih (firm_emitImmediate _ _ _)

/-- What giving a global variable its initial value does. -/
structure Initialized (place : Global) (gen later : Generator) : Prop where
  /-- Nothing but the piece changes. -/
  same : ∃ piece, later = { gen with piece }
  line : (gen.piece.setLine place.heading.number place.heading.text).SameLine later.piece
  bounded : later.piece.barrier ≤ later.piece.size
  firm : later.piece.Firm

theorem finds_initialGlobal (place : Global) (value : Expr)
    (kept : (Ground.silent ctx sound since).Kept file [] gen) :
    (initialGlobal place value ctx { gen with file := place.file }).Finds fun result =>
      Initialized place gen { result.2 with file := gen.file } := by
  have settled : Piece.Grows gen.piece (gen.piece.setLine place.heading.number
      place.heading.text) := Piece.grows_setLine kept.piece.labels _ _
  have emits : Emits (do
      let given ← coerce (← expr value) (some place.type)
      if ← fits value.span (some place.type) given (.globalValue place.name) then
        setDataAddress .b place.offset
        popTo .b 0 (some place.type)
      else discard given) :=
    (emits_expr value).bind fun _ => (emits_coerce _ _).bind fun _ => (emits_fits _ _ _ _).bind
      fun _ => .ite (fun _ => (emits_setDataAddress _ _).bind fun _ => emits_popTo _ _ _)
      fun _ => emits_discard _
  have turned : (Ground.silent ctx sound since).Kept place.file [] { gen with
      file := place.file } := { kept with file := rfl }
  have firm : (initialGlobal place value ctx { gen with file := place.file }).Finds
      fun result => result.2.piece.Firm := by
    refine @Task.Finds.andThen _ _ _ _ _ _ ((keeps_setLine _).finds turned) fun _ lined => ?_
    refine ((keeps_expr value admits_silent).finds lined.1).andThen ?_
    rintro ⟨type, between⟩ ⟨kept, known⟩
    refine ((keeps_coerce type (some place.type)).finds kept).andThen ?_
    rintro ⟨given, between⟩ ⟨kept, follows⟩
    refine ((keeps_fits _ _ _ trivial).finds kept).andThen ?_
    rintro ⟨fitting, between⟩ ⟨-, fits⟩
    obtain rfl : fitting = true := (fits (.some _) (follows known) trivial).resolve_right id
    exact finds_popSlots _ _ (firm_emitImmediate _ _ _)
  refine (firm.and (emits.finds ctx _ settled.bounded)).mono ?_
  rintro ⟨_, later⟩ ⟨closed, piece, rfl, emitted⟩
  exact ⟨⟨piece, rfl⟩, emitted.toSameLine, emitted.bounded, closed⟩

theorem initialGlobals_cons_none (none : place.declaration.value = none)
    (places : List Global) :
    initialGlobals (place :: places) ctx gen =
      initialGlobals places ctx gen := by
  unfold initialGlobals
  rw [none]
  cases places <;> rfl

theorem initialGlobals_cons_some
    (some : place.declaration.value = some value) (places : List Global) :
    initialGlobals (place :: places) ctx gen =
      (initialGlobal place value ctx { gen with file := place.file }).andThen
        fun result => initialGlobals places ctx { result.2 with file := gen.file } := by
  conv_lhs => unfold initialGlobals
  rw [some]
  rfl

theorem initialGlobals_append (earlier later : List Global) :
    initialGlobals (earlier ++ later) ctx gen =
      (initialGlobals earlier ctx gen).andThen
        fun result => initialGlobals later ctx result.2 := by
  induction earlier generalizing gen with
  | nil => rfl
  | cons place places ih =>
    rw [List.cons_append]
    cases found : place.declaration.value with
    | none => rw [initialGlobals_cons_none found, initialGlobals_cons_none found, ih]
    | some value =>
      rw [initialGlobals_cons_some found, initialGlobals_cons_some found, Task.andThen_assoc]
      exact congrArg _ (funext fun result => ih)

theorem opening_append (earlier later : List Global) :
    opening (earlier ++ later) ctx gen =
      (opening earlier ctx gen).andThen
        fun result => initialGlobals later ctx result.2 := by
  have opened : ∀ places, opening places ctx gen =
      (declareParameters ctx.function ctx.function.params ctx
        { gen with scopes := [] :: gen.scopes }).andThen fun declared =>
          (setLine ctx.function.declaration.span.start.line ctx declared.2).andThen
            fun placed => initialGlobals places ctx placed.2 := fun _ => rfl
  rw [opened, opened, Task.andThen_assoc]
  refine congrArg _ (funext fun declared => ?_)
  rw [Task.andThen_assoc]
  exact congrArg _ (funext fun placed => initialGlobals_append earlier later)

/-- A generator of main that has given some global variables their initial values. -/
structure Opened (ctx : FunctionContext) (sound : ctx.Sound) (places : List Global)
    (gen : Generator) : Prop where
  kept : (Ground.silent ctx sound { name := ctx.function.name }).Kept
    ctx.function.file [] gen
  latest : gen.piece.lines.back? =
    Piece.heading (ctx.function.heading :: headingsOf places)

theorem headingsOf_append (earlier later : List Global) :
    headingsOf (earlier ++ later) = headingsOf earlier ++ headingsOf later := by
  simp [headingsOf]

theorem headingsOf_single
    (some : place.declaration.value = some value) : headingsOf [place] = [place.heading] := by
  simp [headingsOf, some]

/-- Giving one global variable its initial value, after some others. -/
theorem finds_initialGlobals_single {places : List Global}
    (some : place.declaration.value = .some value) (listed : place ∈ ctx.environment.globals)
    (opened : Opened ctx sound places gen) :
    (initialGlobals [place] ctx gen).Finds fun result =>
      Opened ctx sound (places ++ [place]) result.2 ∧ Initialized place gen result.2 := by
  have initialized : (initialGlobals [place] ctx gen).Finds fun result =>
      Initialized place gen result.2 := by
    rw [initialGlobals_cons_some some]
    exact (finds_initialGlobal place value opened.kept).andThen fun _ initialized => initialized
  have keeps : Keeps (.silent ctx sound { name := ctx.function.name }) ctx.function.file
      (initialGlobals [place]) := keeps_initialGlobals _ (fun _ _ => admits_silent)
    fun other mem => List.mem_singleton.mp mem ▸ listed
  refine ((keeps.finds opened.kept).and initialized).mono fun result reached =>
    ⟨⟨reached.1.1, ?_⟩, reached.2⟩
  rw [headingsOf_append, headingsOf_single some, ← List.cons_append, Piece.heading_snoc,
    ← opened.latest]
  exact (congrArg Array.back? reached.2.line.lines).trans (Piece.setLine_shows _ _ _).1

theorem finds_opening (none : ctx.function.params = []) (places : List Global)
    (declared : ∀ place ∈ places, place ∈ ctx.environment.globals) :
    (opening places ctx ctx.function.start).Finds
      fun result => Opened ctx sound places result.2 := by
  induction places using List.reverseRecOn with
  | nil =>
    have started : (Ground.silent ctx sound { name := ctx.function.name }).Kept
        ctx.function.file [] ctx.function.start :=
      ⟨Piece.sound_empty _ _, by simp [Function.start], rfl, .refl _, rfl,
            by simp [Function.start], by simp [Function.start],
        by simp⟩
    have kept := (keeps_opening trivial (fun _ _ => admits_silent) declared).finds started
    have set : opening [] ctx ctx.function.start =
        .done ((), {
          piece := ({ name := ctx.function.name } : Piece).setLine
            ctx.function.heading.number ctx.function.heading.text
          file := ctx.function.file
          scopes := [[]] }) := by
      unfold opening
      show Task.andThen (declareParameters ctx.function ctx.function.params ctx _) _ = _
      rw [none]
      rfl
    rw [set] at kept ⊢
    exact ⟨kept.1, (Piece.setLine_shows _ _ _).1⟩
  | append_singleton places place ih =>
    have earlier := ih fun other mem => declared other (List.mem_append_left _ mem)
    rw [opening_append]
    refine earlier.andThen fun result opened => ?_
    cases found : place.declaration.value with
    | none =>
      rw [initialGlobals_cons_none found]
      refine ⟨opened.kept, ?_⟩
      have nothing : headingsOf [place] = [] := by simp [headingsOf, found]
      rw [headingsOf_append, nothing, List.append_nil]
      exact opened.latest
    | some value =>
      exact (finds_initialGlobals_single found (declared place (by simp)) opened).mono
        fun later reached => reached.1

/-- The cells of an initial value have its line, as long as they are kept. -/
theorem Initialized.line?_eq {later : Generator} {final : Piece}
    (initialized : Initialized place gen later)
    (cells : gen.piece.lineOf.size = gen.piece.size)
    (filed : later.piece.lineOf.size = later.piece.size)
    (keeps : later.piece.KeepsRows final) (first : gen.piece.size ≤ cell)
    (last : cell < later.piece.size) :
    final.line? cell = some (Piece.headed gen.piece.lines.back? place.heading) := by
  obtain ⟨end', value, imm, size⟩ := initialized.firm
  have row := (keeps.rows end' value imm).2 cell (by omega)
  have here := Array.getElem?_eq_getElem (Nat.lt_of_lt_of_eq last filed.symm)
  have shows := (Piece.setLine_shows gen.piece place.heading.number place.heading.text).2.1
  rcases initialized.line.rows cell _ here with old | new
  · obtain ⟨lines, current, same⟩ :=
      Piece.setLine_eq gen.piece place.heading.number place.heading.text
    rw [same, Array.getElem?_eq_none (Nat.le_trans (Nat.le_of_eq cells) first)] at old
    contradiction
  · rw [here, new] at row
    refine Piece.line?_of_shows row ?_
    exact (shows.mono fun _ _ found => initialized.line.lines ▸ found).mono keeps.lines

end Generate

/-- The piece of main when some global variables have their initial values. -/
def Function.opened (function : Function) (env : Environment) (prog : Program)
    (places : List Global) : Piece :=
  ((Generate.opening places ⟨env, function⟩ function.start).outcome prog).2.piece

namespace Function

variable {function : Function} {env : Environment} {prog : Program}

/-- What main does after some initial values keeps their cells. -/
theorem keepsRows_rest {places : List Global} {gen : Generator}
    {sound : FunctionContext.Sound ⟨env, function⟩} {result : Unit × Generator}
    (declared : ∀ place ∈ places, place ∈ env.globals)
    (opened : Generate.Opened ⟨env, function⟩ sound earlier gen)
    (silent : ((Generate.initialGlobals places >>= fun _ => Generate.ending)
      ⟨env, function⟩ gen).silent? prog = some result) :
    gen.piece.KeepsRows result.2.piece := by
  have again : (Ground.silent ⟨env, function⟩ sound gen.piece).Kept function.file []
      gen :=
    { opened.kept with rows := .refl _ }
  have keeps : Generate.Keeps (.silent ⟨env, function⟩ sound gen.piece) function.file
      (Generate.initialGlobals places) :=
    Generate.keeps_initialGlobals _ (fun _ _ => Generate.admits_silent) declared
  exact (((keeps.next fun _ => Generate.keeps_ending Generate.admits_silent).finds again).of_silent?
    silent).1.rows

/-- The cells of an initial value in the code of main have the line that the lines set so far
leave. -/
theorem line?_of_silent {final : Piece} {later : List Global}
    (sound : FunctionContext.Sound ⟨env, function⟩) (none : function.params = [])
    (main : function.name = "main") (globals : env.globals = earlier ++ place :: later)
    (valued : place.declaration.value.isSome)
    (silent : (function.generate env).silent? prog = some final)
    (first : (function.opened env prog earlier).size ≤ cell)
    (last : cell < (function.opened env prog (earlier ++ [place])).size) :
    final.line? cell =
      Piece.heading (function.heading :: headingsOf (earlier ++ [place])) := by
  obtain ⟨value, valued⟩ := Option.isSome_iff_exists.mp valued
  obtain ⟨result, whole, same⟩ := Task.silent?_andThen_eq silent
  obtain rfl : result.2.piece = final := Option.some.inj same
  rw [Generate.function_eq, if_pos main, globals, ← List.singleton_append,
    ← List.append_assoc] at whole
  -- Main passes the state before this initial value and the one after it.
  obtain ⟨left, full, ending⟩ := Task.silent?_andThen_eq whole
  rw [Generate.opening_append] at full
  obtain ⟨after, longer, others⟩ := Task.silent?_andThen_eq full
  have there : function.opened env prog (earlier ++ [place]) = after.2.piece :=
    congrArg (·.2.piece) (Task.outcome_of_silent? longer)
  have declared : ∀ other ∈ earlier ++ [place] ++ later, other ∈ env.globals := by
    simp [globals]
  rw [Generate.opening_append] at longer
  obtain ⟨before, shorter, once⟩ := Task.silent?_andThen_eq longer
  have here : function.opened env prog earlier = before.2.piece :=
    congrArg (·.2.piece) (Task.outcome_of_silent? shorter)
  have opened := (@Generate.finds_opening _ sound none earlier fun other mem =>
    declared other (by simp [mem])).of_silent? shorter
  obtain ⟨full, initialized⟩ := (Generate.finds_initialGlobals_single valued
    (declared place (by simp)) opened).of_silent? once
  have rest : ((Generate.initialGlobals later >>= fun _ => Generate.ending)
      ⟨env, function⟩ after.2).silent? prog = some result := by
    refine (Task.silent?_andThen prog _ _).trans ?_
    rw [others]
    exact ending
  rw [here] at first
  rw [there] at last
  rw [initialized.line?_eq opened.kept.piece.cells full.kept.piece.cells
    (keepsRows_rest (fun other mem => declared other (List.mem_append_right _ mem)) full rest)
    first last, opened.latest, Generate.headingsOf_append, Generate.headingsOf_single valued,
    ← List.cons_append, Piece.heading_snoc]

end Function

namespace Build

variable {sources : List Source}

/-- The generators of a program that is built yield its pieces without a report. -/
theorem silent_of_built (built : (ofSources sources).failure = none)
    {function : Function}
    (declared : (Checker.ofFiles (filesOf sources)).environment.functions[index]? = some function)
    (found : (unlinked (filesOf sources)).pieces[index]? = some piece) :
    (function.generate (Checker.ofFiles (filesOf sources)).environment).silent?
      (Checker.ofFiles (filesOf sources)).program = some piece := by
  have silent := Task.silent_runAll (fun _ mem => does_generate mem)
    (fun _ literal => Checker.holds_ofFiles literal) (quiet_of_built built)
  have there : (Task.runAll (tasks (Checker.ofFiles (filesOf sources)).environment)
      (checked (Checker.ofFiles (filesOf sources)))).1[index]? = some piece := by
    simpa [unlinked] using found
  obtain ⟨inside, rfl⟩ := List.getElem?_eq_some_iff.mp declared
  obtain ⟨inside', rfl⟩ := List.getElem?_eq_some_iff.mp there
  exact silent.get inside inside'

/-- The cells of main that give a global variable its initial value, after some others. -/
structure Initializes (sources : List Source) (function : Function) (earlier : List Global)
    (place : Global) (cell : Nat) : Prop where
  main : function.name = "main"
  declared : ∃ later,
    (Checker.ofFiles (filesOf sources)).environment.globals = earlier ++ place :: later
  valued : place.declaration.value.isSome
  first : (function.opened (Checker.ofFiles (filesOf sources)).environment
    (Checker.ofFiles (filesOf sources)).program earlier).size ≤ cell
  last : cell < (function.opened (Checker.ofFiles (filesOf sources)).environment
    (Checker.ofFiles (filesOf sources)).program (earlier ++ [place])).size

theorem line?_of_initializes (built : (ofSources sources).failure = none)
    {function : Function}
    (declared : (Checker.ofFiles (filesOf sources)).environment.functions[index]? = some function)
    (linked : (ofSources sources).program.pieces[index]? = some piece)
    (initializes : Initializes sources function earlier place cell) :
    piece.line? cell =
      Piece.heading (function.heading :: headingsOf earlier ++ [place.heading]) := by
  have listed := List.mem_of_getElem? declared
  obtain ⟨none, -⟩ := (Checker.settled_ofFiles (clean_of_built built)).1.main function listed
    initializes.main
  obtain ⟨_, _, _, pieces, -⟩ := Program.link_eq (link_of_built built)
  rw [pieces, Array.getElem?_map, Option.map_eq_some_iff] at linked
  obtain ⟨before, found, rfl⟩ := linked
  obtain ⟨later, globals⟩ := initializes.declared
  obtain ⟨value, valued⟩ := Option.isSome_iff_exists.mp initializes.valued
  have params := (Checker.placed_ofFiles (filesOf sources)).params (clean_of_built built)
  have line := Function.line?_of_silent (around_ofFiles params listed) none initializes.main globals
    initializes.valued (silent_of_built built declared found) initializes.first initializes.last
  rw [Generate.headingsOf_append, Generate.headingsOf_single valued, ← List.cons_append] at line
  exact line

end Build

/-- A fault reports the line of the cell where it happens. -/
theorem Machine.line_of_fault {prog : Program} {settings : Settings} {machine after : Machine}
    {fault : Fault} {cell : Int} (here : machine.piece = index)
    (counter : machine.counter = cell) (located : prog.pieces[index]? = some piece)
    (failed : machine.step prog settings = (after, some fault)) :
    fault.line = piece.line? cell := by
  have reported : ∀ cause, (machine.faultAt prog cause).line = piece.line? cell := by
    intro cause
    rw [faultAt, here, counter, located]
  unfold step at failed
  dsimp only at failed
  split at failed
  · rw [← Option.some.inj (Prod.mk.inj failed).2]
    exact reported _
  · split at failed
    · exact absurd (Prod.mk.inj failed).2 (by simp)
    · rw [← Option.some.inj (Prod.mk.inj failed).2]
      exact reported _

/-- Whatever calls write a piece, every cell that is there shows the lines set before it. In a
program that is built these are for the cells of an initial value the line of main, those of the
global variables before and that of the global variable itself, each in its file, and a fault there
reports the line that the cell shows. -/
theorem Build.attributed (name : Text) (edits : List Piece.Edit) (sources : List Source) :
    (∀ index time : Nat,
      (edits.foldl Piece.Draft.after (.blank name)).born[index]? = some time →
        Piece.LineOf (Piece.Edit.lines (edits.take time))
          ((edits.foldl Piece.Draft.after (.blank name)).piece.line? index)) ∧
    ((ofSources sources).failure = none →
      ∀ (index : Nat) (function : Function) (piece : Piece),
        (Checker.ofFiles (filesOf sources)).environment.functions[index]? = some function →
        (ofSources sources).program.pieces[index]? = some piece →
        ∀ (earlier : List Global) (place : Global) (cell : Nat),
          Initializes sources function earlier place cell →
            Piece.LineOf (function.heading :: headingsOf earlier ++ [place.heading])
              (piece.line? cell) ∧
            ∀ (settings : Settings) (machine after : Machine) (fault : Fault),
              machine.piece = index → machine.counter = cell →
              machine.step (ofSources sources).program settings = (after, some fault) →
                fault.line = piece.line? cell) := by
  refine ⟨fun index time born => ?_, ?_⟩
  · rw [Piece.Draft.line?_of_edits born]
    exact Piece.lineOf_heading _
  · intro built index function piece declared linked earlier place cell initializes
    refine ⟨?_, fun settings machine after fault here counter failed => ?_⟩
    · rw [line?_of_initializes built declared linked initializes]
      exact Piece.lineOf_heading _
    · exact Machine.line_of_fault here counter linked failed

namespace Build

/-- Main in one file, and in another a global variable whose initial value divides by zero. -/
def sharing (share : Text) : List Source :=
  [⟨"main.tin", "fun main(): int \x7b return share; \x7d\n"⟩, ⟨"share.tin", share⟩]

/-- A machine at a cell of the first piece whose registers are zero. -/
def atCell (cell : Nat) : Machine where
  registers := Machine.assign (Vector.replicate 12 0) Machine.slotPC (BitVec.ofNat 64 cell)
  memory := .initial 64 #[] { limit := 0 }
  piece := 0
  running := true
  steps := 0
  softErrors := 0
  output := #[]
  files := {}

/-- A program is built of main and a global variable with a line, whose initial value takes fifteen
cells and faults at the eighth. -/
def Shares (share : Text) (line : SourceLine) : Prop :=
  let env := (Checker.ofFiles (filesOf (sharing share))).environment
  let prog := (Checker.ofFiles (filesOf (sharing share))).program
  (ofSources (sharing share)).failure = none ∧
  env.functions.map (fun function => (function.name, function.heading,
    (function.opened env prog []).size,
    (function.opened env prog env.globals).size)) =
      [(("main" : Text), ⟨1, "fun main(): int \x7b return share; \x7d"⟩, 0, 15)] ∧
  env.globals.map (fun place => (place.declaration.value.isSome, place.heading)) =
    [(true, line)] ∧
  (ofSources (sharing share)).program.pieces.size = 1 ∧
  ((atCell 8).step (ofSources (sharing share)).program {}).2.isSome

instance (share : Text) (line : SourceLine) : Decidable (Shares share line) :=
  inferInstanceAs (Decidable (_ ∧ _ ∧ _ ∧ _ ∧ _))

theorem Shares.found {share : Text} {line : SourceLine} (shares : Shares share line) :
    (ofSources (sharing share)).failure = none ∧ ∃ function piece place,
      (Checker.ofFiles (filesOf (sharing share))).environment.functions[0]? = some function ∧
      (ofSources (sharing share)).program.pieces[0]? = some piece ∧
      function.heading = ⟨1, "fun main(): int \x7b return share; \x7d"⟩ ∧ place.heading = line ∧
      Initializes (sharing share) function [] place 8 ∧ ∃ after fault,
        (atCell 8).step (ofSources (sharing share)).program {} = (after, some fault) := by
  obtain ⟨built, functions, globals, pieces, fails⟩ := shares
  obtain ⟨function, only, shown⟩ := List.map_eq_singleton_iff.mp functions
  obtain ⟨place, single, valued⟩ := List.map_eq_singleton_iff.mp globals
  simp only [Prod.mk.injEq, single] at shown valued
  obtain ⟨main, heading, first, last⟩ := shown
  obtain ⟨fault, failed⟩ := Option.isSome_iff_exists.mp fails
  have inside : 0 < (ofSources (sharing share)).program.pieces.size := by
    rw [pieces]
    exact Nat.one_pos
  have initializes : Initializes (sharing share) function [] place 8 := by
    refine ⟨main, ⟨[], single⟩, valued.1, ?_, ?_⟩
    · rw [first]
      exact Nat.zero_le 8
    · rw [List.nil_append, last]
      decide
  have declared :
      (Checker.ofFiles (filesOf (sharing share))).environment.functions[0]? = some function := by
    rw [only]
    rfl
  refine ⟨built, function, _, place, declared, Array.getElem?_eq_getElem inside, heading, valued.2,
    initializes, ((atCell 8).step (ofSources (sharing share)).program {}).1, fault, ?_⟩
  rw [← failed]

/-- Where the lines have different numbers, a fault in an initial value reports its line. -/
theorem attributed_sharing :
    let edits : List Piece.Edit :=
      [.setLine 1 "left", .push .a, .setLine 2 "right", .pop .a, .label, .push .b]
    let share : Text := "// Shares.\nglobal share: int = 1 / 0;\n"
    ((edits.foldl Piece.Draft.after (.blank "main")).born[0]? = some 5 ∧
      (edits.foldl Piece.Draft.after (.blank "main")).piece.line? 0 = some ⟨2, "right"⟩) ∧
    (ofSources (sharing share)).failure = none ∧ ∃ function piece place,
      (Checker.ofFiles (filesOf (sharing share))).environment.functions[0]? = some function ∧
      (ofSources (sharing share)).program.pieces[0]? = some piece ∧
      Initializes (sharing share) function [] place 8 ∧
      place.heading = ⟨2, "global share: int = 1 / 0;"⟩ ∧ piece.line? 8 = some place.heading ∧
      (atCell 8).piece = 0 ∧ (atCell 8).counter = 8 ∧ ∃ after fault,
        (atCell 8).step (ofSources (sharing share)).program {} = (after, some fault) ∧
          fault.line = some place.heading := by
  intro edits share
  have shares : Shares share ⟨2, "global share: int = 1 / 0;"⟩ := by decide +kernel
  obtain ⟨built, function, piece, place, declared, linked, opening, heading, initializes, after,
    fault, failed⟩ := shares.found
  have born : (edits.foldl Piece.Draft.after (.blank "main")).born[0]? = some 5 := by decide
  obtain ⟨cells, values⟩ := attributed "main" edits (sharing share)
  have written := (cells 0 5 born).latest (by unfold Piece.Steady; decide)
  obtain ⟨shown, faults⟩ := values built 0 function piece declared linked [] place 8 initializes
  have steady : Piece.Steady (function.heading :: headingsOf [] ++ [place.heading]) := by
    rw [opening, heading]
    unfold Piece.Steady
    decide
  have line : piece.line? 8 = some place.heading := shown.latest steady
  have counter : (atCell 8).counter = 8 := by decide
  exact ⟨⟨born, written⟩, built, function, piece, place, declared, linked, initializes,
    heading, line,
    rfl, counter, after, fault, failed, (faults _ _ _ _ rfl counter failed).trans line⟩

/-- Where the lines have one number, the text is that of the first of them: a fault in the initial
value of a global variable reports the line of main. -/
theorem misattributed_sharing :
    let edits : List Piece.Edit := [.setLine 1 "left", .setLine 1 "right", .push .a]
    let share : Text := "global share: int = 1 / 0;\n"
    ((edits.foldl Piece.Draft.after (.blank "main")).born[0]? = some 2 ∧
      (Piece.Edit.lines (edits.take 2)).getLast? = some ⟨1, "right"⟩ ∧
      (edits.foldl Piece.Draft.after (.blank "main")).piece.line? 0 = some ⟨1, "left"⟩) ∧
    (ofSources (sharing share)).failure = none ∧ ∃ function piece place,
      (Checker.ofFiles (filesOf (sharing share))).environment.functions[0]? = some function ∧
      (ofSources (sharing share)).program.pieces[0]? = some piece ∧
      Initializes (sharing share) function [] place 8 ∧
      place.heading = ⟨1, "global share: int = 1 / 0;"⟩ ∧ ∃ after fault,
        (atCell 8).step (ofSources (sharing share)).program {} = (after, some fault) ∧
          piece.line? 8 = fault.line ∧
          fault.line = some ⟨1, "fun main(): int \x7b return share; \x7d"⟩ := by
  intro edits share
  have shares : Shares share ⟨1, "global share: int = 1 / 0;"⟩ := by decide +kernel
  obtain ⟨built, function, piece, place, declared, linked, opening, heading, initializes, after,
    fault, failed⟩ := shares.found
  have line : piece.line? 8 = some ⟨1, "fun main(): int \x7b return share; \x7d"⟩ := by
    refine (line?_of_initializes built declared linked initializes).trans ?_
    rw [opening, heading]
    decide
  have counter : (atCell 8).counter = 8 := by decide
  have reported := Machine.line_of_fault rfl counter linked failed
  exact ⟨⟨by decide, by decide, by decide⟩, built, function, piece, place, declared, linked,
    initializes, heading, after, fault, failed, reported.symm, reported.trans line⟩

end Build

end TinLang
