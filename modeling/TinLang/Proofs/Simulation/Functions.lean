import TinLang.Proofs.Generate.BalanceFunction
import TinLang.Proofs.Simulation.Loops

/-!
# Code of functions

The code of a function starts with its parameters in its scope, executes its body and returns, at
the latest behind its last statement. By induction on a bound on how deep calls nest, all functions
of a program do what calls of them mean. The code of main gives the global variables their initial
values before its body, and a return from the outermost frame ends the program.
-/
namespace TinLang

namespace Generate

variable {ctx : FunctionContext} {gen later : Generator}

/-- What a parameter stands for. -/
def parameterEntry (parameter : Parameter) : Text × LocalMeaning :=
  (parameter.name, .variable parameter.type (16 + parameter.offset))

/-- Parameters are declared in the scope of the function. -/
theorem declareParameters_done {function : Function} {params : List Parameter} {scope : Scope}
    {outer : List Scope} (scopes : gen.scopes = scope :: outer)
    (done : declareParameters function params ctx gen = .done ((), later)) :
    later = { gen with scopes := ((params.map parameterEntry).reverse ++ scope) :: outer } := by
  induction params generalizing gen scope with
  | nil =>
    obtain ⟨-, rfl⟩ := Prod.mk.inj (pure_done.mp done)
    rw [List.map_nil, List.reverse_nil, List.nil_append, ← scopes]
  | cons parameter params ih =>
    obtain ⟨_, _, first, done⟩ := bind_done.mp done
    have same := declare_done first (by simp [scopes])
    subst same
    rw [scopes, List.modifyHead_cons] at done
    rw [ih rfl done, List.map_cons, List.reverse_cons, List.append_assoc]
    rfl

/-- What follows the parameters of a function: the body and, where it may end, a return. -/
def functionEnd (function : Function) : Generate Unit := do
  let depth := (← get).frame
  let halts ← statements function.declaration.body.statements
  endStatements depth halts
  if ← needsReturn then
    if !function.result.isVoid then
      report function.declaration.span (.missingReturn function.name)
    setLine function.declaration.body.span.stop.line
    emit .giveBack .unused .unused
  closeScope

/-- The end of a function releases what its statements hold and returns. -/
theorem functionEnd_done {function : Function}
    (done : functionEnd function ctx gen = .done ((), later)) :
    0 < later.piece.size ∧ ∃ halts inner, statements function.declaration.body.statements ctx gen =
        .done (halts, inner) ∧ (inner.piece.barrier ≤ inner.piece.size →
      ∃ released, inner.piece.Grows released ∧ (halts = false →
          release gen.frame ctx inner = .done ((), { inner with piece := released }) ∧
            inner.piece.Emitted released) ∧
        (released.lastOp? = some .giveBack ∧ inner.landing ≠ released.size ∧
          later.piece = released ∨
          function.result.isVoid ∧ ∃ lines currentLine, later.piece =
            (Piece.emit { released with lines, currentLine } ⟨.giveBack, .unused, .unused,
              0⟩).1)) := by
  have last : ∀ {ended : Generator}, (do
      if ← needsReturn then
        if !function.result.isVoid then
          report function.declaration.span (.missingReturn function.name)
        setLine function.declaration.body.span.stop.line
        emit .giveBack .unused .unused
      closeScope) ctx ended = .done ((), later) →
      ended.piece.lastOp? = some .giveBack ∧ ended.landing ≠ ended.piece.size ∧ later.piece =
        ended.piece ∨
        function.result.isVoid ∧ ∃ lines currentLine, later.piece =
          (Piece.emit { ended.piece with lines, currentLine } ⟨.giveBack, .unused,
            .unused, 0⟩).1 := by
    intro ended done
    obtain ⟨needed, _, look, done⟩ := bind_done.mp done
    obtain ⟨rfl, rfl⟩ := Prod.mk.inj (Task.done.inj look)
    split at done
    · split at done
      · obtain ⟨_, _, reports, -⟩ := bind_done.mp done
        cases reports
      · next void =>
        obtain ⟨_, _, line, done⟩ := bind_done.mp done
        obtain ⟨lines, currentLine, rfl⟩ := setLine_done line
        obtain ⟨_, _, emitted, done⟩ := bind_done.mp done
        obtain ⟨-, rfl⟩ := Prod.mk.inj (Task.done.inj emitted)
        obtain ⟨-, rfl⟩ := Prod.mk.inj (Task.done.inj done)
        exact .inr ⟨by simpa using void, lines, currentLine, rfl⟩
    · next stays =>
      obtain ⟨-, rfl⟩ := Prod.mk.inj (Task.done.inj done)
      simp only [Bool.or_eq_true, decide_eq_true_eq, not_or, Decidable.not_not] at stays
      exact .inl ⟨stays.1, stays.2, rfl⟩
  unfold functionEnd at done
  obtain ⟨_, _, look, done⟩ := bind_done.mp done
  obtain ⟨rfl, rfl⟩ := Prod.mk.inj (Task.done.inj look)
  obtain ⟨halts, inner, one, done⟩ := bind_done.mp done
  obtain ⟨_, ended, ends, done⟩ := bind_done.mp done
  have finished := last done
  clear done
  refine ⟨?_, halts, inner, one, fun bounded => ?_⟩
  · rcases finished with ⟨returns, -, same⟩ | ⟨-, lines, currentLine, same⟩
    · rw [same]
      refine Nat.pos_of_ne_zero fun empty => ?_
      simp [Piece.lastOp?, Array.eq_empty_of_size_eq_zero empty, Code.instruction?,
        Code.cell?] at returns
    · rw [same, Piece.emit, Piece.size_push]
      exact Nat.succ_pos _
  unfold endStatements at ends
  cases halts with
  | true =>
    obtain ⟨_, _, look, ends⟩ := bind_done.mp ends
    obtain ⟨rfl, rfl⟩ := Prod.mk.inj (Task.done.inj look)
    obtain ⟨_, _, moved, ends⟩ := bind_done.mp ends
    obtain ⟨-, rfl⟩ := Prod.mk.inj (Task.done.inj moved)
    obtain ⟨-, rfl⟩ := Prod.mk.inj (Task.done.inj ends)
    exact ⟨{ inner.piece with depth := inner.piece.depth + wrapSigned (gen.frame - inner.frame) },
      Piece.grows_of_same bounded rfl rfl fun _ => id, fun falls => absurd falls Bool.noConfusion,
        finished⟩
  | false =>
    obtain ⟨_, _, given, ends⟩ := bind_done.mp ends
    obtain ⟨-, rfl⟩ := Prod.mk.inj (Task.done.inj ends)
    obtain ⟨released, rfl, emitted⟩ := emits_release _ given bounded
    exact ⟨released, emitted.toGrows, fun _ => ⟨given, emitted⟩, finished⟩

end Generate

/-- The generator of a function when its parameters are declared. -/
def Function.opening (function : Function) (lines : Array SourceLine) (currentLine : Option Nat) :
    Generator where
  piece := { name := function.name, lines, currentLine }
  file := function.file
  scopes := [(function.params.map Generate.parameterEntry).reverse]

namespace Generate

variable {env : Environment} {function : Function}

/-- The code of a function starts with its parameters in scope; main gives the global variables
their initial values first. -/
theorem generate_done {piece : Piece} (done : function.generate env = .done piece) :
    ∃ lines currentLine entered later,
      (function.name ≠ "main" ∧ entered = function.opening lines currentLine ∨
        function.name = "main" ∧
        initialGlobals env.globals ⟨env, function⟩ (function.opening lines currentLine) =
          .done ((), entered)) ∧
      functionEnd function ⟨env, function⟩ entered = .done ((), later) ∧ later.piece = piece := by
  obtain ⟨⟨_, finish⟩, generated, last⟩ := Task.andThen_eq_done.mp done
  obtain rfl : finish.piece = piece := Task.done.inj last
  unfold Generate.function at generated
  obtain ⟨_, _, look, generated⟩ := bind_done.mp generated
  obtain ⟨rfl, rfl⟩ := Prod.mk.inj (Task.done.inj look)
  obtain ⟨_, _, opened, generated⟩ := bind_done.mp generated
  obtain ⟨-, rfl⟩ := Prod.mk.inj (Task.done.inj opened)
  obtain ⟨_, _, declared, generated⟩ := bind_done.mp generated
  have same := declareParameters_done rfl declared
  subst same
  obtain ⟨_, _, line, generated⟩ := bind_done.mp generated
  obtain ⟨lines, currentLine, rfl⟩ := setLine_done line
  rw [List.append_nil] at generated
  refine ⟨lines, currentLine, ?_⟩
  split at generated
  · next main =>
    obtain ⟨_, _, look, generated⟩ := bind_done.mp generated
    obtain ⟨rfl, rfl⟩ := Prod.mk.inj (Task.done.inj look)
    obtain ⟨_, entered, initial, generated⟩ := bind_done.mp generated
    exact ⟨entered, finish, .inr ⟨main, initial⟩, generated, rfl⟩
  · next other => exact ⟨_, finish, .inl ⟨other, rfl⟩, generated, rfl⟩

/-- The code of a function is not empty. -/
theorem generate_size {piece : Piece} (done : function.generate env = .done piece) :
    0 < piece.size := by
  obtain ⟨_, _, _, _, -, ends, rfl⟩ := generate_done done
  exact (functionEnd_done ends).1

/-- Parameters lie in the block of the arguments. -/
theorem scoped_params (prog : env.Direct) (listed : function ∈ env.functions)
    (few : (function.params.map fun parameter => env.bytesOf parameter.type).sum < 2 ^ 63)
    {depth : Int} :
    Scoped env (16 + function.block) [(function.params.map parameterEntry).reverse] depth := by
  have follow := prog.ready.settled.params function listed few
  have each : ∀ entry ∈ [(function.params.map parameterEntry).reverse].flatten,
      ∃ parameter ∈ function.params, parameterEntry parameter = entry := by
    intro entry mem
    rw [List.flatten_cons, List.flatten_nil, List.append_nil, List.mem_reverse] at mem
    exact List.mem_map.mp mem
  refine ⟨fun entry mem type offset stands => ?_, fun entry mem constant stands => ?_, ?_⟩
  · obtain ⟨parameter, inside, rfl⟩ := each entry mem
    obtain ⟨rfl, rfl⟩ := LocalMeaning.variable.inj stands
    obtain ⟨kind, known, nonvoid⟩ := prog.ready.params function listed parameter inside
    have place := follow.mem (List.mem_map_of_mem inside)
    rw [known] at place
    refine ⟨kind, known, nonvoid, prog.params function listed parameter inside kind known, .inr ?_⟩
    have size : env.sizeOf (some kind) = env.structs.sizeOf kind := rfl
    dsimp only at place
    omega
  · obtain ⟨parameter, inside, rfl⟩ := each entry mem
    cases stands
  · rw [List.flatten_cons, List.flatten_nil, List.append_nil]
    refine List.pairwise_reverse.mpr (List.pairwise_map.mpr ?_)
    refine (List.pairwise_map.mp follow.pairwise).imp
      fun {first second} apart type offset kind place stands stands' => ?_
    obtain ⟨rfl, rfl⟩ := LocalMeaning.variable.inj stands
    obtain ⟨rfl, rfl⟩ := LocalMeaning.variable.inj stands'
    dsimp only at apart
    omega

/-- The opening of a function is orderly. -/
theorem orderly_opening {height : Nat}
    (names : Scoped env height [(function.params.map parameterEntry).reverse] 0)
    (lines : Array SourceLine) (currentLine : Option Nat) :
    (function.opening lines currentLine).Orderly env height where
  bounded := Nat.le_refl _
  names
  inner := List.cons_ne_nil _ _
  frame := Int.le_refl _
  loops := nofun
  exits := nofun
  distinct := .nil

end Generate

namespace Activation

open Generate

variable {act : Activation} {bound : Nat} {gen later : Generator}

/-- The code of a body returns what the body does, at the latest behind it. -/
theorem meets_functionEnd (set : act.Set bound)
    (direct : isDirectStatements act.context.function.declaration.body.statements)
    (small : act.environment.frameSize act.context.function < 2 ^ 31)
    (orderly : gen.Orderly act.environment act.height) (outermost : gen.loops = [])
    (level : gen.frame = 0)
    (done : functionEnd act.context.function act.context gen = .done ((), later))
    (complete : later.piece.Completes act.site.code []) :
    gen.piece.Completes act.site.code [] ∧ ∀ ⦃machine shown⦄,
      act.Starts gen machine shown → machine.Meets act.site.program act.site.settings bound
        (fun flow store last => ∃ value, flow.returned act.context.function = pure value ∧
          act.Returns value store last)
        ((execAll act.environment (act.environment.callWithin bound) bound
          act.context.function.result act.context.function.declaration.body.statements).run.run
            (act.store gen shown)) := by
  rw [act.environment.frameSize_eq] at small
  have acts := acts_statements set _ direct small
  obtain ⟨-, halts, inner, step, ends⟩ := functionEnd_done done
  have goes := acts.goes step orderly
  obtain ⟨released, grows, given, last⟩ := ends goes.orderly.bounded
  have loops : inner.loops = [] := by
    obtain ⟨exits, loops⟩ := goes.loops
    rw [loops, outermost]
    rfl
  have after : released.Completes act.site.code [] := by
    rcases last with ⟨-, -, same⟩ | ⟨-, lines, currentLine, same⟩
    · exact same ▸ complete
    · rw [same] at complete
      have lined : released.Grows { released with lines, currentLine } :=
        Piece.grows_of_same grows.bounded rfl rfl fun _ => id
      exact lined.completes ((Piece.grows_emit lined.bounded _).completes complete)
  have exits : inner.openExits = [] := by
    rw [Generator.openExits, loops]
    rfl
  have whole : inner.piece.Completes act.site.code inner.openExits := by
    rw [exits]
    exact grows.completes after
  have before : gen.openExits = [] := by
    rw [Generator.openExits, outermost]
    rfl
  have opened := goes.follows.completes act.site.code [] whole
  rw [List.nil_append, List.nil_append, before] at opened
  refine ⟨opened, fun machine shown starts => ?_⟩
  refine (acts.meets [] step orderly (fun _ inside => absurd inside List.not_mem_nil) whole
    starts).next ?_
  rintro flow store reached ends
  cases flow with
  | next =>
    obtain ⟨rfl, shown', starts', rfl⟩ := ends
    obtain ⟨release, emitted⟩ := given rfl
    have base := starts'.at'.base
    have frame := goes.frame
    have empty := starts'.at'.empty
    have highest : shown'.base ≤ act.site.top := by
      have roof := set.roof
      omega
    refine (comes_release starts'.shows empty (base ▸ starts'.at'.floor) highest release frame
      (Int.le_of_eq level) after).bind ?_
    rintro between ⟨floor, shows, height⟩
    have settled := shows.pending_eq_nil empty
    have total := released.settled_add
    rw [settled, List.length_nil, Nat.add_zero] at total
    rcases last with ⟨op, landing, -⟩ | ⟨void, lines, currentLine, same⟩
    · rcases emitted.live _ starts'.live with lands | other
      · exact absurd (lands.trans total) landing
      · exact absurd op (Piece.lastOp?_congr (Piece.truncate_settled settled) ▸ other)
    · rw [same] at complete
      have shows : act.site.Shows { released with lines, currentLine } between
          { shown' with floor } := ⟨shows.bounded, shows.pushes, shows.plain⟩
      obtain ⟨here, -, reaches⟩ := shows.comes_at complete (by decide) (by decide)
      obtain rfl : floor = shown'.base := by omega
      have void : act.context.function.result = .void := by simpa [ValueType.isVoid] using void
      refine reaches.mono fun last plain => ⟨.void, by rw [Flow.returned, void]; rfl,
        _, _, plain, here, ?_, rfl, rfl⟩
      refine ⟨empty, rfl, base, void.symm, by rw [void]; rfl, fun _ => trivial,
        fun _ word impossible => ?_,
        fun other place small high region => starts'.at'.kept place small high ?_⟩
      · cases impossible
      · obtain ⟨height, -⟩ := set.block other
        have space : act.context.function.block ≤
            act.environment.space act.context.function := Nat.le_add_left _ _
        omega
  | leave =>
    obtain ⟨loop, mem, -⟩ := ends
    rw [loops] at mem
    cases mem
  | again =>
    obtain ⟨loop, mem, -⟩ := ends
    rw [outermost] at mem
    cases mem
  | result value => exact .here ⟨value, rfl, ends⟩

end Activation

/-- The arguments of a call are what the parameters of the function are bound to. -/
theorem bindings_params {env : Environment} {function : Function} {index base : Nat} {bytes : Bytes}
    {values : List Value} (types : function.params.map Parameter.type = values.map fun value =>
    some value.type)
    (passes : env.structs.Passes bytes (base + 16) (function.callee index).places
      (values.map Value.words)) :
    bytes.bindings env.structs
      (frameReferents base [(function.params.map Generate.parameterEntry).reverse]) =
        function.bindings env.structs values := by
  have each : ∀ {params : List Parameter} {values : List Value},
      (params.map Parameter.type = values.map fun value => some value.type) →
      env.structs.Passes bytes (base + 16)
        (((params.map Parameter.type).map fun type => type.getD .void).zip
          (params.map Parameter.offset))
        (values.map Value.words) →
      bytes.bindings env.structs (params.map fun parameter =>
        (parameter.name, (Generate.parameterEntry parameter).2.referent base)) =
        (params.zip values).map fun passed => (passed.1.name, .variable ⟨passed.2.type,
          env.structs.narrowed passed.2.type passed.2.words⟩) := by
    intro params
    induction params with
    | nil =>
      intro values types _
      rfl
    | cons parameter params ih =>
      intro values types passes
      cases values with
      | nil => cases types
      | cons value values =>
        obtain ⟨type, types⟩ := List.cons.inj types
        obtain ⟨first, passes⟩ := List.forall₂_cons.mp passes
        rw [List.zip_cons_cons, List.map_cons, List.map_cons, ← ih types passes]
        refine congrArg (· :: _) (congrArg (Prod.mk parameter.name) ?_)
        have place : (base : Int) + (16 + parameter.offset) = (base + 16 : Nat) +
          parameter.offset := by omega
        dsimp only at first
        rw [type, Option.getD_some] at first
        show Binding.variable ⟨parameter.type.getD .void, bytes.read _⟩ = _
        rw [type, Option.getD_some, place, first]
  refine .trans ?_ (congrArg List.reverse (each types passes))
  rw [frameReferents, List.flatten_cons, List.flatten_nil, List.append_nil,
    List.map_reverse, List.map_map]
  exact List.map_reverse

namespace Site

variable {site : Site} {env : Environment}

/-- The linked code of the functions of a program. -/
structure Hosts (site : Site) (env : Environment) : Prop where
  program : env.Direct
  houses : env.Houses site.dataSize
  direct : ∀ function ∈ env.functions, isDirectStatements function.declaration.body.statements
  frames : ∀ function ∈ env.functions, env.frameSize function < 2 ^ 31
  code : ∀ (index : Nat) (function : Function), env.functions[index]? = some function →
    ∃ (piece : Piece) (code : Code), function.generate env = .done piece ∧
      (site.program.pieces[index]?).map Piece.code = some code ∧ code.size < 2 ^ 31 ∧
        piece.Completes code []

/-- What a function has returned is what its caller waits for. -/
theorem finished_of_returned {act : Activation} {value : Value} {shown : Shown}
    (other : act.context.function.name ≠ "main") (returned : act.Returned value shown) :
    Finished act.environment act.context.function act.entered value shown where
  empty := returned.empty
  level := returned.level
  base := returned.base
  type := returned.type
  count := returned.count
  words := returned.words other
  bytes := returned.bytes other

/-- A call of a function executes its body with its parameters bound to the arguments. -/
theorem run_callWithin {index bound : Nat} {function : Function}
    (known : env.functions[index]? = some function) (values : List Value) (store : Store) :
    (env.callWithin (bound + 1) index values).run.run store =
      (execAll env (env.callWithin bound) bound function.result
        function.declaration.body.statements >>= fun flow => do
          modify fun after => { after with locals := store.locals }
          flow.returned function).run.run
            { store with locals := function.bindings env.structs values } := by
  rw [Environment.callWithin, known]
  rfl

/-- Where a function is called from makes no difference. -/
theorem Answers.elsewhere {bound : Nat} (answers : site.Answers env bound) (index : Nat)
    (code : Code)
    (linked : (site.program.pieces[index]?).map Piece.code = some code)
    (small : code.size < 2 ^ 31) :
    (site.elsewhere index code linked small).Answers env bound := by
  intro less same index function known other
  obtain ⟨code, linked, small, serves⟩ := answers less same index function known other
  exact ⟨code, linked, small, fun locals values machine entered plain entering =>
    serves locals values machine
    entered plain ⟨entering.empty, entering.level, entering.room, entering.few, entering.types,
      entering.params⟩⟩

/-- The code of the functions of a program does what calls of them mean. -/
theorem Hosts.answers (hosts : site.Hosts env) (bound : Nat) : site.Answers env bound := by
  induction bound with
  | zero => exact fun less wrong => by cases wrong
  | succ bound ih =>
    intro less same index function known other
    obtain rfl : bound = less := by omega
    have listed := List.mem_of_getElem? known
    obtain ⟨piece, code, generated, linked, small, complete⟩ := hosts.code index function known
    refine ⟨code, linked, small, fun locals values machine entered plain entering => ?_⟩
    obtain ⟨lines, currentLine, opening, later, start, finish, same⟩ :=
      Generate.generate_done generated
    obtain ⟨-, rfl⟩ := start.resolve_right fun main => other main.1
    let act : Activation :=
      ⟨site.elsewhere index code linked small, ⟨env, function⟩, 16 + function.block, entered⟩
    have room := entering.room
    have set : act.Set bound := {
      program := hosts.program
      houses := hosts.houses
      roof := by
        show entered.base + (16 + function.block) ≤ site.top
        have space : env.space function = env.bytesOf (some function.result) + function.block := rfl
        omega
      answers := ih.elsewhere index code linked small
      listed
      block := fun _ => ⟨rfl, room⟩ }
    have level := entering.level
    have at' : act.At 0 entered := ⟨entering.empty,
      rfl, by show (entered.floor : Int) = entered.base + 0; omega,
      fun _ _ _ _ => rfl⟩
    have starts : act.Starts (function.opening lines currentLine) machine entered :=
      ⟨.ofPlain rfl (Nat.le_refl _) plain, at', .inl rfl⟩
    have runs := (act.meets_functionEnd set (hosts.direct function listed)
      (hosts.frames function listed)
      (Generate.orderly_opening (Generate.scoped_params hosts.program listed entering.few) lines
        currentLine) rfl rfl finish
      (same ▸ complete)).2 starts
    rw [run_callWithin known]
    have params : act.store (function.opening lines currentLine) entered =
        ⟨function.bindings env.structs values,
          entered.bytes.bindings env.structs env.referents, entered.output⟩ := by
      rw [← bindings_params entering.types entering.params]
      rfl
    rw [params] at runs
    refine runs.bind ?_
    rintro flow store last ⟨value, returned, stop, final, stopped, giveBack, ends, globals, output⟩
    have run : (do
        modify fun after : Store => { after with locals }
        flow.returned function : Eval Value).run.run store =
          (.ok value, { store with locals }) := by
      rw [show flow.returned function = pure value from returned]
      rfl
    rw [run]
    refine .here ⟨stop, final, stopped, giveBack, finished_of_returned other ends, ?_⟩
    rw [globals, output]

end Site

namespace Generate

variable {ctx : FunctionContext} {gen later : Generator}

/-- Store the value of a global variable. -/
def storeGlobal (place : Global) (value : Expr) : Generate Unit := do
  let given ← coerce (← expr value) (some place.type)
  if ← fits value.span (some place.type) given (.globalValue place.name) then
    setDataAddress .b place.offset
    popTo .b 0 (some place.type)
  else discard given

/-- Storing a global only adds code. -/
theorem emits_storeGlobal (place : Global) (value : Expr) : Emits (storeGlobal place value) :=
  (emits_expr value).bind fun _ => (emits_coerce _ _).bind fun _ =>
    (emits_fits _ _ _ _).bind fun _ =>
    .ite (fun _ => (emits_setDataAddress _ _).bind fun _ => emits_popTo _ _ _) fun _ =>
      emits_discard _

/-- A global that is set up stores its value. -/
theorem initialGlobal_done {place : Global} {value : Expr}
    (done : initialGlobal place value ctx gen = .done ((), later)) :
    ∃ lines currentLine, storeGlobal place value ctx
      { gen with piece := { gen.piece with lines, currentLine } } = .done ((), later) := by
  obtain ⟨_, _, line, done⟩ := bind_done.mp done
  obtain ⟨lines, currentLine, rfl⟩ := setLine_done line
  exact ⟨lines, currentLine, done⟩

/-- Globals are set up one after another. -/
theorem initialGlobals_done {place : Global} {places : List Global}
    (done : initialGlobals (place :: places) ctx gen = .done ((), later)) :
    ∃ between, initialGlobals places ctx between = .done ((), later) ∧
      (place.declaration.value = none ∧ between = gen ∨
        ∃ value lines currentLine inner, place.declaration.value = some value ∧
          storeGlobal place value ctx { gen with
            piece := { gen.piece with lines, currentLine }, file := place.file } =
              .done ((), inner) ∧
          between = { inner with file := gen.file }) := by
  unfold initialGlobals at done
  cases found : place.declaration.value with
  | none =>
    rw [found] at done
    exact ⟨_, done, .inl ⟨rfl, rfl⟩⟩
  | some value =>
    rw [found] at done
    dsimp only at done
    obtain ⟨_, _, look, done⟩ := bind_done.mp done
    obtain ⟨rfl, rfl⟩ := Prod.mk.inj (Task.done.inj look)
    obtain ⟨_, _, changed, done⟩ := bind_done.mp done
    obtain ⟨-, rfl⟩ := Prod.mk.inj (Task.done.inj changed)
    obtain ⟨_, inner, stored, done⟩ := bind_done.mp done
    obtain ⟨lines, currentLine, stored⟩ := initialGlobal_done stored
    obtain ⟨_, _, restored, done⟩ := bind_done.mp done
    obtain ⟨-, rfl⟩ := Prod.mk.inj (Task.done.inj restored)
    exact ⟨_, done, .inr ⟨value, lines, currentLine, inner, rfl, stored, rfl⟩⟩

end Generate

namespace Scene

open Generate

variable {scene : Scene} {shown : Shown} {bound level roof : Nat}

/-- A global variable gets its initial value. -/
theorem runs_storeGlobal {place : Global} {value : Expr} (direct : value.isDirect)
    (answers : scene.site.Answers scene.context.environment bound)
    (stands : scene.Stands shown.base level roof) (low : shown.floor ≤ level)
    (meant : meaningIn scene.context.environment scene.scopes place.name = .global place) :
    scene.Runs bound shown (storeGlobal place value) (do
      let given ← value.eval scene.context.environment (scene.context.environment.callWithin bound)
      Eval.assign scene.table ⟨place.name, 0, place.type⟩ (given.coerce place.type))
      fun _ _ final => final.stack = shown.stack ∧ Quiet level roof shown final := by
  refine .bind (emits_expr value) (fun _ => (emits_coerce _ _).bind fun _ =>
    (emits_fits _ _ _ _).bind
    fun _ => .ite (fun _ => (emits_setDataAddress _ _).bind fun _ => emits_popTo _ _ _)
      fun _ => emits_discard _) (runs_expr value direct answers shown stands low) ?_
  rintro _ given between ⟨rfl, direct, count, stack, quiet⟩
  obtain ⟨direct', count'⟩ := count_coerce place.type direct count
  refine .lead (fun _ => (emits_fits _ _ _ _).bind fun _ =>
    .ite (fun _ => (emits_setDataAddress _ _).bind fun _ => emits_popTo _ _ _)
      fun _ => emits_discard _) (leads_coerce place.type count stack) ?_
  rintro _ _ ⟨rfl, a, rfl⟩
  refine ⟨rfl, .fits fun accepts => ?_⟩
  have same := ValueType.eq_of_direct direct' accepts
  generalize given.coerce place.type = given at *
  let filled : Shown := { between with a, stack := given.words.reverse ++ shown.stack }
  have pushed : Quiet level roof shown filled := quiet.trans (.of_same rfl rfl rfl)
  have stands : scene.Stands filled.base level roof := quiet.stands stands
  have low : filled.floor ≤ level := quiet.low low
  obtain ⟨addr, locates, sum, -⟩ := stands.global meant
  have count : given.words.length = scene.table.leavesOf place.type := by rw [count', same]
  rw [if_pos rfl]
  have leads : scene.Leads (· = filled) (do
      setDataAddress .b place.offset
      popTo .b 0 (some place.type)) fun _ final => ∃ a b, final = { filled with
        a, b, stack := shown.stack, bytes := filled.bytes.keep
          ((scene.table.shapeOf place.type).slots addr) given.words } := by
    refine .next (leads_setDataAddress rfl) (fun _ => emits_popTo _ _ _) ?_
    rintro _ _ rfl
    rw [sum]
    refine (locates.leads_pop stands (by exact low) (.inl rfl) (by rfl) (Int.add_zero _).symm
      (.inl rfl)
      count rfl).weaken ?_
    rintro _ _ ⟨b, rfl⟩
    exact ⟨b, _, rfl⟩
  refine .of_leads leads ?_
  rintro _ _ ⟨a, b, rfl⟩
  exact ⟨(), locates.run_assign stands count, rfl, pushed.trans
    ((locates.quiet_keep stands given.words).trans (.of_same rfl rfl rfl))⟩

end Scene

namespace Generate

variable {env : Environment} {height : Nat} {ctx : FunctionContext} {gen later : Generator}

/-- Global variables get their initial values by code alone. -/
theorem grows_initialGlobals {places : List Global} (bounded : gen.piece.barrier ≤ gen.piece.size)
    (done : initialGlobals places ctx gen = .done ((), later)) :
    ∃ piece, later = { gen with piece } ∧ gen.piece.Grows piece := by
  induction places generalizing gen with
  | nil =>
    obtain ⟨-, rfl⟩ := Prod.mk.inj (pure_done.mp done)
    exact ⟨_, rfl, .refl bounded⟩
  | cons place places ih =>
    obtain ⟨between, rest, ⟨-, rfl⟩ | ⟨value, lines, currentLine, inner, -, stored, rfl⟩⟩ :=
      initialGlobals_done done
    · exact ih bounded rest
    · have lined : gen.piece.Grows { gen.piece with lines, currentLine } :=
        Piece.grows_of_same bounded rfl rfl fun _ => id
      obtain ⟨piece, rfl, emitted⟩ := emits_storeGlobal place value stored lined.bounded
      obtain ⟨piece, rfl, grows⟩ := ih emitted.bounded rest
      exact ⟨piece, rfl, (lined.trans emitted.toGrows).trans grows⟩

end Generate

/-- A global variable with a value gets it before the ones behind it. -/
theorem execGlobals_some {env : Environment} {call : Caller} {place : Global} {places : List Global}
    {value : Expr} (found : place.declaration.value = some value) :
    execGlobals env call (place :: places) = (do
      let given ← value.eval env call
      Eval.assign env.structs ⟨place.name, 0, place.type⟩ (given.coerce place.type)) >>=
        fun _ => execGlobals env call places := by
  rw [bind_assoc, execGlobals, found]

namespace Activation

open Generate

variable {act : Activation} {bound : Nat} {gen later : Generator} {machine : Machine}
  {shown : Shown}

/-- Before the body of main, the global variables get their initial values. -/
theorem meets_initialGlobals (set : act.Set bound) {places : List Global}
    (direct : ∀ place ∈ places, place.declaration.value.all Expr.isDirect)
    (named : ∀ place ∈ places, act.environment.global? place.name = some place)
    (orderly : gen.Orderly act.environment act.height) (outermost : gen.loops = [])
    (unnamed : gen.scopes.flatten = [])
    (done : initialGlobals places act.context gen = .done ((), later))
    (complete : later.piece.Completes act.site.code []) (starts : act.Starts gen machine shown) :
    machine.Meets act.site.program act.site.settings bound
      (fun _ store last => ∃ shown, act.Starts later last shown ∧ store = act.store later shown)
      ((execGlobals act.environment (act.environment.callWithin bound) places).run.run
        (act.store gen shown)) := by
  induction places generalizing gen machine shown with
  | nil =>
    obtain ⟨-, rfl⟩ := Prod.mk.inj (pure_done.mp done)
    exact .here ⟨shown, starts, rfl⟩
  | cons place places ih =>
    obtain ⟨between, rest, ⟨found, rfl⟩ | ⟨value, lines, currentLine, inner, found, stored, rfl⟩⟩ :=
      initialGlobals_done done
    · unfold execGlobals
      rw [found]
      exact ih (fun other mem => direct other (List.mem_cons_of_mem _ mem))
        (fun other mem => named other (List.mem_cons_of_mem _ mem)) orderly outermost
          unnamed rest starts
    · have inside : value.isDirect := by
        have all := direct place List.mem_cons_self
        rwa [found] at all
      have lined := starts.lined lines currentLine
      let start : Generator := { gen with
        piece := { gen.piece with lines, currentLine }, file := place.file }
      have starts : act.Starts start machine shown := ⟨lined.shows, lined.at', lined.live⟩
      have grown : gen.piece.Grows start.piece := Piece.grows_of_same
        orderly.bounded rfl rfl fun _ => id
      have moved := orderly.goes grown (show start.loops = _ from rfl) rfl rfl
      obtain ⟨piece, rfl, emitted⟩ := emits_storeGlobal place value stored grown.bounded
      have ends := moved.orderly.goes emitted.toGrows
        (show ({ gen with piece } : Generator).loops = start.loops from rfl) rfl rfl
      obtain ⟨final, rfl, grows⟩ := grows_initialGlobals emitted.bounded rest
      have stands := starts.at'.stands set moved.orderly []
      have meant : meaningIn act.environment gen.scopes place.name = .global place := by
        have free : gen.scopes.findSome? (fun (scope : Scope) => scope.lookup place.name) =
          none := by
          rw [← lookup_flatten, unnamed]
          rfl
        rw [meaningIn, free, named place List.mem_cons_self]
      have holes : (act.scene start []).holes = [] := by
        show [] ++ gen.openExits = []
        rw [Generator.openExits, outermost]
        rfl
      have runs := Scene.runs_storeGlobal inside set.answers stands (Nat.le_refl _) meant stored rfl
        (by rw [holes]; exact grows.completes complete) starts.shows
      rw [execGlobals_some found]
      refine runs.bind ?_
      rintro _ _ last ⟨shown', shows, rfl, empty, quiet⟩
      have reached : act.Starts { gen with piece } last shown' :=
        ⟨shows, starts.at'.quiet quiet orderly.frame (empty.trans starts.at'.empty),
          emitted.live _ starts.live⟩
      have follows := ih (fun other mem => direct other (List.mem_cons_of_mem _ mem))
        (fun other mem => named other (List.mem_cons_of_mem _ mem)) ends.orderly outermost unnamed
          rest reached
      exact follows

end Activation

namespace Site

open Generate

variable {site : Site} {env : Environment}

/-- The code of main does what running the program means: it gives the global variables their
initial values, executes the body and ends the program. -/
theorem Hosts.meets_main (hosts : site.Hosts env) {main : Function}
    (known : env.functions[site.index]? = some main) (named : main.name = "main")
    (direct : ∀ place ∈ env.globals, place.declaration.value.all Expr.isDirect)
    (unique : ∀ place ∈ env.globals, env.global? place.name = some place)
    {machine : Machine} {shown : Shown} (plain : site.Plain 0 machine shown)
    (empty : shown.stack = [])
    (level : shown.floor = site.top) (base : shown.base = site.top)
    (store : env.storeIn [] shown = env.store) (bound : Nat) :
    machine.Meets site.program site.settings bound (fun value store last => ∃ result,
        Plain.Ended site store.output result last ∧
          value.words.length = env.structs.leavesOf main.result ∧
          ∀ word, value.words = [word] → result = word)
      (env.outcome main bound) := by
  have listed := List.mem_of_getElem? known
  obtain ⟨piece, code, generated, linked, -, complete⟩ := hosts.code _ main known
  obtain rfl : site.code = code := Option.some.inj (site.found.symm.trans linked)
  obtain ⟨lines, currentLine, opening, later, start, finish, same⟩ := generate_done generated
  have initial := (start.resolve_left fun other => other.1 named).2
  obtain ⟨params, -⟩ := hosts.program.ready.settled.main main listed named
  let act : Activation := ⟨site, ⟨env, main⟩, 0, shown⟩
  have set : act.Set bound := {
    program := hosts.program
    houses := hosts.houses
    roof := Nat.le_of_eq base
    answers := hosts.answers bound
    listed
    block := fun other => absurd named other }
  have scopes : (main.opening lines currentLine).scopes = [[]] := by
    rw [Function.opening, params]
    rfl
  have orderly := orderly_opening (show Scoped env 0 (main.opening lines currentLine).scopes 0 by
    rw [scopes]
    exact Scoped.nil.congr rfl) lines currentLine
  have at' : act.At 0 shown := ⟨empty, rfl, by show (shown.floor : Int) = shown.base + 0; omega,
    fun _ _ _ _ => rfl⟩
  have starts : act.Starts (main.opening lines currentLine) machine shown :=
    ⟨.ofPlain rfl (Nat.le_refl _) plain, at', .inl rfl⟩
  obtain ⟨opened, rfl, grows⟩ := grows_initialGlobals orderly.bounded initial
  have goes := orderly.goes grows
    (show ({ main.opening lines currentLine with piece := opened } : Generator).loops =
    [] from rfl) rfl rfl
  obtain ⟨opens, runs⟩ := act.meets_functionEnd set (hosts.direct main listed)
    (hosts.frames main listed)
    goes.orderly rfl rfl finish (same ▸ complete)
  have initially := act.meets_initialGlobals set direct unique orderly rfl (by rw [scopes]; rfl)
    initial opens starts
  have before : act.store (main.opening lines currentLine) shown = env.store := by
    rw [← store, Activation.store, Environment.storeIn, scopes]
    rfl
  rw [before] at initially
  refine initially.bind ?_
  rintro _ _ last ⟨shown', starts, rfl⟩
  refine (runs starts).bind ?_
  rintro flow store last ⟨value, returned, stop, final, stopped, giveBack, ends, globals, output⟩
  rw [show flow.returned main = pure value from returned]
  refine (stopped.comes_end giveBack ends.empty ends.level (ends.base.trans base)).mono
    fun last ended => ?_
  refine ⟨final.a, ?_, ends.count, ends.register named⟩
  rw [output]
  exact ended

end Site

end TinLang
