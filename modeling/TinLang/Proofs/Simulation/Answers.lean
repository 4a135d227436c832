import TinLang.Proofs.Simulation.Assignments

/-!
# Code of calls

A call evaluates its arguments from left to right and pushes the result of what it calls. Natives
that work on numbers alone print and return what their effect says; of a function it is assumed that
its code does what a call of it means. The code of an expression then does what the evaluation of
the expression says.
-/
namespace TinLang

/-- The bytes that a call of a function takes for the result and the arguments. -/
def Environment.space (env : Environment) (function : Function) : Nat :=
  env.bytesOf (some function.result) + function.block

/-- What the code of a function finds when it starts. -/
structure Site.Entering (site : Site) (env : Environment) (function : Function) (index : Nat)
    (values : List Value) (entered : Shown) : Prop where
  empty : entered.stack = []
  level : entered.floor = entered.base
  room : entered.base + 16 + env.space function ≤ site.top
  few : (function.params.map fun parameter => env.bytesOf parameter.type).sum < 2 ^ 63
  types : function.params.map Parameter.type = values.map fun value => some value.type
  params : env.structs.Passes entered.bytes (entered.base + 16) (function.callee index).places
    (values.map Value.words)

/-- What the code of a function leaves when it returns a value: its frame is given back, the words
of the value stand above the arguments, and nothing else has changed above the frame but the
arguments and the variables of the whole program. -/
structure Site.Finished (env : Environment) (function : Function) (entered : Shown)
    (value : Value) (final : Shown) : Prop where
  empty : final.stack = []
  level : final.floor = final.base
  base : final.base = entered.base
  type : value.type = function.result
  count : value.words.length = env.structs.leavesOf function.result
  words : final.bytes.Spells (final.base + 16 + function.block) value.words.reverse
  bytes : ∀ place, place < Memory.dataBase → entered.base ≤ place →
    (place < entered.base + 16 ∨ entered.base + 16 + env.space function ≤ place) →
      final.bytes place = entered.bytes place

/-- A machine is about to return a value from a function, and memory holds a store. -/
def Site.Yields (site : Site) (env : Environment) (function : Function) (entered : Shown)
    (locals : Bindings) (value : Value) (store : Store) (last : Machine) : Prop :=
  ∃ stop final, site.Plain stop last final ∧
    site.code[stop]? = some (.instruction ⟨.giveBack, .unused, .unused, 0⟩) ∧
    Site.Finished env function entered value final ∧
    store = ⟨locals, final.bytes.bindings env.structs env.referents, final.output⟩

/-- The code of every function that can be called does what calls of the function mean, as long as
loops go round and calls nest at most some number of times. -/
def Site.Answers (site : Site) (env : Environment) (bound : Nat) : Prop :=
  ∀ less, bound = less + 1 → ∀ (index : Nat) (function : Function),
    env.functions[index]? = some function → function.name ≠ "main" →
    ∃ (code : Code) (linked : (site.program.pieces[index]?).map Piece.code = some code)
      (small : code.size < 2 ^ 31),
      ∀ (locals : Bindings) (values : List Value) (machine : Machine) (entered : Shown),
        (site.elsewhere index code linked small).Plain 0 machine entered →
        site.Entering env function index values entered →
        machine.Meets site.program site.settings less
          ((site.elsewhere index code linked small).Yields env function entered locals)
          ((env.callWithin bound index values).run.run
            ⟨locals, entered.bytes.bindings env.structs env.referents, entered.output⟩)

/-- What runs while an expression is evaluated runs in the same frame. -/
theorem Quiet.stands {scene : Scene} {level roof : Nat} {before shown : Shown}
    (quiet : Quiet level roof before shown) (stands : scene.Stands before.base level roof) :
    scene.Stands shown.base level roof :=
  quiet.base.symm ▸ stands

/-- After a quiet step the floor is still below the level. -/
theorem Quiet.low {level roof : Nat} {before shown : Shown} (quiet : Quiet level roof before shown)
    (low : before.floor ≤ level) : shown.floor ≤ level :=
  quiet.floor.symm ▸ low

namespace Scene

open Generate

variable {scene : Scene} {before shown : Shown} {bound level roof : Nat} {rest : List Word}

/-- Where no byte of a local variable changes, local names are bound to the same. -/
theorem Stands.locals_eq {base : Nat} (stands : scene.Stands base level roof) {bytes others : Bytes}
    (same : ∀ place, (level ≤ place ∧ place < base ∨ base + 16 ≤ place ∧ place < roof) →
      bytes place = others place) :
    bytes.bindings scene.table (frameReferents base scene.scopes) =
      others.bindings scene.table (frameReferents base scene.scopes) := by
  refine stands.program.roomy.bindings_congr (fun entry mem => stands.hosts.placed entry
    (List.mem_append_left _ mem)) fun entry mem addr type stand place low high =>
      same place ?_
  have high : (place : Int) < addr + scene.table.sizeOf type := high
  rcases stands.locals entry mem addr type stand with ⟨first, last⟩ | ⟨first, last⟩
  · exact .inl ⟨by omega, by omega⟩
  · exact .inr ⟨by omega, by omega⟩

/-- Where no byte of the data segment changes, the names of the whole program are bound to the
same. -/
theorem Stands.globals_eq {base : Nat} (stands : scene.Stands base level roof)
    {bytes others : Bytes}
    (same : ∀ place, Memory.dataBase ≤ place → bytes place = others place) :
    bytes.bindings scene.table scene.context.environment.referents =
      others.bindings scene.table scene.context.environment.referents := by
  refine stands.program.roomy.bindings_congr (fun entry mem => stands.hosts.placed entry
    (List.mem_append_right _ mem)) fun entry mem addr type stand place low high =>
      same place ?_
  obtain ⟨first, -⟩ := stands.globals entry mem addr type stand
  omega

/-- Where no byte of a variable changes, memory holds the same store. -/
theorem Stands.store_eq (stands : scene.Stands before.base level roof) {after : Shown}
    (base : after.base = before.base) (output : after.output = before.output)
    (bytes : ∀ place, (level ≤ place ∧ place < before.base ∨
      before.base + 16 ≤ place ∧ place < roof ∨ Memory.dataBase ≤ place) →
        after.bytes place = before.bytes place) : scene.store after = scene.store before := by
  rw [store, store, Environment.storeIn, Environment.storeIn, base, output,
    stands.locals_eq fun place region => bytes place (region.imp_right .inl),
    stands.globals_eq fun place region => bytes place (.inr (.inr region))]

/-- The values of arguments lie on some words, and their types are those of the parameters. -/
structure Argues (scene : Scene) (level roof : Nat) (opened : Shown)
    (types : List (Option ValueType))
    (found : Nat × Bool) (values : List Value) (final : Shown) : Prop where
  fitting : found = (wordSize * (values.map Value.words).flatten.length, true)
  types : types = values.map fun value => some value.type
  counts : ∀ value ∈ values, value.words.length = scene.table.leavesOf value.type
  stack : final.stack = (values.map Value.words).flatten.reverse ++ opened.stack
  quiet : Quiet level roof opened final

/-- One argument and then others. -/
theorem runs_argument (name : Text) {argument : Expr} {arguments : List Expr} {type : ValueType}
    {types : List (Option ValueType)} {eval : Eval Value} {others : Eval (List Value)}
    (first : scene.Runs bound shown (expr argument) eval
      (scene.Pushes level roof shown shown.stack))
    (more : ∀ between, Quiet level roof shown between →
      scene.Runs bound between (callArguments name arguments types) others
        (scene.Argues level roof between types)) :
    scene.Runs bound shown (callArguments name (argument :: arguments) (some type :: types)) (do
      let given ← eval
      let values ← others
      return given.coerce type :: values) (scene.Argues level roof shown (some type :: types)) := by
  unfold callArguments
  refine .bind (emits_expr argument) (fun _ => (emits_coerce _ _).bind fun _ =>
    emits_environment.bind fun _ => (emits_fits _ _ _ _).bind fun _ =>
    (emits_callArguments _ _ _).bind fun _ => .pure _) first ?_
  rintro _ value between ⟨rfl, direct, count, stack, quiet⟩
  obtain ⟨direct', count'⟩ := count_coerce type direct count
  refine .lead (fun _ => emits_environment.bind fun _ => (emits_fits _ _ _ _).bind fun _ =>
    (emits_callArguments _ _ _).bind fun _ => .pure _) (leads_coerce type count stack) ?_
  rintro _ _ ⟨rfl, a, rfl⟩
  refine ⟨rfl, .environment (.fits fun accepts => ?_)⟩
  have same := ValueType.eq_of_direct direct' accepts
  generalize value.coerce type = given at *
  have quiet' : Quiet level roof shown { between with a, stack := given.words.reverse ++
    shown.stack } :=
    quiet.trans (.of_same rfl rfl rfl)
  refine .bind (emits_callArguments _ _ _) (fun _ => .pure _) (more _ quiet') ?_
  rintro ⟨pushed, fitting⟩ values final ⟨fits, types, counts, stack, quiet''⟩
  obtain ⟨rfl, rfl⟩ := Prod.mk.inj fits
  refine .pure ⟨?_, by rw [List.map_cons, ← types, same], ?_, ?_, quiet'.trans quiet''⟩
  · refine Prod.ext ?_ rfl
    show wordSize * scene.table.leavesOf given.type + _ = _
    rw [List.map_cons, List.flatten_cons, List.length_append, count', Nat.mul_add]
  · intro other mem
    rcases List.mem_cons.mp mem with rfl | later
    · exact count'
    · exact counts other later
  · rw [stack, List.map_cons, List.flatten_cons, List.reverse_append, List.append_assoc]

/-- The values of arguments have the types of the parameters. -/
theorem counts_of_types {table : StructTable} {places : ArgumentPlaces} {values : List Value}
    (types : (places.map fun place => some place.1) = values.map fun value => some value.type)
    (counts : ∀ value ∈ values, value.words.length = table.leavesOf value.type) :
    table.Counts places (values.map Value.words) := by
  induction places generalizing values with
  | nil =>
    obtain rfl : values = [] := by simpa using types.symm
    exact .nil
  | cons place places ih =>
    cases values with
    | nil => simp at types
    | cons value values =>
      obtain ⟨same, types⟩ := List.cons.inj types
      refine .cons ?_ (ih types fun other mem => counts other (List.mem_cons_of_mem _ mem))
      rw [counts value List.mem_cons_self, Option.some.inj same]

/-- A call makes room, evaluates its arguments and calls. -/
theorem runs_calling {callee : Callee} {name : Text} {arguments : List Expr}
    (stands : scene.Stands shown.base level roof) (low : shown.floor ≤ level)
    (small : scene.space callee ≤ 2 ^ 31) {given : Eval (List Value)}
    {eval : List Value → Eval Value}
    (argue : ∀ opened : Shown, opened.base = shown.base → opened.floor ≤ level →
      scene.Runs bound opened (callArguments name arguments callee.params) given
        (scene.Argues level roof opened callee.params))
    (finish : ∀ opened argued values, Opened scene callee shown opened →
      scene.Argues level roof opened callee.params
        (wordSize * (values.map Value.words).flatten.length, true) values argued →
      scene.Runs bound argued
        (finishCall callee (wordSize * (values.map Value.words).flatten.length) true) (eval values)
        (scene.Pushes level roof shown shown.stack)) :
    scene.Runs bound shown (do
      reserveCall callee
      let (pushed, fitting) ← callArguments name arguments callee.params
      finishCall callee pushed fitting) (do eval (← given))
      (scene.Pushes level roof shown shown.stack) := by
  have below := stands.below
  refine .lead (fun _ => (emits_callArguments _ _ _).bind fun _ => emits_finishCall _ _ _)
    (leads_reserveCall small) ?_
  rintro _ opened ⟨rest, floor, bytes, rfl, lower, same, rooms⟩
  refine ⟨stands.store_eq rfl rfl fun place region => same place ?_, ?_⟩
  · have highest := stands.highest
    have top := scene.site.below
    have above := stands.above
    omega
  refine .bind (emits_callArguments _ _ _) (fun _ => emits_finishCall _ _ _)
    (argue _ rfl (Nat.le_trans lower low)) ?_
  rintro ⟨pushed, fitting⟩ values argued argues
  obtain ⟨rfl, rfl⟩ := Prod.mk.inj argues.fitting
  exact finish { shown with stack := rest, floor, bytes } argued values
    ⟨rfl, rfl, Nat.le_trans low below, same, rooms⟩ argues

/-- What the arguments of a call have left behind. -/
theorem Argues.argued {opened argued : Shown} {types : List (Option ValueType)} {found : Nat × Bool}
    {values : List Value} (argues : scene.Argues level roof opened types found values argued)
    {above : Nat} (high : above ≤ level) (data : above ≤ Memory.dataBase) :
    Argued opened above (values.map Value.words) argued where
  base := argues.quiet.base
  floor := argues.quiet.floor
  stack := argues.stack
  bytes place low less := argues.quiet.bytes place low (by omega) (.inl (by omega))

/-- A call of a function does what the call means. -/
theorem runs_finishFunction (stands : scene.Stands shown.base level roof)
    (low : shown.floor ≤ level)
    (answers : scene.site.Answers scene.context.environment bound) {index : Nat}
    {function : Function}
    (listed : scene.context.environment.functions[index]? = some function)
    (other : function.name ≠ "main") {opened argued : Shown} {values : List Value}
    (room : Opened scene (function.callee index) shown opened)
    (argues : scene.Argues level roof opened (function.callee index).params
      (wordSize * (values.map Value.words).flatten.length, true) values argued) :
    scene.Runs bound argued
      (finishCall (function.callee index) (wordSize * (values.map Value.words).flatten.length) true)
      (scene.context.environment.callWithin bound index values)
      (scene.Pushes level roof shown shown.stack) := by
  intro gen type later done scopes complete machine shows
  have ready := stands.program.ready
  have mem : function ∈ scene.context.environment.functions := List.mem_of_getElem? listed
  have params := (ready.places_function mem index).2.1
  have below := stands.below
  have above := stands.above
  have highest := stands.highest
  have top := scene.site.below
  have pushed := argues.argued low (by omega)
  have counts := counts_of_types (params.symm.trans argues.types) argues.counts
  have bytes : ((function.callee index).params.map scene.context.environment.bytesOf).sum =
      wordSize * (values.map Value.words).flatten.length := by rw [params, counts.bytesOf]
  have few := few_of_finishCall done complete shows pushed.stack
  rw [← bytes] at done few
  obtain ⟨_, _, _, -, -, -, result⟩ := finishCall_done done
  obtain rfl : some function.result = type := (Prod.mk.inj result).1
  cases bound with
  | zero => exact .zero machine
  | succ less =>
    obtain ⟨code, linked, small, serves⟩ := answers less rfl index function listed other
    obtain ⟨back, reaches, returns⟩ := takes_function ready mem done scopes complete room pushed
      counts shows linked small
    refine .of_comes reaches fun last takes => .of_takes takes ?_
    rintro entry ⟨entered, plain, enters⟩
    have space : scene.space (function.callee index) = scene.context.environment.space
      function := rfl
    have place := enters.place
    rw [space] at place
    have started : scene.store argued = ⟨(scene.store argued).locals,
        entered.bytes.bindings scene.table scene.context.environment.referents,
          entered.output⟩ := by
      rw [stands.globals_eq fun byte high => enters.bytes byte (by omega), enters.output]
      rfl
    rw [started]
    refine (serves (scene.store argued).locals values entry entered plain
      ⟨enters.empty, enters.level,
      ?_, ?_, argues.types, enters.params⟩).next ?_
    · show entered.base + 16 + _ ≤ scene.site.top
      omega
    · rwa [Function.callee, List.map_map] at few
    rintro value store ending ⟨stop, final, stopped, giveBack, finished, rfl⟩
    have base := finished.base
    have count : value.words.length = scene.table.leavesOf function.result := finished.count
    have kept : ∀ byte, byte < Memory.dataBase → shown.floor ≤ byte →
        final.bytes byte = argued.bytes byte := fun byte less high =>
      (finished.bytes byte less (by omega) (.inr (by omega))).trans (enters.bytes byte high)
    have returning : Returning scene (function.callee index) value.words shown.stack
      shown.floor back
        argued final := by
      refine ⟨finished.empty, finished.level, ?_, finished.count, ?_, Bytes.spells_append.mpr
        ⟨finished.words, ?_⟩⟩
      · rw [base, space]
        exact place
      · rw [base]
        refine enters.saves.congr fun byte least most =>
          (finished.bytes byte ?_ least (.inl most)).symm
        omega
      · have start : final.base + 16 + (function.callee index).block + 8 *
          value.words.reverse.length =
            entered.base + 16 + scene.space (function.callee index) := by
          rw [List.length_reverse, count, base]
          unfold Scene.space wordSize
          show _ + function.block + _ = _ + (8 * scene.table.leavesOf function.result +
            function.block)
          omega
        rw [start]
        exact enters.outer.congr fun byte least most =>
          (finished.bytes byte (by omega) (by omega) (.inr (by omega))).symm
    refine (returns stop ending final value.words stopped giveBack returning).mono ?_
    intro last reached
    have base' : argued.base = shown.base := pushed.base.trans room.base
    have floor : opened.floor ≤ shown.floor := by
      rcases room.rooms with ⟨-, place, -⟩ | ⟨-, -, place⟩ <;> omega
    refine ⟨_, reached, ?_, congrArg some finished.type.symm, ?_, ?_, rfl, rfl, base', ?_⟩
    · have locals : final.bytes.bindings scene.table (frameReferents argued.base scene.scopes) =
          argued.bytes.bindings scene.table (frameReferents argued.base scene.scopes) :=
        Stands.locals_eq (base'.symm ▸ stands) fun byte region => kept byte (by omega) (by omega)
      rw [store, store, Environment.storeIn, Environment.storeIn, ← locals]
    · rw [finished.type]
      exact stands.program.results function mem
    · rw [finished.type]
      exact finished.count
    · intro byte least less quiet
      refine (kept byte less least).trans ((argues.quiet.bytes byte (by omega) less ?_).trans
        (room.bytes byte least))
      rw [room.base]
      exact quiet

/-- What a native that works on numbers alone finds in its block are the values of its arguments. -/
theorem given_of_passes {native : Native} {values : List Value}
    (types : (native.callee.places.map fun place => some place.1) =
      values.map fun value => some value.type)
    (passes : scene.table.Passes shown.bytes shown.floor native.callee.places
      (values.map Value.words)) :
    (values.map fun value => scene.table.narrowed value.type value.words).flatten.length =
        native.params.length ∧ Site.Plain.Given native
      (values.map fun value => scene.table.narrowed value.type value.words).flatten shown := by
  have words : (values.map fun value => scene.table.narrowed value.type value.words) =
      native.callee.places.map fun place =>
        shown.bytes.read ((scene.table.shapeOf place.1).slots (shown.floor + place.2)) := by
    generalize native.callee.places = places at types passes
    induction places generalizing values with
    | nil =>
      obtain rfl : values = [] := by simpa using types.symm
      rfl
    | cons place places ih =>
      cases values with
      | nil => simp at types
      | cons value values =>
        obtain ⟨same, types⟩ := List.cons.inj types
        obtain ⟨first, passes⟩ := List.forall₂_cons.mp passes
        rw [List.map_cons, List.map_cons, ih types passes, first, Option.some.inj same]
  rw [words, Callee.places, native.offsets_eq]
  refine ⟨by cases native <;> rfl, fun index offset size place width => ?_⟩
  rw [show native.layout.offsets = _ from native.offsets_eq] at place
  cases native <;> rcases index with _ | _ | _ | index <;>
    first
    | exact absurd (show none = some offset from place) (by simp)
    | obtain rfl := Option.some.inj place
      obtain rfl := Option.some.inj width
      rfl

/-- A native that works on numbers alone has an effect on any numbers. -/
theorem effect_of_direct (table : StructTable) {native : Native} (direct : native.isDirect)
    {words : List Word} (count : words.length = native.params.length) : ∃ text result type,
      native.effect? words = some (text, result) ∧ ValueType.ofText? native.result = some type ∧
        result.toList.length = table.leavesOf type ∧ type.pointer = 0 := by
  cases native with
  | printInt | printFloat | printChar | squareRoot =>
    obtain ⟨word, rfl⟩ := List.length_eq_one_iff.mp count
    exact ⟨_, _, _, rfl, rfl, rfl, rfl⟩
  | power =>
    obtain ⟨first, second, rfl⟩ := List.length_eq_two.mp count
    exact ⟨_, _, _, rfl, rfl, rfl, rfl⟩
  | _ => exact absurd direct (by decide)

/-- The result of a native stands above its block, in front of what stood there. -/
theorem spells_returned {native : Native} {result : Option Word} {outer : List Word}
    (spells : shown.bytes.Spells
      (shown.floor + (native.layout.block) + 8 * result.toList.length) outer) :
    (Site.Plain.returned native result shown).Spells (shown.floor + (native.layout.block))
      (result.toList ++ outer) := by
  cases result with
  | none => exact spells
  | some word =>
    refine ⟨(Memory.word_store _ _ .eight word).trans (Memory.narrow_eight word), ?_⟩
    exact spells.congr fun byte low high =>
      (Memory.store_of_outside (by simp only [AccessSize.bytes]; simp at low; omega)).symm

/-- The result of a native changes nothing behind its room. -/
theorem returned_of_behind {native : Native} {result : Option Word} {byte : Nat}
    (behind : shown.floor + (native.layout.block) + 8 * result.toList.length ≤ byte) :
    Site.Plain.returned native result shown byte = shown.bytes byte := by
  cases result with
  | none => rfl
  | some word =>
    exact Memory.store_of_outside (by simp only [AccessSize.bytes]; simp at behind; omega)

/-- A call of a native that works on numbers alone has the effect of the native. -/
theorem runs_finishNative (stands : scene.Stands shown.base level roof) (low : shown.floor ≤ level)
    {native : Native} (direct : native.isDirect) {opened argued : Shown} {values : List Value}
    (room : Opened scene native.callee shown opened)
    (argues : scene.Argues level roof opened native.callee.params
      (wordSize * (values.map Value.words).flatten.length, true) values argued) :
    scene.Runs bound argued
      (finishCall native.callee (wordSize * (values.map Value.words).flatten.length) true)
      (Eval.native scene.table native values) (scene.Pushes level roof shown shown.stack) := by
  intro gen type later done scopes complete machine shows
  have ready := stands.program.ready
  have laid := native.laid scene.context.environment
  have below := stands.below
  have above := stands.above
  have highest := stands.highest
  have top := scene.site.below
  have pushed := argues.argued low (by omega)
  have types := laid.params.symm.trans argues.types
  have counts := counts_of_types types argues.counts
  have count := fun addr => counts.length_flatten ready.structs laid.placed addr
  obtain ⟨high, -, block⟩ := room.small (pushed.base.trans room.base) shows
  obtain ⟨rfl, cell, imm, names, here, next, reaches, returns⟩ := comes_finishCall ready.settled
    ready.structs laid done complete shows scopes block (count argued.floor) pushed.stack
    (pushed.rooms room) high
  refine .of_comes reaches ?_
  rintro last ⟨called, plain, calling⟩
  obtain ⟨length, given⟩ := given_of_passes types
    (counts.passes ready.structs laid.placed calling.arguments)
  obtain ⟨text, result, type, effect, known, words, pointer⟩ := effect_of_direct scene.table
    direct length
  have place := calling.above
  have space : scene.space native.callee = 8 * result.toList.length + (native.layout.block) := by
    show 8 * scene.context.environment.leavesOf (ValueType.ofText? native.result) + _ = _
    rw [known, words]
    rfl
  have base : called.base = shown.base := calling.base.trans (pushed.base.trans room.base)
  have run : (Eval.native scene.table native values).run.run (scene.store argued) =
      (.ok ⟨type, result.toList⟩, { scene.store argued with output := argued.output ++ text }) := by
    unfold Eval.native
    dsimp only
    rw [effect, known]
    rfl
  rw [run]
  have reversed : result.toList.reverse = result.toList := by cases result <;> rfl
  have outer := calling.outer
  rw [space, Nat.add_comm (8 * _), ← Nat.add_assoc] at outer
  refine (plain.comes_native here next names calling.empty effect given (by omega)).bind
    fun back resumed => (returns back _ result.toList resumed calling.empty ?_
      (spells_returned outer) (by dsimp only; omega)).mono ?_
  · rw [List.length_append]
    show called.floor + (native.layout.block) + _ = _
    omega
  intro ending reached
  have floor : opened.floor ≤ shown.floor := by
    rcases room.rooms with ⟨-, place, -⟩ | ⟨-, -, place⟩ <;> omega
  have same : argued.floor = opened.floor := pushed.floor
  have kept : ∀ byte, shown.floor ≤ byte →
      Site.Plain.returned native result called byte = argued.bytes byte := fun byte high =>
    (returned_of_behind (by omega)).trans
      (calling.bytes byte (by omega) (by show called.floor + (native.layout.block) ≤ byte; omega))
  refine ⟨_, reached, ?_, known, pointer, words, by rw [reversed], rfl, base, ?_⟩
  · have base' : argued.base = called.base := calling.base.symm
    have locals : (Site.Plain.returned native result called).bindings scene.table
        (frameReferents called.base scene.scopes) =
        argued.bytes.bindings scene.table (frameReferents called.base scene.scopes) :=
      Stands.locals_eq (base.symm ▸ stands) fun byte region => kept byte (by omega)
    have globals := stands.globals_eq fun byte high => kept byte (by omega)
    rw [store, store, Environment.storeIn, Environment.storeIn, calling.output, base',
      ← locals, ← globals]
  · intro byte least less quiet
    refine (kept byte least).trans ((argues.quiet.bytes byte (by omega) less ?_).trans
      (room.bytes byte least))
    rw [room.base]
    exact quiet

end Scene

end TinLang
