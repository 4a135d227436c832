import TinLang.Proofs.Simulation.Answers

/-!
# Code of expressions

In a program without pointers the code of an expression pushes the value that the evaluation of the
expression gives, and changes the store as the evaluation does; it divides by zero where the
evaluation does.
-/
namespace TinLang

namespace Scene

open Generate

variable {scene : Scene} {shown : Shown} {bound level roof : Nat}

/-- The code of a literal that is no pointer pushes its value. -/
theorem runs_literal {e : Expr} {value : Value} (literal : Value.ofLiteral? e = some value) :
    scene.Runs bound shown (Generate.literal e) (pure value)
      (scene.Pushes level roof shown shown.stack) := by
  obtain ⟨direct, one, leaves⟩ := Value.scalar_of_ofLiteral? literal scene.table
  refine .of_leads (leads_literal literal) ?_
  rintro _ _ ⟨rfl, a, rfl⟩
  exact ⟨_, rfl, rfl, direct, one.trans leaves.symm, rfl, .of_same rfl rfl rfl⟩

/-- The value at a place that an expression names is pushed. -/
theorem runs_placeValue {e : Expr} {step : Generate (Option ValueType)} (emits : Emits step)
    (stands : scene.Stands shown.base level roof) (low : shown.floor ≤ level)
    (runs : scene.Runs bound shown step (e.place scene.table)
      (scene.Addresses level roof shown shown.stack)) :
    scene.Runs bound shown (do loadValue (← step)) (do
      Eval.read scene.table (← e.place scene.table)) (scene.Pushes level roof shown
        shown.stack) := by
  refine .bind emits (fun _ => emits_loadValue _) runs ?_
  rintro _ place between ⟨rfl, ⟨addr, there, stack⟩, quiet⟩
  exact runs_loadValue (quiet.base.symm ▸ there) (quiet.stands stands) (quiet.low low) stack quiet

/-- The value of an expression is assigned to a place that another names. -/
theorem runs_assign (span : Span) {target value : Expr} {eval : Eval Value}
    (placed : target.isPlace)
    (stands : scene.Stands shown.base level roof) (low : shown.floor ≤ level)
    (runs : ∀ between, Quiet level roof shown between →
      scene.Runs bound between (expr value) eval
        (scene.Pushes level roof between between.stack)) :
    scene.Runs bound shown (do
      let place ← Generate.address target
      let given ← coerce (← expr value) place
      storeValue span place given) (do
      let place ← target.place scene.table
      let given ← eval
      Eval.store scene.table place (given.coerce place.type))
      (scene.Pushes level roof shown shown.stack) := by
  refine .bind (emits_address target) (fun _ => (emits_expr value).bind fun _ =>
    (emits_coerce _ _).bind fun _ => emits_storeValue _ _ _) (runs_address placed stands) ?_
  rintro _ place between ⟨rfl, ⟨addr, there, stack⟩, quiet⟩
  refine .bind (emits_expr value) (fun _ => (emits_coerce _ _).bind fun _ =>
    emits_storeValue _ _ _) (runs between quiet) ?_
  rintro _ given later ⟨rfl, direct, count, stack', quiet'⟩
  obtain ⟨direct', count'⟩ := count_coerce place.type direct count
  have quiet := quiet.trans quiet'
  refine .lead (fun _ => emits_storeValue _ _ _) (leads_coerce place.type count stack') ?_
  rintro _ _ ⟨rfl, a, rfl⟩
  refine ⟨rfl, runs_storeValue span ?_ (quiet.stands stands) (quiet.low low) direct' count'
    (by rw [stack]) (quiet.trans (.of_same rfl rfl rfl))⟩
  exact quiet.base.symm ▸ there

/-- A step that only looks at the surroundings, or reports a problem. -/
theorem Runs.found {α β γ : Type} {step : Generate α} {next : α → Generate γ} {eval : Eval β}
    {last : γ → β → Shown → Prop} {known : α → Prop}
    (finds : ∀ gen value later, step scene.context gen = .done (value, later) →
      later = gen ∧ known value)
    (runs : ∀ value, known value → scene.Runs bound shown (next value) eval last) :
    scene.Runs bound shown (step >>= next) eval last := by
  intro gen value later done scopes complete machine shows
  obtain ⟨found, between, one, two⟩ := bind_done.mp done
  obtain ⟨rfl, holds⟩ := finds gen found between one
  exact runs found holds two scopes complete shows

/-- A function found by name stands at its index. -/
theorem getElem?_of_function? {env : Environment} {name : Text} {index : Nat}
    {function : Function} (known : env.function? name = some (index, function)) :
    env.functions[index]? = some function := by
  obtain ⟨⟨listed, place⟩, inside, swapped⟩ := Option.map_eq_some_iff.mp known
  obtain ⟨rfl, rfl⟩ : place = index ∧ listed = function := by simpa using swapped
  exact List.mem_zipIdx_iff_getElem?.mp (List.mem_of_find?_eq_some inside)

/-- The arguments of a native take little space. -/
theorem space_native (scene : Scene) (native : Native) : scene.space native.callee ≤ 2 ^ 31 := by
  have leaves : scene.context.environment.leavesOf native.callee.result ≤ 1 := by
    cases native <;> first | exact Nat.le_refl 1 | exact Nat.zero_le 1
  have block : native.callee.block ≤ 64 := by cases native <;> decide
  unfold Scene.space wordSize
  omega

/-- A call of what can be called without pointers does what the call means. -/
theorem runs_call (span : Span) (name : Text) (arguments : List Expr)
    (direct : ((Native.ofName? name).map Native.isDirect).getD true)
    (answers : scene.site.Answers scene.context.environment bound)
    (stands : scene.Stands shown.base level roof) (low : shown.floor ≤ level)
    (argue : ∀ (types : List ValueType), arguments.length = types.length → ∀ opened : Shown,
      opened.base = shown.base → opened.floor ≤ level →
      scene.Runs bound opened (callArguments name arguments (types.map some))
        (evalArguments scene.context.environment (scene.context.environment.callWithin bound)
          arguments
          (types.map some)) (scene.Argues level roof opened (types.map some))) :
    scene.Runs bound shown (expr (.call span name arguments))
      ((Expr.call span name arguments).eval scene.context.environment
        (scene.context.environment.callWithin bound)) (scene.Pushes level roof shown
          shown.stack) := by
  unfold expr Expr.eval
  refine .found (fun gen value later done => callee?_found done) ?_
  rintro _ ⟨callee, rfl, called⟩
  refine .ite (fun _ => .reported) fun counted => ?_
  have counted := Decidable.not_not.mp counted
  have each : ∀ {callee : Callee}, arguments.length = callee.params.length →
      callee.params = (callee.places.map fun place => some place.1) → ∀ opened : Shown,
      opened.base = shown.base → opened.floor ≤ level →
      scene.Runs bound opened (callArguments name arguments callee.params)
        (evalArguments scene.context.environment (scene.context.environment.callWithin bound)
          arguments
          callee.params) (scene.Argues level roof opened callee.params) := by
    intro callee counted params opened base below
    have types : callee.params = (callee.places.map Prod.fst).map some := by
      rw [params, List.map_map]
      rfl
    rw [types] at counted ⊢
    exact argue _ (by simpa using counted) opened base below
  cases called with
  | @native native named =>
    rw [named] at direct ⊢
    exact runs_calling stands low (space_native scene native)
      (each counted (native.laid scene.context.environment).params)
      fun opened argued values room argues => runs_finishNative stands low direct room argues
  | @function index function free known other =>
    rw [free, known]
    have listed := getElem?_of_function? known
    have mem := List.mem_of_getElem? listed
    have small : scene.space (function.callee index) ≤ 2 ^ 31 := stands.program.calls function mem
    exact runs_calling stands low small (each counted (stands.program.ready.places_function
      mem index).2.1)
      fun opened argued values room argues =>
        runs_finishFunction stands low answers listed other room argues

/-- Steps one after another in another grouping. -/
theorem Runs.assoc {α β γ δ : Type} {first : Generate α} {second : α → Generate γ}
    {third : γ → Generate δ} {eval : Eval β} {last : δ → β → Shown → Prop}
    (runs : scene.Runs bound shown (do third (← (do second (← first)))) eval last) :
    scene.Runs bound shown (do
      let value ← first
      third (← second value)) eval last := by
  intro gen value later done
  obtain ⟨_, _, one, rest⟩ := bind_done.mp done
  obtain ⟨_, _, two, three⟩ := bind_done.mp rest
  exact runs (bind_done.mpr ⟨_, _, bind_done.mpr ⟨_, _, one, two⟩, three⟩)

/-- Without pointers nothing else is a place in memory. -/
theorem addressable_of_not_isPlace {e : Expr} (direct : e.isDirect) (other : ¬ e.isPlace)
    {ctx : FunctionContext} {gen : Generator} :
    addressable e ctx gen = .done (false, gen) := by
  fun_induction addressable e with
  | case1 span name => exact absurd rfl other
  | case2 span object field ih => exact ih direct other
  | case3 => exact absurd direct Bool.false_ne_true
  | case4 span operand => exact absurd direct (by simp [Expr.isDirect])
  | case5 => rfl

/-- A member of the struct that an expression names or gives is pushed. -/
theorem runs_member (span : Span) {object : Expr} (field : Text) (direct : object.isDirect)
    (stands : scene.Stands shown.base level roof) (low : shown.floor ≤ level) (call : Caller)
    (runs : scene.Runs bound shown (expr object) (object.eval scene.context.environment call)
      (scene.Pushes level roof shown shown.stack)) :
    scene.Runs bound shown (expr (.member span object field))
      ((Expr.member span object field).eval scene.context.environment call)
      (scene.Pushes level roof shown shown.stack) := by
  unfold expr Expr.eval
  by_cases placed : object.isPlace
  · rw [if_pos placed]
    obtain ⟨found, looks, constant⟩ := addressable_isPlace stands.direct placed
    refine .look looks ?_
    cases found with
    | true =>
      exact .assoc (runs_placeValue ((emits_address object).bind fun _ => emits_memberOfPlace _ _ _)
        stands
        low (runs_memberPlace span object field stands (runs_address placed stands)))
    | false =>
      refine .never fun gen type later same done => ?_
      obtain ⟨_, _, one, two⟩ := bind_done.mp done
      obtain ⟨known, rfl, plain⟩ := constant rfl _ _ _ same one
      exact memberOfValue_plain plain two
  · rw [if_neg placed]
    refine .look (fun _ _ => addressable_of_not_isPlace direct placed) ?_
    refine .bind (emits_expr object) (fun _ => emits_memberOfValue _ _ _) runs ?_
    rintro _ value between ⟨rfl, direct, count, stack, quiet⟩
    exact runs_memberOfValue stands.program span field direct count stack quiet

/-- A value is converted to a written type. -/
theorem runs_cast (span : Span) (written : TypeExpr) {value : Expr} (call : Caller)
    (runs : scene.Runs bound shown (expr value) (value.eval scene.context.environment call)
      (scene.Pushes level roof shown shown.stack)) :
    scene.Runs bound shown (expr (.cast span written value))
      ((Expr.cast span written value).eval scene.context.environment call)
      (scene.Pushes level roof shown shown.stack) := by
  unfold expr Expr.eval
  refine .found (fun _ _ _ done => writtenType_found done) ?_
  rintro _ ⟨type, rfl, known⟩
  rw [known]
  refine .bind (emits_expr value) (fun _ => emits_castValue _ _ _) runs ?_
  rintro _ given between ⟨rfl, direct, count, stack, quiet⟩
  exact runs_castValue span direct count stack quiet

/-- The code of a size does what evaluating it says. -/
theorem runs_sizeof (span : Span) (written : TypeExpr) (call : Caller) :
    scene.Runs bound shown (expr (.sizeof span written))
      ((Expr.sizeof span written).eval scene.context.environment call)
      (scene.Pushes level roof shown shown.stack) := by
  unfold expr Expr.eval
  refine .found (fun _ _ _ done => writtenType_found done) ?_
  rintro _ ⟨type, rfl, known⟩
  rw [known]
  have leads : scene.Leads (· = shown) (do
      pushNumber (scene.table.sizeOf type)
      return some ValueType.int) fun found final => found = some ValueType.int ∧
        ∃ a, final = { shown with
          a, stack := [Value.literalWord (scene.table.sizeOf type)] ++ shown.stack } :=
    .bind leads_pushNumber fun _ => .pure fun _ here => ⟨rfl, _, here⟩
  refine .environment (.of_leads leads ?_)
  rintro _ _ ⟨rfl, a, rfl⟩
  exact ⟨_, rfl, rfl, rfl, rfl, rfl, .of_same rfl rfl rfl⟩

/-- A number is negated; a minus before a literal belongs to the literal. -/
theorem runs_minus (span : Span) {operand : Expr} (call : Caller)
    (runs : scene.Runs bound shown (expr operand) (operand.eval scene.context.environment call)
      (scene.Pushes level roof shown shown.stack)) :
    scene.Runs bound shown (expr (.unary span .negate operand))
      ((Expr.unary span .negate operand).eval scene.context.environment call)
      (scene.Pushes level roof shown shown.stack) := by
  have general : scene.Runs bound shown (do negate span (← expr operand)) (do
      Eval.lift (← operand.eval scene.context.environment call).negate)
      (scene.Pushes level roof shown shown.stack) := by
    refine .bind (emits_expr operand) (fun _ => emits_negate _ _) runs ?_
    rintro _ given between ⟨rfl, direct, count, stack, quiet⟩
    exact runs_negate span count stack quiet
  unfold expr Expr.eval
  cases operand with
  | int | float => exact runs_literal rfl
  | _ => exact general

mutual

/-- The code of an expression without pointers does what the evaluation of the expression says. -/
theorem runs_expr (value : Expr) (direct : value.isDirect)
    (answers : scene.site.Answers scene.context.environment bound)
    (shown : Shown) (stands : scene.Stands shown.base level roof) (low : shown.floor ≤ level) :
    scene.Runs bound shown (expr value)
      (value.eval scene.context.environment (scene.context.environment.callWithin bound))
      (scene.Pushes level roof shown shown.stack) := by
  match value with
  | .name span name => exact runs_nameValue span name stands low
  | .int .. | .float .. | .character .. | .bool .. => exact runs_literal rfl
  | .string .. | .null .. | .index .. | .unary _ .address _ | .unary _ .deref _ =>
    exact absurd direct (by simp [Expr.isDirect])
  | .call span name arguments =>
    obtain ⟨native, inner⟩ := Bool.and_eq_true_iff.mp direct
    exact runs_call span name arguments native answers stands low
      fun types counted opened base below =>
      runs_arguments name arguments types inner counted answers opened (base.symm ▸ stands) below
  | .binary span op left right =>
    obtain ⟨first, second⟩ := Bool.and_eq_true_iff.mp direct
    refine .bind (emits_expr left) (fun _ => (emits_expr right).bind fun _ =>
      emits_binaryOperation _ _ _ _) (runs_expr left first answers shown stands low) ?_
    rintro _ low' between ⟨rfl, direct, count, stack, quiet⟩
    refine .bind (emits_expr right) (fun _ => emits_binaryOperation _ _ _ _)
      (runs_expr right second answers between (quiet.stands stands) (quiet.low low)) ?_
    rintro _ high later ⟨rfl, direct', count', stack', quiet'⟩
    exact runs_binaryOperation span op ⟨count, count'⟩ ⟨direct, direct'⟩ (by rw [stack', stack])
      (quiet.trans quiet')
  | .unary span .negate operand =>
    have inner : operand.isDirect := (Bool.and_eq_true_iff.mp direct).2
    exact runs_minus span _ (runs_expr operand inner answers shown stands low)
  | .unary span .not operand =>
    have inner : operand.isDirect := (Bool.and_eq_true_iff.mp direct).2
    refine .bind (emits_expr operand) (fun _ => emits_invert _ _)
      (runs_expr operand inner answers shown stands low) ?_
    rintro _ given between ⟨rfl, direct, count, stack, quiet⟩
    exact runs_invert span count stack quiet
  | .step span op early operand =>
    refine .bind (emits_address operand) (fun _ => emits_stepPlace _ _ _ _)
      (runs_address direct stands) ?_
    rintro _ place between ⟨rfl, ⟨addr, there, stack⟩, quiet⟩
    exact runs_stepPlace span op early (quiet.base.symm ▸ there) (quiet.stands stands)
      (quiet.low low)
      stack quiet
  | .assign span target value =>
    obtain ⟨placed, inner⟩ := Bool.and_eq_true_iff.mp direct
    exact runs_assign value.span placed stands low fun between quiet =>
      runs_expr value inner answers between (quiet.stands stands) (quiet.low low)
  | .member span object field =>
    have inner : object.isDirect := direct
    exact runs_member span field inner stands low _ (runs_expr object inner answers
      shown stands low)
  | .cast span type value =>
    have inner : value.isDirect := (Bool.and_eq_true_iff.mp direct).2
    exact runs_cast span type _ (runs_expr value inner answers shown stands low)
  | .sizeof span type => exact runs_sizeof span type _

/-- The code of arguments does what their evaluation says. -/
theorem runs_arguments (name : Text) (arguments : List Expr) (types : List ValueType)
    (direct : isDirectAll arguments) (counted : arguments.length = types.length)
    (answers : scene.site.Answers scene.context.environment bound)
    (shown : Shown) (stands : scene.Stands shown.base level roof) (low : shown.floor ≤ level) :
    scene.Runs bound shown (callArguments name arguments (types.map some))
      (evalArguments scene.context.environment (scene.context.environment.callWithin bound)
        arguments
        (types.map some)) (scene.Argues level roof shown (types.map some)) := by
  match arguments, types with
  | [], [] => exact .pure ⟨rfl, rfl, fun _ mem => absurd mem List.not_mem_nil, rfl, .refl shown⟩
  | argument :: arguments, type :: types =>
    obtain ⟨first, rest⟩ := Bool.and_eq_true_iff.mp direct
    exact runs_argument name (runs_expr argument first answers shown stands low)
      fun between quiet => runs_arguments name arguments types rest (Nat.succ.inj counted) answers
        between (quiet.stands stands) (quiet.low low)

end

end Scene

end TinLang
