import TinLang.Compile.Statement
import TinLang.Proofs.Generate.Completion
import TinLang.Proofs.Generate.Expression

/-!
# Steps that only emit code

A step of a generator that reports no problem and stores no string is done at once. The steps that
expressions are made of then change nothing but the piece, which they make longer. Every problem
that they report is one of the program, and is counted.
-/
namespace TinLang

variable {cause : ProblemCause} {gen : Generator}

namespace Task

variable {α β : Type}

/-- Every diagnostic of a task shows a problem of the program, and is counted on top of some that
were reported before it, whatever offsets its strings get. -/
def Counts (count : Nat) : Task (α × Generator) → Prop
  | .done result => count ≤ result.2.errors
  | .report diagnostic rest => diagnostic.OfProgram ∧ rest.Counts (count + 1)
  | .intern _ rest => ∀ offset, (rest offset).Counts count

namespace Counts

variable {count fewer : Nat} {task : Task (α × Generator)}

theorem mono (counts : task.Counts count) (less : fewer ≤ count) : task.Counts fewer := by
  induction task generalizing count fewer with
  | done result => exact Nat.le_trans less counts
  | report diagnostic rest ih => exact ⟨counts.1, ih counts.2 (Nat.succ_le_succ less)⟩
  | intern text rest ih => exact fun offset => ih offset (counts offset) less

/-- What follows a task starts with as many problems as were counted. -/
theorem andThen {next : α × Generator → Task (β × Generator)} (counts : task.Counts count)
    (later : ∀ result, count ≤ result.2.errors → (next result).Counts result.2.errors) :
    (task.andThen next).Counts count := by
  induction task generalizing count with
  | done result => exact (later result counts).mono counts
  | report diagnostic rest ih =>
    exact ⟨counts.1, ih counts.2 fun result more => later result (Nat.le_of_succ_le more)⟩
  | intern text rest ih => exact fun offset => ih offset (counts offset) later

end Counts

end Task

theorem Task.andThen_eq_done {α β : Type} {task : Task α} {next : α → Task β} {result : β} :
    task.andThen next = .done result ↔ ∃ value, task = .done value ∧ next value = .done result := by
  cases task <;> simp [andThen]

namespace Generate

variable {α β : Type} {ctx : FunctionContext}

/-- Of two steps that are done both are. -/
theorem bind_done {step : Generate α} {next : α → Generate β}
    {result : β × Generator} : (step >>= next) ctx gen = .done result ↔
      ∃ value between, step ctx gen = .done (value, between) ∧
        next value ctx between = .done result := by
  have unfolded : (step >>= next) ctx gen =
      (step ctx gen).andThen fun found => next found.1 ctx found.2 := rfl
  rw [unfolded, Task.andThen_eq_done]
  exact ⟨fun ⟨⟨value, between⟩, first, second⟩ => ⟨value, between, first, second⟩,
    fun ⟨value, between, first, second⟩ => ⟨(value, between), first, second⟩⟩

theorem pure_done {value : α} {result : α × Generator} :
    (pure value : Generate α) ctx gen = .done result ↔ (value, gen) = result := by
  have unfolded : (pure value : Generate α) ctx gen = .done (value, gen) := rfl
  rw [unfolded, Task.done.injEq]

/-- A step changes nothing but the piece, which it makes longer, as long as it reports nothing, and
counts the problems that it reports. -/
structure Emits (step : Generate α) : Prop where
  finds : ∀ ctx (gen : Generator), gen.piece.barrier ≤ gen.piece.size →
    (step ctx gen).Finds fun result =>
      ∃ piece, result.2 = { gen with piece } ∧ gen.piece.Emitted piece
  counts : ∀ ctx (gen : Generator), (step ctx gen).Counts gen.errors

namespace Emits

/-- What a step that is done has changed. -/
theorem done {step : Generate α} (emits : Emits step) ⦃ctx : FunctionContext⦄
    ⦃gen : Generator⦄ ⦃value : α⦄ ⦃later : Generator⦄
    (finished : step ctx gen = .done (value, later))
    (bounded : gen.piece.barrier ≤ gen.piece.size) :
    ∃ piece, later = { gen with piece } ∧ gen.piece.Emitted piece := by
  have found := emits.finds ctx gen bounded
  rwa [finished] at found

instance (step : Generate α) : CoeFun (Emits step) fun _ =>
    ∀ ⦃ctx gen value later⦄, step ctx gen = .done (value, later) →
      gen.piece.barrier ≤ gen.piece.size →
      ∃ piece, later = { gen with piece } ∧ gen.piece.Emitted piece :=
  ⟨done⟩

/-- A step that looks at the surroundings. -/
theorem look {step : Generate α}
    (same : ∀ ctx gen, ∃ value, step ctx gen = .done (value, gen)) :
    Emits step := by
  refine ⟨fun ctx gen bounded => ?_, fun ctx gen => ?_⟩
  · obtain ⟨value, known⟩ := same ctx gen
    rw [known]
    exact ⟨gen.piece, rfl, .refl bounded⟩
  · obtain ⟨value, known⟩ := same ctx gen
    rw [known]
    exact Nat.le_refl _

theorem pure (value : α) : Emits (pure value : Generate α) :=
  .look fun _ _ => ⟨value, rfl⟩

theorem bind {step : Generate α} {next : α → Generate β} (first : Emits step)
    (second : ∀ value, Emits (next value)) : Emits (step >>= next) := by
  refine ⟨fun ctx gen bounded => ?_, fun ctx gen => ?_⟩
  · refine (first.finds ctx gen bounded).andThen ?_
    rintro ⟨value, between⟩ ⟨piece, rfl, emitted⟩
    refine ((second value).finds ctx _ emitted.bounded).mono ?_
    rintro ⟨found, last⟩ ⟨piece', rfl, more⟩
    exact ⟨piece', rfl, emitted.trans more⟩
  · exact (first.counts ctx gen).andThen fun result _ =>
      (second result.1).counts ctx result.2

theorem ite {test : Prop} [Decidable test] {yes no : Generate α} (first : test → Emits yes)
    (second : ¬ test → Emits no) : Emits (if test then yes else no) := by
  split
  · next holds => exact first holds
  · next fails => exact second fails

theorem change {step : Piece → Piece}
    (emitted : ∀ piece : Piece, piece.barrier ≤ piece.size → piece.Emitted (step piece)) :
    Emits (change step) :=
  ⟨fun _ gen bounded => ⟨step gen.piece, rfl, emitted _ bounded⟩,
    fun _ _ => Nat.le_refl _⟩

end Emits

theorem emits_environment : Emits environment := .look fun ctx _ => ⟨ctx.environment, rfl⟩

theorem emits_report (span : Span) (plain : cause.internal = false) :
    Emits (report span cause) :=
  ⟨fun _ _ _ => trivial, fun _ _ => ⟨⟨_, plain, rfl⟩, Nat.le_refl _⟩⟩

theorem emits_refuse (span : Span) (plain : cause.internal = false) :
    Emits (refuse span cause) :=
  (emits_report span plain).bind fun _ => .pure _

theorem emits_stringOffset (text : Text) : Emits (stringOffset text) :=
  ⟨fun _ gen bounded _ => ⟨gen.piece, rfl, .refl bounded⟩, fun _ _ _ => Nat.le_refl _⟩

theorem emits_emit {op : Opcode} {first second : Register} {modifier : UInt8}
    (push : op ≠ .push) (pop : op ≠ .pop) (other : op ≠ .giveBack) :
    Emits (emit op first second modifier) :=
  .change fun _ bounded => Piece.emitted_emit bounded push pop other

theorem emits_emitNumber {op : Opcode} {first second : Register} {modifier : UInt8} {number : Int}
    (other : op ≠ .giveBack) : Emits (emitNumber op first second modifier number) :=
  .change fun _ bounded => Piece.emitted_emitImmediate bounded _ other

theorem emits_push (reg : Register) : Emits (push reg) :=
  .change fun _ bounded => Piece.emitted_emitPush bounded reg

theorem emits_pop (reg : Register) : Emits (pop reg) :=
  .change fun _ bounded => Piece.emitted_emitPop bounded reg

theorem emits_increase (reg : Register) (number : Int) : Emits (increase reg number) :=
  emits_emitNumber (by decide)

theorem emits_setNumber (reg : Register) (number : Int) : Emits (setNumber reg number) :=
  emits_emitNumber (by decide)

theorem emits_setDataAddress (reg : Register) (offset : Int) :
    Emits (setDataAddress reg offset) :=
  emits_emitNumber (by decide)

theorem emits_pushNumber (number : Int) : Emits (pushNumber number) :=
  (emits_setNumber _ _).bind fun _ => emits_push _

theorem emits_convert (conversion : Conversion) (reg : Register) :
    Emits (convert conversion reg) :=
  emits_emit (by decide) (by decide) (by decide)

theorem emits_pushSlots (base : Register) (slots : List Slot) : Emits (pushSlots base slots) := by
  induction slots with
  | nil => exact .pure _
  | cons slot slots ih =>
    exact (emits_emitNumber (by decide)).bind fun _ => (emits_push _).bind fun _ => ih

theorem emits_popSlots (base : Register) (slots : List Slot) : Emits (popSlots base slots) := by
  induction slots with
  | nil => exact .pure _
  | cons slot slots ih =>
    exact (emits_pop _).bind fun _ => (emits_emitNumber (by decide)).bind fun _ => ih

theorem emits_pushFrom (base : Register) (offset : Int) (type : Option ValueType) :
    Emits (pushFrom base offset type) :=
  emits_environment.bind fun _ => emits_pushSlots _ _

theorem emits_popTo (base : Register) (offset : Int) (type : Option ValueType) :
    Emits (popTo base offset type) :=
  emits_environment.bind fun _ => emits_popSlots _ _

theorem emits_discard (type : Option ValueType) : Emits (discard type) := by
  refine emits_environment.bind fun _ => ?_
  split
  · exact .pure _
  · exact emits_pop _
  · exact emits_increase _ _

theorem emits_discardWord : Emits discardWord := emits_pop _

theorem emits_coerce (given wanted : Option ValueType) : Emits (coerce given wanted) :=
  .ite (fun _ => (emits_pop _).bind fun _ => (emits_convert _ _).bind fun _ =>
    (emits_push _).bind fun _ => .pure _) fun _ => .pure _

theorem emits_fits (span : Span) (wanted given : Option ValueType) (use : Use) :
    Emits (fits span wanted given use) := by
  unfold fits
  split
  · exact .ite (fun _ => .pure _) fun _ => (emits_report _ rfl).bind fun _ => .pure _
  · exact .pure _

/-- Only an integer where a floating-point number is wanted changes its type. -/
theorem coerce_done {given wanted result : Option ValueType} {ctx : FunctionContext}
    {later : Generator}
    (done : coerce given wanted ctx gen = .done (result, later)) :
    (given = some .int ∧ wanted = some .float) ∧ result = some .float ∨
      ¬ (given = some .int ∧ wanted = some .float) ∧ result = given ∧ later = gen := by
  by_cases widens : given = some .int ∧ wanted = some .float
  · rw [coerce, if_pos widens] at done
    obtain ⟨_, _, -, done⟩ := bind_done.mp done
    obtain ⟨_, _, -, done⟩ := bind_done.mp done
    obtain ⟨_, _, -, done⟩ := bind_done.mp done
    exact .inl ⟨widens, (Prod.mk.inj (pure_done.mp done)).1.symm⟩
  · rw [coerce, if_neg widens] at done
    obtain ⟨rfl, rfl⟩ := Prod.mk.inj (pure_done.mp done)
    exact .inr ⟨widens, rfl, rfl⟩

/-- A value that does not fit is reported. -/
theorem fits_done {span : Span} {place value : ValueType} {use : Use} {fitting : Bool}
    {ctx : FunctionContext} {later : Generator}
    (done : fits span (some place) (some value) use ctx gen = .done (fitting, later)) :
    fitting = true ∧ place.accepts value = true ∧ later = gen := by
  unfold fits at done
  dsimp only at done
  split at done
  · next accepts =>
    obtain ⟨rfl, rfl⟩ := Prod.mk.inj (pure_done.mp done)
    exact ⟨rfl, accepts, rfl⟩
  · obtain ⟨_, _, reported, -⟩ := bind_done.mp done
    cases reported

/-- What a name stands for in some scopes of a program. -/
def meaningIn (env : Environment) (scopes : List Scope) (name : Text) : Meaning :=
  match scopes.findSome? fun (scope : Scope) => scope.lookup name with
  | some (.variable type offset) => .variable type offset
  | some (.constant value) => .constant value
  | none =>
    match env.global? name, env.constant? name with
    | some place, _ => .global place
    | none, some value => .constant value
    | none, none => .undefined

theorem meaning_eq (name : Text) (ctx : FunctionContext) (gen : Generator) :
    meaning name ctx gen =
      .done (meaningIn ctx.environment gen.scopes name, gen) := by
  have unfolded : meaning name ctx gen =
      (match gen.scopes.findSome? fun (scope : Scope) => scope.lookup name with
        | some (.variable type offset) => (pure (.variable type offset) : Generate Meaning)
        | some (.constant value) => pure (.constant value)
        | none => do
          let env ← environment
          match env.global? name, env.constant? name with
          | some place, _ => return .global place
          | none, some value => return .constant value
          | none, none => return .undefined) ctx gen := rfl
  rw [unfolded, meaningIn]
  cases gen.scopes.findSome? fun (scope : Scope) => scope.lookup name with
  | some found => cases found <;> rfl
  | none =>
    dsimp only
    rw [bind_done]
    refine ⟨ctx.environment, gen, rfl, ?_⟩
    cases ctx.environment.global? name with
    | some place => rfl
    | none => cases ctx.environment.constant? name <;> rfl

theorem emits_meaning (name : Text) : Emits (meaning name) :=
  .look fun ctx gen => ⟨_, meaning_eq name ctx gen⟩

theorem emits_literal (expr : Expr) : Emits (literal expr) := by
  have number : ∀ (value : Int) (type : Option ValueType),
      Emits (do pushNumber value; return type) :=
    fun value type => (emits_pushNumber value).bind fun _ => .pure _
  unfold literal
  split
  case h_3 =>
    exact (emits_stringOffset _).bind fun _ => (emits_setDataAddress _ _).bind fun _ =>
      (emits_push _).bind fun _ => .pure _
  case h_9 => exact .pure _
  all_goals exact number _ _

theorem emits_constantValue (constant : Constant) : Emits (constantValue constant) :=
  (emits_literal _).bind fun _ => emits_coerce _ _

theorem emits_nameValue (span : Span) (name : Text) : Emits (nameValue span name) := by
  refine (emits_meaning name).bind fun meaning => ?_
  split
  · exact emits_constantValue _
  · exact (emits_pushFrom _ _ _).bind fun _ => .pure _
  · exact (emits_setDataAddress _ _).bind fun _ => (emits_pushFrom _ _ _).bind fun _ => .pure _
  · exact emits_refuse _ rfl

theorem emits_nameAddress (span : Span) (name : Text) : Emits (nameAddress span name) := by
  refine (emits_meaning name).bind fun meaning => ?_
  split
  · exact emits_refuse _ rfl
  · exact (emits_emit (by decide) (by decide) (by decide)).bind fun _ =>
      (emits_increase _ _).bind fun _ => (emits_push _).bind fun _ => .pure _
  · exact (emits_setDataAddress _ _).bind fun _ => (emits_push _).bind fun _ => .pure _
  · exact emits_refuse _ rfl

theorem emits_addressable (expr : Expr) : Emits (addressable expr) := by
  fun_induction addressable expr with
  | case1 span name =>
    refine (emits_meaning name).bind fun meaning => ?_
    split <;> exact .pure _
  | case2 _ _ _ ih => exact ih
  | case3 | case4 | case5 => exact .pure _

theorem emits_loadValue (type : Option ValueType) : Emits (loadValue type) := by
  unfold loadValue
  exact .ite (fun _ => (emits_pop _).bind fun _ => (emits_pushFrom _ _ _).bind fun _ => .pure _)
    fun _ => .pure _

theorem emits_drop (span : Span) (plain : cause.internal = false)
    (type : Option ValueType) {value : Option ValueType} :
    Emits (do report span cause; discard type; return value) :=
  (emits_report _ plain).bind fun _ => (emits_discard _).bind fun _ => .pure _

theorem emits_dropWord (span : Span) (plain : cause.internal = false)
    {value : Option ValueType} : Emits (do report span cause; discardWord; return value) :=
  (emits_report _ plain).bind fun _ => emits_discardWord.bind fun _ => .pure _

theorem emits_memberAddress (span : Span) (name : Text) (object : Option ValueType) :
    Emits (memberAddress span name object) := by
  unfold memberAddress
  split
  · exact .pure _
  · split
    · exact emits_dropWord _ rfl
    · refine emits_environment.bind fun _ => ?_
      split
      · exact emits_dropWord _ rfl
      · exact .ite (fun _ => (emits_pop _).bind fun _ => (emits_increase _ _).bind fun _ =>
          (emits_push _).bind fun _ => .pure _) fun _ => .pure _

theorem emits_memberOfPlace (span : Span) (name : Text) (object : Option ValueType) :
    Emits (memberOfPlace span name object) := by
  unfold memberOfPlace
  split
  · exact (emits_pop _).bind fun _ => (emits_emitNumber (by decide)).bind fun _ =>
      (emits_push _).bind fun _ => emits_memberAddress _ _ _
  · exact emits_memberAddress _ _ _

theorem emits_memberOfPointer (span : Span) (name : Text) (object : Option ValueType) :
    Emits (memberOfPointer span name object) := by
  unfold memberOfPointer
  split
  · exact .pure _
  · split
    · exact emits_memberAddress _ _ _
    · exact emits_drop _ rfl _
    · exact emits_drop _ rfl _

theorem emits_copyLeaves (total first : Nat) (indices : List Nat) :
    Emits (copyLeaves total first indices) := by
  induction indices with
  | nil => exact .pure _
  | cons index indices ih =>
    exact .ite (fun _ => (emits_emitNumber (by decide)).bind fun _ =>
      (emits_emitNumber (by decide)).bind fun _ => ih) fun _ => ih

theorem emits_extractMember (struct : StructType) (mem : Member) :
    Emits (extractMember struct mem) :=
  (emits_copyLeaves _ _ _).bind fun _ => .ite (fun _ => emits_increase _ _) fun _ => .pure _

theorem emits_memberOfValue (span : Span) (name : Text) (object : Option ValueType) :
    Emits (memberOfValue span name object) := by
  refine emits_environment.bind fun _ => ?_
  dsimp only
  split
  · exact .pure _
  · split
    · split
      · exact emits_dropWord _ rfl
      · exact (emits_pop _).bind fun _ => (emits_pushFrom _ _ _).bind fun _ => .pure _
    · split
      · exact emits_drop _ rfl _
      · exact (emits_extractMember _ _).bind fun _ => .pure _
    · exact emits_drop _ rfl _

theorem emits_elementAddress (objectSpan indexSpan : Span) (object index : Option ValueType) :
    Emits (elementAddress objectSpan indexSpan object index) := by
  have refused : ∀ span {cause : ProblemCause}, cause.internal = false → Emits (do
      report span cause; discard index; discard object; return (none : Option ValueType)) :=
    fun span _ plain => (emits_report span plain).bind fun _ => (emits_discard _).bind fun _ =>
      (emits_discard _).bind fun _ => .pure _
  unfold elementAddress
  split
  · refine .ite (fun _ => refused _ rfl) fun _ => .ite (fun _ => refused _ rfl) fun _ => ?_
    exact (emits_pop _).bind fun _ => (emits_pop _).bind fun _ => emits_environment.bind fun _ =>
      (emits_setNumber _ _).bind fun _ => (emits_emit (by decide) (by decide) (by decide)).bind
        fun _ => (emits_emit (by decide) (by decide) (by decide)).bind fun _ =>
        (emits_push _).bind fun _ => .pure _
  · exact (emits_discard _).bind fun _ => (emits_discard _).bind fun _ => .pure _

theorem emits_pointed (span : Span) (pointer : Option ValueType) :
    Emits (pointed span pointer) := by
  unfold pointed
  split
  · exact .pure _
  · exact .ite (fun _ => emits_drop _ rfl _) fun _ => .pure _

theorem emits_storeValue (span : Span) (place value : Option ValueType) :
    Emits (storeValue span place value) := by
  unfold storeValue
  split
  · refine (emits_fits _ _ _ _).bind fun fitting => .ite (fun _ => ?_) fun _ => ?_
    · split
      · exact (emits_pop _).bind fun _ => (emits_pop _).bind fun _ =>
          emits_environment.bind fun _ => (emits_emit (by decide) (by decide) (by decide)).bind
            fun _ => (emits_push _).bind fun _ => .pure _
      · exact emits_environment.bind fun _ => (emits_emitNumber (by decide)).bind fun _ =>
          (emits_popTo _ _ _).bind fun _ => (emits_pop _).bind fun _ =>
          (emits_pushFrom _ _ _).bind fun _ => .pure _
    · exact (emits_discard _).bind fun _ => emits_discardWord.bind fun _ => .pure _
  · exact (emits_discard _).bind fun _ => .ite (fun _ => emits_discardWord.bind fun _ => .pure _)
      fun _ => .pure _

theorem emits_callee? (span : Span) (name : Text) : Emits (callee? span name) := by
  refine emits_environment.bind fun env => ?_
  split
  · exact .pure _
  · exact .ite (fun _ => (emits_report _ rfl).bind fun _ => .pure _) fun _ => .pure _
  · exact (emits_report _ rfl).bind fun _ => .pure _

theorem emits_popArguments (distance : Int) (arguments : List (Option ValueType × Nat)) :
    Emits (popArguments distance arguments) := by
  induction arguments with
  | nil => exact .pure _
  | cons argument arguments ih => exact (emits_popTo _ _ _).bind fun _ => ih

theorem emits_reserveCall (callee : Callee) : Emits (reserveCall callee) :=
  emits_environment.bind fun _ => .ite (fun _ => emits_increase _ _) fun _ => .pure _

theorem emits_callNative (native : Native) : Emits (change (·.emitNativeCall native.id)) :=
  .change fun _ bounded => Piece.emitted_emitImmediate bounded _ (by simp)

theorem emits_callFunction (index : Nat) : Emits (change (·.emitCall (some index))) :=
  .change fun _ bounded => Piece.emitted_emitCall bounded (some index)

theorem emits_finishCall (callee : Callee) (pushed : Nat) (fitting : Bool) :
    Emits (finishCall callee pushed fitting) := by
  have release : ∀ (size : Nat) (result : Option ValueType), Emits (do
      if 0 < size then increase .stackPointer size
      return result) :=
    fun size result => .ite (fun _ => (emits_increase _ _).bind fun _ => .pure _) fun _ => .pure _
  unfold finishCall
  refine .ite (fun _ => ?_) fun _ => emits_environment.bind fun _ => release _ _
  cases callee.target with
  | inl native =>
    have call := (emits_callNative native).bind fun _ => release callee.block callee.result
    exact .ite (fun _ => (emits_emit (by decide) (by decide) (by decide)).bind fun _ =>
      (emits_popArguments _ _).bind fun _ => call) fun _ => call
  | inr index =>
    have call := (emits_callFunction index).bind fun _ => release callee.block callee.result
    exact .ite (fun _ => (emits_emit (by decide) (by decide) (by decide)).bind fun _ =>
      (emits_popArguments _ _).bind fun _ => call) fun _ => call

theorem emits_emitOperation (op : BinaryOp) (first second : Register) (modifier : UInt8) :
    Emits (emit (operation op).1 first second modifier) :=
  emits_emit (by cases op <;> decide) (by cases op <;> decide) (by cases op <;> decide)

theorem emits_pointerOperation (span : Span) (op : BinaryOp) (left right : ValueType) :
    Emits (pointerOperation span op left right) :=
  .ite (fun _ => (emits_emitOperation _ _ _ _).bind fun _ => (emits_push _).bind fun _ => .pure _)
    fun _ => .ite (fun _ => emits_environment.bind fun _ => (emits_setNumber _ _).bind fun _ =>
      (emits_emit (by decide) (by decide) (by decide)).bind fun _ =>
      (emits_emitOperation _ _ _ _).bind fun _ => (emits_push _).bind fun _ => .pure _)
    fun _ => emits_refuse _ rfl

theorem emits_numberOperation (op : BinaryOp) (left right : ValueType) :
    Emits (numberOperation op left right) := by
  have finish : ∀ (control : Control) (result : ValueType), Emits (do
      emit (operation op).1 .a .d control.code
      push .a
      return some (if (operation op).2 then .bool else result)) :=
    fun control result => (emits_emitOperation _ _ _ _).bind fun _ => (emits_push _).bind
      fun _ => .pure _
  unfold numberOperation
  refine .ite (fun _ => ?_) fun _ => .ite (fun _ => finish _ _) fun _ => finish _ _
  have second : Emits (do
      if right ≠ .float then convert .intToSingle .d
      emit (operation op).1 .a .d Control.single.code
      push .a
      return some (if (operation op).2 then ValueType.bool else .float)) :=
    .ite (fun _ => (emits_convert _ _).bind fun _ => finish _ _) fun _ => finish _ _
  exact .ite (fun _ => (emits_convert _ _).bind fun _ => second) fun _ => second

theorem emits_binaryOperation (span : Span) (op : BinaryOp) (left right : Option ValueType) :
    Emits (binaryOperation span op left right) := by
  unfold binaryOperation
  split
  · refine emits_environment.bind fun _ => .ite (fun _ => ?_) fun _ => ?_
    · exact (emits_report _ rfl).bind fun _ => (emits_discard _).bind fun _ =>
        (emits_discard _).bind fun _ => .pure _
    · exact (emits_pop _).bind fun _ => (emits_pop _).bind fun _ =>
        .ite (fun _ => emits_pointerOperation _ _ _ _) fun _ =>
        .ite (fun _ => emits_numberOperation _ _ _) fun _ => emits_refuse _ rfl
  · exact (emits_discard _).bind fun _ => (emits_discard _).bind fun _ => .pure _

theorem emits_negate (span : Span) (operand : Option ValueType) : Emits (negate span operand) := by
  unfold negate
  split
  · exact .pure _
  · dsimp only
    split
    · exact emits_drop _ rfl _
    · exact (emits_pop _).bind fun _ => (emits_setNumber _ _).bind fun _ =>
        (emits_emit (by decide) (by decide) (by decide)).bind fun _ => (emits_push _).bind
          fun _ => .pure _

theorem emits_not (first second : Register) : Emits (emit .not first second) :=
  emits_emit (by decide) (by decide) (by decide)

theorem emits_invert (span : Span) (operand : Option ValueType) : Emits (invert span operand) := by
  unfold invert
  split
  · exact .pure _
  · exact emits_environment.bind fun _ => .ite (fun _ => emits_drop _ rfl _) fun _ =>
      (emits_pop _).bind fun _ => (emits_not _ _).bind fun _ => (emits_push _).bind fun _ => .pure _

theorem emits_stepPlace (span : Span) (op : StepOp) (early : Bool) (place : Option ValueType) :
    Emits (stepPlace span op early place) := by
  unfold stepPlace
  split
  · exact .pure _
  · next type =>
    refine .ite (fun _ => emits_environment.bind fun _ => ?_) fun _ => emits_dropWord _ rfl
    have finish : ∀ (distance : Int) (size : UInt8), Emits (do
        increase .a distance
        emit .store .b .a size
        if early then push .a
        return some type) := fun distance size => (emits_increase _ _).bind fun _ =>
      (emits_emit (by decide) (by decide) (by decide)).bind fun _ =>
      .ite (fun _ => (emits_push _).bind fun _ => .pure _) fun _ => .pure _
    exact (emits_pop _).bind fun _ => (emits_emit (by decide) (by decide) (by decide)).bind
      fun _ => .ite (fun _ => (emits_push _).bind fun _ => finish _ _) fun _ => finish _ _

theorem emits_castValue (span : Span) (type : ValueType) (value : Option ValueType) :
    Emits (castValue span type value) := by
  have converted : ∀ conversion : Conversion, Emits (do
      pop .a
      convert conversion .a
      push .a
      return some type) := fun conversion => (emits_pop _).bind fun _ =>
    (emits_convert _ _).bind fun _ => (emits_push _).bind fun _ => .pure _
  unfold castValue
  split
  · exact .pure _
  · refine .ite (fun _ => .pure _) fun _ => .ite (fun _ => .pure _) fun _ =>
      .ite (fun _ => .ite (fun _ => ?_) fun _ => .pure _) fun _ =>
      .ite (fun _ => converted _) fun _ => .ite (fun _ => converted _) fun _ => emits_drop _ rfl _
    exact (emits_pop _).bind fun _ => (emits_not _ _).bind fun _ => (emits_not _ _).bind fun _ =>
      (emits_push _).bind fun _ => .pure _

theorem emits_writtenType (type : TypeExpr) : Emits (writtenType type) := by
  refine emits_environment.bind fun _ => ?_
  split
  · exact .pure _
  · exact emits_refuse _ rfl

mutual

/-- The code of an expression is put behind the code before it. -/
theorem emits_expr (value : Expr) : Emits (expr value) := by
  cases value with
  | name span name => exact emits_nameValue _ _
  | call span name arguments =>
    unfold expr
    refine (emits_callee? span name).bind fun found => ?_
    split
    · exact .pure _
    · exact .ite (fun _ => emits_refuse _ rfl) fun _ => (emits_reserveCall _).bind fun _ =>
        (emits_callArguments name arguments _).bind fun _ => emits_finishCall _ _ _
  | binary span op left right =>
    unfold expr
    exact (emits_expr left).bind fun _ => (emits_expr right).bind fun _ =>
      emits_binaryOperation _ _ _ _
  | unary span op operand =>
    cases op with
    | negate =>
      have general : Emits (do negate span (← expr operand)) :=
        (emits_expr operand).bind fun _ => emits_negate _ _
      cases operand with
      | int | float =>
        unfold expr
        exact emits_literal _
      | _ =>
        unfold expr
        exact general
    | not =>
      unfold expr
      exact (emits_expr operand).bind fun _ => emits_invert _ _
    | address =>
      unfold expr
      exact (emits_address operand).bind fun _ => .pure _
    | deref =>
      unfold expr
      exact (emits_expr operand).bind fun _ => (emits_pointed _ _).bind fun _ => emits_loadValue _
  | step span op early operand =>
    unfold expr
    exact (emits_address operand).bind fun _ => emits_stepPlace _ _ _ _
  | assign span target value =>
    unfold expr
    exact (emits_address target).bind fun _ => (emits_expr value).bind fun _ =>
      (emits_coerce _ _).bind fun _ => emits_storeValue _ _ _
  | member span object name =>
    unfold expr
    refine (emits_addressable object).bind fun _ => .ite (fun _ => ?_) fun _ => ?_
    · exact (emits_address object).bind fun _ => (emits_memberOfPlace _ _ _).bind fun _ =>
        emits_loadValue _
    · exact (emits_expr object).bind fun _ => emits_memberOfValue _ _ _
  | index span object position =>
    unfold expr
    exact (emits_expr object).bind fun _ => (emits_expr position).bind fun _ =>
      (emits_elementAddress _ _ _ _).bind fun _ => emits_loadValue _
  | cast span type value =>
    unfold expr
    refine (emits_writtenType type).bind fun found => ?_
    split
    · exact (emits_expr value).bind fun _ => (emits_discard _).bind fun _ => .pure _
    · exact (emits_expr value).bind fun _ => emits_castValue _ _ _
  | sizeof span type =>
    unfold expr
    refine (emits_writtenType type).bind fun found => ?_
    split
    · exact .pure _
    · exact emits_environment.bind fun _ => (emits_pushNumber _).bind fun _ => .pure _
  | int | float | string | character | bool | null => exact emits_literal _

theorem emits_callArguments (name : Text) (arguments : List Expr)
    (types : List (Option ValueType)) : Emits (callArguments name arguments types) := by
  cases arguments with
  | nil => exact .pure _
  | cons argument arguments =>
    cases types with
    | nil => exact .pure _
    | cons type types =>
      unfold callArguments
      exact (emits_expr argument).bind fun _ => (emits_coerce _ _).bind fun _ =>
        emits_environment.bind fun _ => (emits_fits _ _ _ _).bind fun _ =>
        (emits_callArguments name arguments types).bind fun _ => .pure _

theorem emits_address (value : Expr) : Emits (address value) := by
  cases value with
  | name span name => exact emits_nameAddress _ _
  | member span object name =>
    unfold address
    refine (emits_addressable object).bind fun _ => .ite (fun _ => ?_) fun _ => ?_
    · exact (emits_address object).bind fun _ => emits_memberOfPlace _ _ _
    · exact (emits_expr object).bind fun _ => emits_memberOfPointer _ _ _
  | index span object position =>
    unfold address
    exact (emits_expr object).bind fun _ => (emits_expr position).bind fun _ =>
      emits_elementAddress _ _ _ _
  | unary span op operand =>
    cases op with
    | deref =>
      unfold address
      exact (emits_expr operand).bind fun _ => emits_pointed _ _
    | _ => exact emits_refuse _ rfl
  | _ => exact emits_refuse _ rfl

end

theorem emits_condition (test : Expr) : Emits (condition test) := by
  refine (emits_expr test).bind fun type => ?_
  split
  · exact emits_setNumber _ _
  · exact emits_environment.bind fun _ => .ite (fun _ => (emits_report _ rfl).bind fun _ =>
      (emits_discard _).bind fun _ => emits_setNumber _ _) fun _ => emits_pop _

theorem emits_clearLocal (offset : Int) (size : Nat) : Emits (clearLocal offset size) :=
  (emits_emit (by decide) (by decide) (by decide)).bind fun _ => (emits_increase _ _).bind
    fun _ => (emits_setNumber _ _).bind fun _ => emits_emit (by decide) (by decide) (by decide)

theorem emits_popResult (block : Nat) (indices : List Nat) : Emits (popResult block indices) := by
  induction indices with
  | nil => exact .pure _
  | cons index indices ih =>
    exact (emits_pop _).bind fun _ => (emits_emitNumber (by decide)).bind fun _ => ih

end Generate

end TinLang
