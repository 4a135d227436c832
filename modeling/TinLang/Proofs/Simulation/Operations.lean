import TinLang.Proofs.Simulation.Variables

/-!
# Code of operators

The code of an operator pops its operands, combines them and pushes the result, as an evaluation
combines their values; a division by zero faults where the evaluation stops.
-/
namespace TinLang

/-- The machine combines two words as an evaluation does: into a word of a type, or not at all. -/
inductive Arithmetic.Agrees (type : ValueType) : Except FaultCause Word →
    Except Stop Value → Prop where
  | word (word : Word) : Agrees type (.ok word) (.ok ⟨type, [word]⟩)
  | divided : Agrees type (.error .division) (.error .divided)

namespace Generate

/-- The type of what an operator gives. -/
def resultOf (op : BinaryOp) (type : ValueType) : ValueType :=
  if (operation op).2 then .bool else type

theorem agrees_singles (op : BinaryOp) (first second : Word) :
    Arithmetic.Agrees (resultOf op .float)
      (Arithmetic.apply (operation op).1 Control.single.code first second)
      (.ok (Value.ofSingles op (Arithmetic.toSingle first) (Arithmetic.toSingle second))) := by
  unfold Arithmetic.apply
  rw [Control.ofCode?_code]
  cases op <;> exact .word _

theorem agrees_bytes (op : BinaryOp) (type : ValueType) (first second : Word) :
    Arithmetic.Agrees (resultOf op type)
      (Arithmetic.apply (operation op).1 Control.byte.code first second)
      (Value.ofBytes op type (first.setWidth 8) (second.setWidth 8)) := by
  unfold Arithmetic.apply
  rw [Control.ofCode?_code]
  cases op with
  | div =>
    by_cases zero : second.setWidth 8 = 0
    · simp only [operation, Arithmetic.signed, Value.ofBytes, BinaryOp.integers, if_pos zero]
      exact .divided
    · simp only [operation, Arithmetic.signed, Value.ofBytes, BinaryOp.integers, if_neg zero]
      exact .word _
  | _ => exact .word _

theorem agrees_words (op : BinaryOp) (first second : Word) :
    Arithmetic.Agrees (resultOf op .int)
      (Arithmetic.apply (operation op).1 Control.word.code first second)
      (Value.ofWords op first second) := by
  unfold Arithmetic.apply
  rw [Control.ofCode?_code]
  cases op with
  | div =>
    by_cases zero : second = 0
    · simp only [operation, Arithmetic.signed, Value.ofWords, BinaryOp.integers, if_pos zero]
      exact .divided
    · simp only [operation, Arithmetic.signed, Value.ofWords, BinaryOp.integers, if_neg zero]
      exact .word _
  | _ => exact .word _

end Generate

namespace Scene

open Generate

variable {scene : Scene} {before shown : Shown} {bound level roof : Nat} {rest : List Word}

/-- The type has one scalar, which is no pointer. -/
def Scalar (scene : Scene) (type : ValueType) : Prop :=
  type.pointer = 0 ∧ scene.table.leavesOf type = 1

theorem scalar_of_isNumeric {type : ValueType} (numeric : type.isNumeric) : scene.Scalar type := by
  refine ⟨?_, StructTable.leavesOf_of_isNumeric numeric⟩
  simp only [ValueType.isNumeric, ValueType.isIntegral, Bool.or_eq_true,
    decide_eq_true_eq] at numeric
  rcases numeric with (rfl | rfl | rfl) | rfl <;> rfl

/-- The word of a value is pushed. -/
theorem runs_push {type : ValueType} {word : Word} (scalar : scene.Scalar type)
    (reg : shown.a = word) (stack : shown.stack = rest)
    (quiet : Quiet level roof before shown) :
    scene.Runs bound shown (do
      push .a
      return some type) (pure ⟨type, [word]⟩) (scene.Pushes level roof before rest) := by
  have leads : scene.Leads (· = shown) (do
      push .a
      return some type) fun found final => found = some type ∧
        final = { shown with stack := shown.a :: shown.stack } :=
    .bind (leads_push rfl) fun _ => .pure fun _ same => ⟨rfl, same⟩
  refine .of_leads leads ?_
  rintro _ _ ⟨rfl, rfl⟩
  refine ⟨_, rfl, rfl, scalar.1, scalar.2.symm, ?_, quiet.trans (.of_same rfl rfl rfl)⟩
  rw [reg, stack]
  rfl

/-- Registers A and D are combined, and the result is pushed. -/
theorem runs_combine {op : Opcode} {control : Control} {type : ValueType}
    {result : Except Stop Value} (operation : op ∈ Site.Plain.operations)
    (agrees : Arithmetic.Agrees type (Arithmetic.apply op control.code shown.a shown.d) result)
    (scalar : scene.Scalar type) (stack : shown.stack = rest)
    (quiet : Quiet level roof before shown) :
    scene.Runs bound shown (do
      emit op .a .d control.code
      push .a
      return some type) (Eval.lift result) (scene.Pushes level roof before rest) := by
  have plain := (Site.Plain.plain_of_mem_operations operation).2
  generalize applied : Arithmetic.apply op control.code shown.a shown.d = outcome at agrees
  cases agrees with
  | word word =>
    refine .lead (fun _ => (emits_push _).bind fun _ => .pure _)
      (leads_emit plain fun _ _ here reached => reached.comes_operation operation
        here rfl rfl applied) ?_
    rintro _ _ rfl
    exact ⟨rfl, runs_push scalar rfl stack (quiet.trans (.of_same rfl rfl rfl))⟩
  | divided =>
    intro gen value later done scopes complete machine shows
    obtain ⟨_, between, one, two⟩ := bind_done.mp done
    obtain ⟨-, rfl⟩ := Prod.mk.inj (Task.done.inj one)
    obtain ⟨_, rfl, further⟩ := ((emits_push .a).bind fun _ => .pure (some type)) two
      (Piece.grows_emit shows.bounded _).bounded
    obtain ⟨here, -, start⟩ := shows.comes_at (further.completes complete) plain.1 plain.2.1
    exact start.mono fun last reached =>
      ⟨reached.divides_operation operation here rfl rfl applied rfl, reached.output⟩

theorem scalar_resultOf (op : BinaryOp) {type : ValueType} (numeric : type.isNumeric) :
    scene.Scalar (resultOf op type) := by
  unfold resultOf
  split
  · exact scalar_of_isNumeric rfl
  · exact scalar_of_isNumeric numeric

/-- Convert the second operand to a single-precision number, and combine it with the first. -/
def floating (op : BinaryOp) (type : ValueType) : Generate (Option ValueType) := do
  if type ≠ .float then convert .intToSingle .d
  emit (operation op).1 .a .d Control.single.code
  push .a
  return some (resultOf op .float)

theorem emits_floating (op : BinaryOp) (type : ValueType) : Emits (floating op type) :=
  .ite (fun _ => (emits_convert _ _).bind fun _ => (emits_emitOperation _ _ _ _).bind fun _ =>
    (emits_push _).bind fun _ => .pure _) fun _ => (emits_emitOperation _ _ _ _).bind fun _ =>
    (emits_push _).bind fun _ => .pure _

theorem runs_floating (op : BinaryOp) {type : ValueType} {second : Word} {number : Float32}
    (operand : shown.d = second) (first : Arithmetic.toSingle shown.a = number)
    (stack : shown.stack = rest) (quiet : Quiet level roof before shown) :
    scene.Runs bound shown (floating op type)
      (Eval.lift (.ok (Value.ofSingles op number (Value.single type second))))
      (scene.Pushes level roof before rest) := by
  subst operand first
  refine .ite (fun other => ?_) fun same => ?_
  · refine .lead (fun _ => (emits_emitOperation _ _ _ _).bind fun _ =>
      (emits_push _).bind fun _ => .pure _) (leads_convert _ rfl) ?_
    rintro _ _ rfl
    rw [Value.single, if_neg other]
    exact ⟨rfl, runs_combine (operation_mem op) (agrees_singles op _ _) (scalar_resultOf op rfl)
      stack
      (quiet.trans (.of_same rfl rfl rfl))⟩
  · rw [Value.single, if_pos (Decidable.not_not.mp same)]
    exact runs_combine (operation_mem op) (agrees_singles op _ _) (scalar_resultOf op rfl) stack
      quiet

theorem runs_numberOperation (op : BinaryOp) {left right : Value} {first second : Word}
    (one : left.words = [first]) (two : right.words = [second])
    (registers : shown.a = first ∧ shown.d = second) (stack : shown.stack = rest)
    (quiet : Quiet level roof before shown) (numeric : left.type.isNumeric) :
    scene.Runs bound shown (numberOperation op left.type right.type)
      (Eval.lift (Value.combine op left right)) (scene.Pushes level roof before rest) := by
  obtain ⟨rfl, rfl⟩ := registers
  unfold numberOperation Value.combine
  rw [one, two]
  dsimp only
  refine .ite (fun floating => ?_) fun whole => .ite (fun bytes => ?_) fun words => ?_
  · rw [if_pos floating]
    refine .ite (fun other => ?_) fun same => ?_
    · refine .lead (fun _ => emits_floating op right.type) (leads_convert _ rfl) ?_
      rintro _ _ rfl
      refine ⟨rfl, runs_floating op rfl ?_ stack (quiet.trans (.of_same rfl rfl rfl))⟩
      rw [Value.single, if_neg other]
      rfl
    · refine runs_floating op rfl ?_ stack quiet
      rw [Value.single, if_pos (Decidable.not_not.mp same)]
  · rw [if_neg whole, if_pos bytes]
    exact runs_combine (operation_mem op) (agrees_bytes op left.type _ _)
      (scalar_resultOf op numeric)
      stack quiet
  · rw [if_neg whole, if_neg words]
    exact runs_combine (operation_mem op) (agrees_words op _ _) (scalar_resultOf op rfl) stack quiet

/-- A value of one scalar has one word. -/
theorem exists_word {value : Value} (count : value.words.length = scene.table.leavesOf value.type)
    (one : scene.table.leavesOf value.type = 1) : ∃ word, value.words = [word] :=
  List.length_eq_one_iff.mp (count.trans one)

/-- Without pointers no operand is one. -/
theorem not_isPointer {type : ValueType} (direct : type.pointer = 0) : type.isPointer = false := by
  rw [ValueType.isPointer, direct]
  rfl

theorem runs_binaryOperation (span : Span) (op : BinaryOp) {left right : Value}
    (counts : left.words.length = scene.table.leavesOf left.type ∧
      right.words.length = scene.table.leavesOf right.type)
    (direct : left.type.pointer = 0 ∧ right.type.pointer = 0)
    (stack : shown.stack = right.words.reverse ++ (left.words.reverse ++ rest))
    (quiet : Quiet level roof before shown) :
    scene.Runs bound shown (binaryOperation span op (some left.type) (some right.type))
      (Eval.lift (Value.combine op left right)) (scene.Pushes level roof before rest) := by
  refine .environment (.ite (fun _ => .reported) fun single => ?_)
  obtain ⟨first, second⟩ := not_or.mp single
  obtain ⟨one, words⟩ := exists_word counts.1 (Decidable.not_not.mp first)
  obtain ⟨two, words'⟩ := exists_word counts.2 (Decidable.not_not.mp second)
  rw [words, words'] at stack
  have emits : Emits (if left.type.isPointer || right.type.isPointer then
        pointerOperation span op left.type right.type
      else if left.type.isNumeric && right.type.isNumeric then
        numberOperation op left.type right.type
      else refuse span (.operands left.type right.type op)) :=
    .ite (fun _ => emits_pointerOperation _ _ _ _) fun _ =>
      .ite (fun _ => emits_numberOperation _ _ _) fun _ => emits_refuse _ rfl
  refine .lead (fun _ => (emits_pop _).bind fun _ => emits) (leads_pop rfl stack) ?_
  rintro _ _ rfl
  refine ⟨rfl, .lead (fun _ => emits) (leads_pop rfl rfl) ?_⟩
  rintro _ _ rfl
  refine ⟨rfl, .ite (fun pointers => ?_) fun _ => .ite (fun numeric => ?_) fun _ => .refused⟩
  · rw [not_isPointer direct.1, not_isPointer direct.2] at pointers
    contradiction
  · exact runs_numberOperation op words words' ⟨rfl, rfl⟩ rfl (quiet.trans (.of_same rfl rfl rfl))
      (Bool.and_eq_true_iff.mp numeric).1

/-- What the code of a negation does to a number, the evaluation does. -/
theorem agrees_negate {type : ValueType} {control : Control} (word : Word)
    (found : (if type = .float then some Control.single
      else if type = .int then some Control.word
      else if type = .char then some Control.byte
      else none) = some control) :
    type.isNumeric ∧ Arithmetic.Agrees type (Arithmetic.apply .sub control.code 0 word)
      (Value.negate ⟨type, [word]⟩) := by
  split at found
  · next float =>
    subst float
    obtain rfl := Option.some.inj found
    exact ⟨rfl, agrees_singles .sub 0 word⟩
  · split at found
    · next int =>
      subst int
      obtain rfl := Option.some.inj found
      exact ⟨rfl, agrees_words .sub 0 word⟩
    · split at found
      · next char =>
        subst char
        obtain rfl := Option.some.inj found
        exact ⟨rfl, agrees_bytes .sub .char 0 word⟩
      · contradiction

theorem runs_negate (span : Span) {value : Value}
    (count : value.words.length = scene.table.leavesOf value.type)
    (stack : shown.stack = value.words.reverse ++ rest) (quiet : Quiet level roof before shown) :
    scene.Runs bound shown (negate span (some value.type)) (Eval.lift value.negate)
      (scene.Pushes level roof before rest) := by
  unfold negate
  dsimp only
  split
  · exact .reported
  · next control found =>
    obtain ⟨type, words⟩ := value
    have numeric := (agrees_negate 0 found).1
    obtain ⟨word, rfl⟩ : ∃ word, words = [word] :=
      exists_word count (scalar_of_isNumeric numeric : scene.Scalar type).2
    have emits : Emits (do
        emit .sub .a .d control.code
        push .a
        return some type) := (emits_emit (by decide) (by decide) (by decide)).bind fun _ =>
      (emits_push _).bind fun _ => .pure _
    refine .lead (fun _ => (emits_setNumber _ _).bind fun _ => emits) (leads_pop rfl stack) ?_
    rintro _ _ rfl
    refine ⟨rfl, .lead (fun _ => emits) (leads_setNumber rfl) ?_⟩
    rintro _ _ rfl
    exact ⟨rfl, runs_combine (by decide) (agrees_negate word found).2
      (scalar_of_isNumeric numeric) rfl
      (quiet.trans (.of_same rfl rfl rfl))⟩

theorem runs_invert (span : Span) {value : Value}
    (count : value.words.length = scene.table.leavesOf value.type)
    (stack : shown.stack = value.words.reverse ++ rest) (quiet : Quiet level roof before shown) :
    scene.Runs bound shown (invert span (some value.type)) (Eval.lift value.invert)
      (scene.Pushes level roof before rest) := by
  have emits : Emits (do
      emit .not .a .a
      push .a
      return some ValueType.bool) := (emits_not _ _).bind fun _ => (emits_push _).bind fun _ =>
        .pure _
  refine .environment (.ite (fun _ => .reported) fun single => ?_)
  obtain ⟨word, words⟩ := exists_word count (Decidable.not_not.mp (not_or.mp single).1)
  rw [words] at stack
  rw [Value.invert, words]
  refine .lead (fun _ => emits) (leads_pop rfl stack) ?_
  rintro _ _ rfl
  refine ⟨rfl, .lead (fun _ => (emits_push _).bind fun _ => .pure _) (leads_not rfl rfl) ?_⟩
  rintro _ _ rfl
  exact ⟨rfl, runs_push (scalar_of_isNumeric rfl) rfl rfl (quiet.trans (.of_same rfl rfl rfl))⟩

/-- A value on top of the operand stack is what is found. -/
theorem runs_value {value : Value} (direct : value.type.pointer = 0)
    (count : value.words.length = scene.table.leavesOf value.type)
    (stack : shown.stack = value.words.reverse ++ rest) (quiet : Quiet level roof before shown) :
    scene.Runs bound shown (pure (some value.type)) (pure value) (scene.Pushes level roof
      before rest) :=
  .pure ⟨rfl, direct, count, stack, quiet⟩

theorem runs_castValue (span : Span) {type : ValueType} {value : Value}
    (direct : value.type.pointer = 0)
    (count : value.words.length = scene.table.leavesOf value.type)
    (stack : shown.stack = value.words.reverse ++ rest) (quiet : Quiet level roof before shown) :
    scene.Runs bound shown (castValue span type (some value.type)) (Eval.lift (value.cast type))
      (scene.Pushes level roof before rest) := by
  have pushed : ∀ {between : Shown}, between.stack = rest → Quiet level roof before between →
      type.isNumeric → scene.Runs bound between (do
        push .a
        return some type) (pure ⟨type, [between.a]⟩) (scene.Pushes level roof before rest) :=
    fun stack quiet numeric => runs_push (scalar_of_isNumeric numeric) rfl stack quiet
  have scalar : value.type.isNumeric → ∃ word, value.words = [word] := fun numeric =>
    exists_word count (StructTable.leavesOf_of_isNumeric numeric)
  unfold castValue Value.cast
  dsimp only
  refine .ite (fun same => ?_) fun differ => .ite (fun pointers => ?_) fun _ =>
    .ite (fun integral => ?_) fun whole =>
    .ite (fun widens => ?_) fun narrows => .ite (fun truncates => ?_) fun _ => .reported
  · rw [if_pos same, ← same]
    exact runs_value direct count stack quiet
  · rw [not_isPointer direct] at pointers
    contradiction
  · obtain ⟨one, two⟩ := Bool.and_eq_true_iff.mp integral
    obtain ⟨word, words⟩ := scalar (Bool.or_eq_true_iff.mpr (.inl one))
    rw [words] at stack
    rw [if_neg differ, words]
    dsimp only
    rw [if_pos integral]
    refine .ite (fun truth => ?_) fun other => ?_
    · subst truth
      have emits : Emits (do
          push .a
          return some ValueType.bool) := (emits_push _).bind fun _ => .pure _
      refine .lead (fun _ => (emits_not _ _).bind fun _ => (emits_not _ _).bind fun _ => emits)
        (leads_pop rfl stack) ?_
      rintro _ _ rfl
      refine ⟨rfl, .lead (fun _ => (emits_not _ _).bind fun _ => emits) (leads_not rfl rfl) ?_⟩
      rintro _ _ rfl
      refine ⟨rfl, .lead (fun _ => emits) (leads_not rfl rfl) ?_⟩
      rintro _ _ rfl
      have same : Arithmetic.ofBool (Arithmetic.ofBool (word == 0) == 0) =
          Arithmetic.ofBool (word != 0) := by
        rw [bne]
        cases word == 0 <;> rfl
      have run := @pushed _ (show Shown.stack { shown with
        a := Arithmetic.ofBool (word != 0), stack := rest } = rest from rfl)
        (quiet.trans (.of_same rfl rfl rfl)) rfl
      rw [if_pos rfl]
      refine ⟨rfl, ?_⟩
      show scene.Runs bound { shown with
        a := Arithmetic.ofBool (Arithmetic.ofBool (word == 0) == 0), stack := rest } _ _ _
      rw [same]
      exact run
    · rw [if_neg other]
      refine runs_value (?_ : (⟨type, [word]⟩ : Value).type.pointer = 0) ?_ stack quiet
      · exact (scalar_of_isNumeric (Bool.or_eq_true_iff.mpr (.inl two)) : scene.Scalar type).1
      · exact (StructTable.leavesOf_of_isIntegral two).symm
  · obtain ⟨word, words⟩ := scalar (by rw [widens.1]; rfl)
    rw [words] at stack
    rw [if_neg differ, words]
    dsimp only
    rw [if_neg whole, if_pos widens]
    refine .lead (fun _ => (emits_convert _ _).bind fun _ => (emits_push _).bind fun _ => .pure _)
      (leads_pop rfl stack) ?_
    rintro _ _ rfl
    refine ⟨rfl, .lead (fun _ => (emits_push _).bind fun _ => .pure _) (leads_convert _ rfl) ?_⟩
    rintro _ _ rfl
    exact ⟨rfl, pushed rfl (quiet.trans (.of_same rfl rfl rfl)) (by rw [widens.2]; rfl)⟩
  · obtain ⟨word, words⟩ := scalar (by rw [truncates.1]; rfl)
    rw [words] at stack
    rw [if_neg differ, words]
    dsimp only
    rw [if_neg whole, if_neg narrows, if_pos truncates]
    refine .lead (fun _ => (emits_convert _ _).bind fun _ => (emits_push _).bind fun _ => .pure _)
      (leads_pop rfl stack) ?_
    rintro _ _ rfl
    refine ⟨rfl, .lead (fun _ => (emits_push _).bind fun _ => .pure _) (leads_convert _ rfl) ?_⟩
    rintro _ _ rfl
    exact ⟨rfl, pushed rfl (quiet.trans (.of_same rfl rfl rfl)) (by rw [truncates.2]; rfl)⟩

end Scene

end TinLang
