import TinLang.Proofs.Simulation.Convention

/-!
# Canonical operand words

A word is canonical for a type when a variable of the type keeps it as it is. Loads, literals,
comparisons, operators on characters and assignments of canonical words leave canonical words,
whatever the words are that they work on; integer arithmetic does not.
-/
namespace TinLang

/-- A variable of some bytes keeps the word: it is extended by the sign of its low bytes. -/
def Canonical (size : Nat) (word : Word) : Prop := narrowTo size word = word

namespace Canonical

instance decidable (size : Nat) (word : Word) : Decidable (Canonical size word) :=
  inferInstanceAs (Decidable (_ = _))

variable {size : Nat} {word : Word} {width : AccessSize}

theorem of_narrow (sized : AccessSize.ofCode? size.toUInt8 = some width)
    (narrow : Memory.narrow width word.toNat = word) : Canonical size word := by
  rw [Canonical, narrowTo, sized]
  exact narrow

/-- What is extended by its sign from some bits is so from more. -/
theorem signExtend {bits : Nat} (number : BitVec bits)
    (sized : AccessSize.ofCode? size.toUInt8 = some width) (fits : bits ≤ 8 * width.bytes) :
    Canonical size (number.signExtend 64) := by
  refine of_narrow sized ?_
  have wide : 8 * width.bytes ≤ 64 := by cases width <;> decide
  have low : BitVec.ofNat (8 * width.bytes) (number.signExtend 64).toNat =
      number.signExtend (8 * width.bytes) := by
    refine BitVec.eq_of_getLsbD_eq fun index small => ?_
    rw [BitVec.ofNat_toNat, BitVec.getLsbD_setWidth, BitVec.getLsbD_signExtend,
      BitVec.getLsbD_signExtend]
    simp [small, Nat.lt_of_lt_of_le small wide]
  rw [Memory.narrow, low]
  refine BitVec.eq_of_toInt_eq ?_
  rw [BitVec.toInt_signExtend_of_le wide, BitVec.toInt_signExtend_of_le fits,
    BitVec.toInt_signExtend_of_le (Nat.le_trans fits wide)]

theorem ofBool (value : Bool) (sized : AccessSize.ofCode? size.toUInt8 = some width) :
    Canonical size (Arithmetic.ofBool value) := by
  refine of_narrow sized ?_
  cases width <;> cases value <;> decide

/-- A canonical word of few bytes is canonical for more. -/
theorem mono (canonical : Canonical size word)
    (sized : AccessSize.ofCode? size.toUInt8 = some width)
    {other : Nat} {wider : AccessSize} (more : AccessSize.ofCode? other.toUInt8 = some wider)
    (below : width.bytes ≤ wider.bytes) : Canonical other word := by
  rw [Canonical, narrowTo, sized] at canonical
  rw [← canonical]
  exact signExtend _ more (by omega)

end Canonical

namespace ValueType

theorem cases_of_isIntegral {type : ValueType} (integral : type.isIntegral = true) :
    type = .int ∨ type = .char ∨ type = .bool := of_decide_eq_true integral

/-- A place of an integral type takes values of its type only. -/
theorem eq_of_accepts {place value : ValueType} (integral : place.isIntegral = true)
    (accepts : place.accepts value = true) : place = value := by
  rcases Bool.or_eq_true_iff.mp accepts with same | pointers
  · exact of_decide_eq_true same
  · have pointer := (Bool.and_eq_true_iff.mp (Bool.and_eq_true_iff.mp pointers).1).1
    rcases cases_of_isIntegral integral with rfl | rfl | rfl <;> contradiction

/-- Integers, characters and truth values are one scalar, whose size memory accesses have. -/
theorem sized_of_isIntegral (table : StructTable) {type : ValueType}
    (integral : type.isIntegral = true) :
    table.shapeOf type = .scalar (table.sizeOf type) ∧
      ∃ width, AccessSize.ofCode? (table.sizeOf type).toUInt8 = some width ∧
        width.bytes = table.sizeOf type := by
  rcases cases_of_isIntegral integral with rfl | rfl | rfl
  · exact ⟨rfl, .four, rfl, rfl⟩
  · exact ⟨rfl, .one, rfl, rfl⟩
  · exact ⟨rfl, .one, rfl, rfl⟩

end ValueType

namespace Scene

open Generate

variable {scene : Scene} {shown : Shown} {left : Nat} {α : Type}

/-- A canonical word of a type lies on so many others. -/
def Tops (scene : Scene) (left : Nat) (type : ValueType) (final : Shown) : Prop :=
  ∃ word rest, final.stack = word :: rest ∧ rest.length = left ∧
    Canonical (scene.context.environment.structs.sizeOf type) word

/-- The code of a step leaves a canonical word of an integral type on so many others, unless it
faults. -/
def Leaves (scene : Scene) (shown : Shown) (left : Nat) (step : Generate (Option ValueType)) :
    Prop :=
  ∀ ⦃gen type later⦄, step scene.context gen = .done (some type, later) →
    type.isIntegral = true → gen.scopes = scene.scopes →
    later.piece.Completes scene.site.code scene.holes →
    ∀ ⦃machine⦄, scene.site.Shows gen.piece machine shown →
      machine.Comes scene.site.program scene.site.settings fun last =>
        last.Faults scene.site.program scene.site.settings ∨
          ∃ final, scene.site.Shows later.piece last final ∧ scene.Tops left type final

namespace Leaves

theorem bind {step : Generate α} {next : α → Generate (Option ValueType)}
    {middle : α → Shown → Prop} (first : scene.Tries (· = shown) step middle)
    (emits : ∀ value, Emits (next value))
    (second : ∀ value between, middle value between → scene.Leaves between left (next value)) :
    scene.Leaves shown left (step >>= next) := by
  intro gen type later done integral scopes complete machine shows
  obtain ⟨value, between, one, two⟩ := bind_done.mp done
  obtain ⟨piece, rfl, emitted⟩ := first.emits one shows.bounded
  obtain ⟨_, rfl, more⟩ := emits value two emitted.bounded
  refine (first.comes one scopes (more.completes complete) shows rfl).bind ?_
  rintro last (faults | ⟨final, reached, held⟩)
  · exact .here (.inl faults)
  · exact second value final held two integral scopes complete reached

theorem ite {test : Prop} [Decidable test] {yes no : Generate (Option ValueType)}
    (first : test → scene.Leaves shown left yes) (second : ¬ test → scene.Leaves shown left no) :
    scene.Leaves shown left (if test then yes else no) := by
  split
  · next holds => exact first holds
  · next fails => exact second fails

/-- A step that has no value of an integral type. -/
theorem other {step : Generate (Option ValueType)}
    (never : ∀ ctx gen type later, step ctx gen = .done (some type, later) →
      type.isIntegral = false) : scene.Leaves shown left step := by
  intro gen type later done integral
  rw [never _ _ _ _ done] at integral
  contradiction

/-- A step that reports a problem is not done. -/
theorem reported {span : Span} {cause : ProblemCause} {next : Unit → Generate (Option ValueType)} :
    scene.Leaves shown left (report span cause >>= next) := by
  intro gen type later done
  obtain ⟨_, _, reports, -⟩ := bind_done.mp done
  cases reports

theorem environment {next : Environment → Generate (Option ValueType)}
    (second : scene.Leaves shown left (next scene.context.environment)) :
    scene.Leaves shown left (do next (← Generate.environment)) := by
  intro gen type later done
  obtain ⟨found, between, look, done⟩ := bind_done.mp done
  obtain ⟨rfl, rfl⟩ := Prod.mk.inj (Task.done.inj look)
  exact second done

theorem none : scene.Leaves shown left (pure none) := by
  intro gen type later done
  cases (Prod.mk.inj (pure_done.mp done)).1

/-- A step without a value, and then a canonical word on top. -/
theorem finish {step : Generate Unit} {type : ValueType} {after : Unit → Shown → Prop}
    (first : scene.Tries (· = shown) step after)
    (top : ∀ final, after () final → type.isIntegral = true → scene.Tops left type final) :
    scene.Leaves shown left (do
      step
      return some type) := by
  refine bind first (fun _ => .pure _) ?_
  rintro ⟨⟩ between held gen found later done integral _ _ machine shows
  obtain ⟨same, rfl⟩ := Prod.mk.inj (pure_done.mp done)
  obtain rfl := Option.some.inj same
  exact .here (.inr ⟨_, shows, top between held integral⟩)

/-- A canonical word is pushed. -/
theorem push {reg : Register} {type : ValueType} (free : reg.isFree)
    (count : shown.stack.length = left)
    (canonical : type.isIntegral = true →
      Canonical (scene.context.environment.structs.sizeOf type) (shown.get reg)) :
    scene.Leaves shown left (do
      Generate.push reg
      return some type) := by
  refine finish (leads_push free).tries ?_
  rintro _ rfl integral
  exact ⟨_, _, rfl, count, canonical integral⟩

/-- A number that an immediate holds is pushed. -/
theorem pushNumber {number : Int} {type : ValueType} (count : shown.stack.length = left)
    (canonical : type.isIntegral = true → Canonical (scene.context.environment.structs.sizeOf type)
      ((BitVec.ofInt 32 number).signExtend 64)) :
    scene.Leaves shown left (do
      Generate.pushNumber number
      return some type) := by
  refine finish leads_pushNumber.tries ?_
  rintro _ rfl integral
  exact ⟨_, _, rfl, count, canonical integral⟩

end Leaves

theorem canonical_number (table : StructTable) (number : Int) {type : ValueType}
    (wide : type = .int) :
    Canonical (table.sizeOf type) ((BitVec.ofInt 32 number).signExtend 64) := by
  subst wide
  exact .signExtend _ (by rfl : AccessSize.ofCode? _ = some .four) (by decide)

theorem leaves_literal (e : Expr) (count : shown.stack.length = left) :
    scene.Leaves shown left (literal e) := by
  unfold literal
  split
  · exact .pushNumber count fun _ => canonical_number _ _ rfl
  · exact .other fun _ _ _ _ done => by
      obtain ⟨_, _, -, same⟩ := bind_done.mp done
      rw [← Option.some.inj (Prod.mk.inj (pure_done.mp same)).1]
      rfl
  · exact .other fun _ _ _ _ done => by
      obtain ⟨_, _, -, done⟩ := bind_done.mp done
      obtain ⟨_, _, -, done⟩ := bind_done.mp done
      obtain ⟨_, _, -, same⟩ := bind_done.mp done
      rw [← Option.some.inj (Prod.mk.inj (pure_done.mp same)).1]
      rfl
  · refine .pushNumber count fun _ => ?_
    have wider : ∀ byte : BitVec 8,
        (BitVec.ofInt 32 byte.toInt).signExtend 64 = byte.signExtend 64 := by decide
    rw [wider]
    exact .signExtend _ (by rfl : AccessSize.ofCode? _ = some .one) (by decide)
  · next value =>
    refine .pushNumber count fun _ => ?_
    have truth : (BitVec.ofInt 32 (if value then 1 else 0)).signExtend 64 =
        Arithmetic.ofBool value := by cases value <;> rfl
    rw [truth]
    exact .ofBool value (by rfl : AccessSize.ofCode? _ = some .one)
  · exact .other fun _ _ _ _ done => by
      obtain ⟨_, _, -, same⟩ := bind_done.mp done
      rw [← Option.some.inj (Prod.mk.inj (pure_done.mp same)).1]
      rfl
  · exact .pushNumber count fun _ => canonical_number _ _ rfl
  · exact .other fun _ _ _ _ done => by
      obtain ⟨_, _, -, same⟩ := bind_done.mp done
      rw [← Option.some.inj (Prod.mk.inj (pure_done.mp same)).1]
      rfl
  · exact .none

/-- A scalar that is read is canonical for a type of its size. -/
theorem leaves_pushFrom {base : Register} {offset : Int} {type : ValueType}
    (isShown : base.isShown) (count : shown.stack.length = left) :
    scene.Leaves shown left (do
      pushFrom base offset (some type)
      return some type) := by
  by_cases integral : type.isIntegral = true
  · obtain ⟨scalar, width, sized, -⟩ :=
      ValueType.sized_of_isIntegral scene.context.environment.structs integral
    refine @Leaves.finish _ _ _ _ _ (fun _ => scene.Tops left type)
      (.bind leads_environment.tries ?_) ?_
    · rintro env
      refine .of_eq ?_ (emits_pushSlots _ _)
      rintro _ ⟨rfl, rfl⟩
      show scene.Tries _ (pushSlots base ((scene.context.environment.structs.shapeOf type).slots
        offset)) _
      rw [scalar]
      refine .bind (tries_loadAt rfl isShown) fun _ => .of_eq ?_ ?_
      · rintro _ ⟨size, word, found, narrow, rfl⟩
        refine .bind (leads_push rfl).tries fun _ => .pure ?_
        rintro _ rfl
        obtain rfl := Option.some.inj (found.symm.trans sized)
        exact ⟨_, _, rfl, count, .of_narrow sized narrow⟩
      · exact (emits_push _).bind fun _ => .pure _
    · exact fun _ held _ => held
  · refine .other fun _ _ _ _ done => ?_
    obtain ⟨_, _, -, same⟩ := bind_done.mp done
    rw [← Option.some.inj (Prod.mk.inj (pure_done.mp same)).1]
    exact Bool.eq_false_iff.mpr integral

/-- The value at the address on top is read. -/
theorem leaves_loadValue {type : Option ValueType} {addr : Word} {rest : List Word}
    (stack : shown.stack = addr :: rest) (count : rest.length = left) :
    scene.Leaves shown left (loadValue type) := by
  cases type with
  | none => exact .none
  | some type =>
    refine .bind (leads_pop rfl stack).tries (fun _ => (emits_pushFrom _ _ _).bind fun _ =>
      .pure _) ?_
    rintro _ _ rfl
    exact leaves_pushFrom rfl count

theorem leaves_constantValue (constant : Constant) (count : shown.stack.length = left) :
    scene.Leaves shown left (constantValue constant) := by
  intro gen type later done integral scopes complete machine shows
  obtain ⟨given, between, pushed, coerced⟩ := bind_done.mp done
  rcases coerce_done coerced with ⟨-, widened⟩ | ⟨-, same, rfl⟩
  · rw [Option.some.inj widened] at integral
    contradiction
  · exact leaves_literal constant.value count (same ▸ pushed) integral scopes complete shows

theorem leaves_nameValue (span : Span) (name : Text) (count : shown.stack.length = left) :
    scene.Leaves shown left (nameValue span name) := by
  intro gen type later done integral scopes complete machine shows
  obtain ⟨found, between, looked, done⟩ := bind_done.mp done
  rw [meaning_eq] at looked
  obtain ⟨rfl, rfl⟩ := Prod.mk.inj (Task.done.inj looked)
  rcases known : meaningIn scene.context.environment gen.scopes name with
    ⟨found, offset⟩ | place | value | _ <;> rw [known] at done
  · cases found with
    | none =>
      obtain ⟨_, _, -, done⟩ := bind_done.mp done
      cases (Prod.mk.inj (pure_done.mp done)).1
    | some found => exact leaves_pushFrom rfl count done integral scopes complete shows
  · refine Leaves.bind (leads_setDataAddress rfl).tries
      (fun _ => (emits_pushFrom _ _ _).bind fun _ => .pure _) ?_ done integral scopes complete shows
    rintro _ _ rfl
    exact leaves_pushFrom rfl count
  · exact leaves_constantValue value count done integral scopes complete shows
  · exact Leaves.reported done integral scopes complete shows

/-- A comparison gives a truth value. -/
theorem signed_of_compares {op : BinaryOp} (compares : (operation op).2 = true) {width : Nat}
    (left right : BitVec width) :
    ∃ truth, Arithmetic.signed (operation op).1 left right = .ok (.inr truth) := by
  cases op <;> first
  | contradiction
  | exact ⟨_, rfl⟩

theorem single_of_compares {op : BinaryOp} (compares : (operation op).2 = true)
    (left right : Float32) :
    ∃ truth, Arithmetic.single (operation op).1 left right = .inr truth := by
  cases op <;> first
  | contradiction
  | exact ⟨_, rfl⟩

/-- What compares two words gives the word of a truth value. -/
theorem apply_of_compares {op : BinaryOp} (compares : (operation op).2 = true) (control : Control)
    (left right : Word) :
    ∃ truth, Arithmetic.apply (operation op).1 control.code left right =
      .ok (Arithmetic.ofBool truth) := by
  unfold Arithmetic.apply
  rw [Control.ofCode?_code]
  cases control with
  | single =>
    obtain ⟨truth, found⟩ := single_of_compares compares (Arithmetic.toSingle left)
      (Arithmetic.toSingle right)
    exact ⟨truth, by simp only [found]⟩
  | byte =>
    obtain ⟨truth, found⟩ := signed_of_compares compares (left.setWidth 8) (right.setWidth 8)
    exact ⟨truth, by simp only [found]; rfl⟩
  | word =>
    obtain ⟨truth, found⟩ := signed_of_compares compares left right
    exact ⟨truth, by simp only [found]; rfl⟩

/-- What combines two bytes gives a byte that is extended by its sign, or a truth value. -/
theorem canonical_byte {op : Opcode} {left right word : Word} {size : Nat} {width : AccessSize}
    (sized : AccessSize.ofCode? size.toUInt8 = some width)
    (result : Arithmetic.apply op Control.byte.code left right = .ok word) :
    Canonical size word := by
  unfold Arithmetic.apply at result
  rw [Control.ofCode?_code] at result
  cases found : Arithmetic.signed op (left.setWidth 8) (right.setWidth 8) with
  | error cause =>
    simp only [found] at result
    exact nomatch result
  | ok combined =>
    simp only [found] at result
    cases combined with
    | inl byte =>
      obtain rfl := Except.ok.inj result
      refine .signExtend byte sized ?_
      cases width <;> decide
    | inr truth =>
      obtain rfl := Except.ok.inj result
      exact .ofBool truth sized

/-- Registers A and D are combined into a canonical word. -/
theorem leaves_combine {op : Opcode} {modifier : UInt8} {type : ValueType}
    (operation : op ∈ Site.Plain.operations) (count : shown.stack.length = left)
    (canonical : ∀ word, Arithmetic.apply op modifier shown.a shown.d = .ok word →
      type.isIntegral = true → Canonical (scene.context.environment.structs.sizeOf type) word) :
    scene.Leaves shown left (do
      emit op .a .d modifier
      push .a
      return some type) := by
  refine .bind (tries_operation operation rfl rfl) (fun _ => (emits_push _).bind fun _ =>
    .pure _) ?_
  rintro _ _ ⟨word, result, rfl⟩
  exact .push rfl count (canonical word result)

/-- A comparison leaves a truth value, an operator on bytes a byte. -/
theorem leaves_operator {op : BinaryOp} {control : Control} {result : ValueType}
    (count : shown.stack.length = left)
    (narrow : (operation op).2 = true ∨ control = .byte ∧ result.isByte = true) :
    scene.Leaves shown left (do
      emit (operation op).1 .a .d control.code
      push .a
      return some (if (operation op).2 then .bool else result)) := by
  refine leaves_combine (operation_mem op) count fun word done _ => ?_
  by_cases compares : (operation op).2 = true
  · obtain ⟨truth, found⟩ := apply_of_compares compares control shown.a shown.d
    obtain rfl := Except.ok.inj (found.symm.trans done)
    rw [if_pos compares]
    exact .ofBool truth (by rfl : AccessSize.ofCode? _ = some .one)
  · obtain ⟨rfl, byte⟩ := narrow.resolve_left compares
    rw [if_neg compares]
    have sized : AccessSize.ofCode?
        (scene.context.environment.structs.sizeOf result).toUInt8 = some .one := by
      rcases of_decide_eq_true byte with rfl | rfl <;> rfl
    exact canonical_byte sized done

theorem leaves_numberOperation (op : BinaryOp) (first second : ValueType)
    (count : shown.stack.length = left)
    (narrow : (operation op).2 = true ∨ (first.isByte && second.isByte) = true) :
    scene.Leaves shown left (numberOperation op first second) := by
  unfold numberOperation
  refine .ite (fun floating => ?_) fun _ => .ite (fun bytes => ?_) fun wide => ?_
  · have compares : (operation op).2 = true := by
      refine narrow.resolve_right fun bytes => ?_
      obtain ⟨one, two⟩ := Bool.and_eq_true_iff.mp bytes
      rcases floating with rfl | rfl <;> contradiction
    have emits : Emits (do
        emit (operation op).1 .a .d Control.single.code
        push .a
        return some (if (operation op).2 then ValueType.bool else .float)) :=
      (emits_emitOperation _ _ _ _).bind fun _ => (emits_push _).bind fun _ => .pure _
    have finish : ∀ between : Shown, between.stack = shown.stack →
        scene.Leaves between left (do
          if second ≠ .float then convert .intToSingle .d
          emit (operation op).1 .a .d Control.single.code
          push .a
          return some (if (operation op).2 then ValueType.bool else .float)) := by
      intro between same
      refine .ite (fun _ => ?_) fun _ => leaves_operator (same ▸ count) (.inl compares)
      refine .bind (leads_convert _ rfl).tries (fun _ => emits) ?_
      rintro _ _ rfl
      exact leaves_operator (same ▸ count) (.inl compares)
    refine .ite (fun _ => ?_) fun _ => finish shown rfl
    refine .bind (leads_convert _ rfl).tries (fun _ => ?_) ?_
    · exact .ite (fun _ => (emits_convert _ _).bind fun _ => emits) fun _ => emits
    · rintro _ _ rfl
      exact finish _ rfl
  · exact leaves_operator count (.inr ⟨rfl, (Bool.and_eq_true_iff.mp bytes).1⟩)
  · exact leaves_operator count (.inl (narrow.resolve_right wide))

theorem leaves_pointerOperation (span : Span) {op : BinaryOp} (first second : ValueType)
    (count : shown.stack.length = left) (compares : (operation op).2 = true) :
    scene.Leaves shown left (pointerOperation span op first second) := by
  unfold pointerOperation
  refine .ite (fun _ => ?_) fun _ => .ite (fun shifts => ?_) fun _ => .reported
  · refine leaves_combine (operation_mem op) count fun word done _ => ?_
    obtain ⟨truth, found⟩ := apply_of_compares compares .word shown.a shown.d
    obtain rfl := Except.ok.inj (found.symm.trans done)
    exact .ofBool truth (by rfl : AccessSize.ofCode? _ = some .one)
  · rcases shifts.1 with rfl | rfl <;> contradiction

/-- An operator on two scalars, of which the second lies on top. -/
theorem leaves_binaryOperation (span : Span) {op : BinaryOp} {first second : ValueType}
    {one two : Word} {rest : List Word} (stack : shown.stack = two :: one :: rest)
    (count : rest.length = left)
    (narrow : (operation op).2 = true ∨ (first.isByte && second.isByte) = true) :
    scene.Leaves shown left (binaryOperation span op (some first) (some second)) := by
  refine .environment (.ite (fun _ => .reported) fun _ => ?_)
  have emits : Emits (if first.isPointer || second.isPointer then
        pointerOperation span op first second
      else if first.isNumeric && second.isNumeric then numberOperation op first second
      else refuse span (.operands first second op)) :=
    .ite (fun _ => emits_pointerOperation _ _ _ _) fun _ =>
      .ite (fun _ => emits_numberOperation _ _ _) fun _ => emits_refuse _ rfl
  refine .bind (leads_pop rfl stack).tries (fun _ => (emits_pop _).bind fun _ => emits) ?_
  rintro _ _ rfl
  refine .bind (leads_pop rfl rfl).tries (fun _ => emits) ?_
  rintro _ _ rfl
  refine .ite (fun _ => ?_) fun _ => .ite (fun _ => ?_) fun _ => .reported
  · have compares : (operation op).2 = true := by
      refine narrow.resolve_right fun bytes => ?_
      obtain ⟨one, two⟩ := Bool.and_eq_true_iff.mp bytes
      rcases of_decide_eq_true one with rfl | rfl <;> rcases of_decide_eq_true
        two with rfl | rfl <;>
        contradiction
    exact leaves_pointerOperation span first second count compares
  · exact leaves_numberOperation op first second count narrow

/-- A character is negated as a byte. -/
theorem leaves_negate (span : Span) {type : ValueType} {word : Word} {rest : List Word}
    (stack : shown.stack = word :: rest) (count : rest.length = left) (narrow : type ≠ .int) :
    scene.Leaves shown left (negate span (some type)) := by
  unfold negate
  dsimp only
  split
  · exact .reported
  · next control found =>
    have emits : Emits (do
        emit .sub .a .d control.code
        push .a
        return some type) := (emits_emit (by decide) (by decide) (by decide)).bind fun _ =>
      (emits_push _).bind fun _ => .pure _
    refine .bind (leads_pop rfl stack).tries (fun _ => (emits_setNumber _ _).bind fun _ => emits) ?_
    rintro _ _ rfl
    refine .bind (leads_setNumber rfl).tries (fun _ => emits) ?_
    rintro _ _ rfl
    refine leaves_combine (by decide) count fun word done integral => ?_
    rcases ValueType.cases_of_isIntegral integral with rfl | rfl | rfl
    · contradiction
    · obtain rfl : Control.byte = control := Option.some.inj found
      exact canonical_byte (by rfl : AccessSize.ofCode? _ = some .one) done
    · contradiction

theorem leaves_invert (span : Span) {type : ValueType} {word : Word} {rest : List Word}
    (stack : shown.stack = word :: rest) (count : rest.length = left) :
    scene.Leaves shown left (invert span (some type)) := by
  have emits : Emits (do
      emit .not .a .a
      push .a
      return some ValueType.bool) := (emits_not _ _).bind fun _ => (emits_push _).bind fun _ =>
        .pure _
  refine .environment (.ite (fun _ => .reported) fun _ => ?_)
  refine .bind (leads_pop rfl stack).tries (fun _ => emits) ?_
  rintro _ _ rfl
  refine .bind (leads_not rfl rfl).tries (fun _ => (emits_push _).bind fun _ => .pure _) ?_
  rintro _ _ rfl
  exact .push rfl count fun _ => .ofBool _ (by rfl : AccessSize.ofCode? _ = some .one)

/-- A number is kept by a wider type, and made a truth value for the narrow one. -/
theorem leaves_castValue (span : Span) {source type : ValueType} {word : Word} {rest : List Word}
    (stack : shown.stack = word :: rest) (count : rest.length = left)
    (narrow : source.isIntegral = true → type = .bool ∧ source ≠ .bool ∨
      Canonical (scene.context.environment.structs.sizeOf type) word) :
    scene.Leaves shown left (castValue span type (some source)) := by
  have keeps : source.isIntegral = true ∧ ¬ (type = .bool ∧ source ≠ .bool) ∨
      ¬ type.isIntegral = true → scene.Leaves shown left (pure (some type)) := by
    intro kept gen found later done integral _ _ machine shows
    obtain ⟨same, rfl⟩ := Prod.mk.inj (pure_done.mp done)
    obtain rfl := Option.some.inj same
    have canonical := (narrow (kept.resolve_right fun not => not integral).1).resolve_left
      (kept.resolve_right fun not => not integral).2
    exact .here (.inr ⟨_, shows, word, rest, stack, count, canonical⟩)
  unfold castValue
  dsimp only
  refine .ite (fun same => ?_) fun _ => .ite (fun pointers => ?_) fun _ =>
    .ite (fun integral => .ite (fun truth => ?_) fun other => ?_) fun _ =>
    .ite (fun widens => ?_) fun _ => .ite (fun truncates => ?_) fun _ => .reported
  · subst same
    refine keeps ?_
    by_cases integral : source.isIntegral = true
    · exact .inl ⟨integral, fun ⟨truth, other⟩ => other truth⟩
    · exact .inr integral
  · refine keeps (.inr fun integral => ?_)
    have pointer := (Bool.and_eq_true_iff.mp pointers).2
    rcases ValueType.cases_of_isIntegral integral with rfl | rfl | rfl <;> contradiction
  · have emits : Emits (do
        emit .not .a .a
        push .a
        return some type) := (emits_not _ _).bind fun _ => (emits_push _).bind fun _ => .pure _
    refine .bind (leads_pop rfl stack).tries (fun _ => (emits_not _ _).bind fun _ => emits) ?_
    rintro _ _ rfl
    refine .bind (leads_not rfl rfl).tries (fun _ => emits) ?_
    rintro _ _ rfl
    refine .bind (leads_not rfl rfl).tries (fun _ => (emits_push _).bind fun _ => .pure _) ?_
    rintro _ _ rfl
    subst truth
    exact .push rfl count fun _ => .ofBool _ (by rfl : AccessSize.ofCode? _ = some .one)
  · exact keeps (.inl ⟨(Bool.and_eq_true_iff.mp integral).1, fun ⟨truth, _⟩ => other truth⟩)
  · refine .bind (leads_pop rfl stack).tries (fun _ => (emits_convert _ _).bind fun _ =>
      (emits_push _).bind fun _ => .pure _) ?_
    rintro _ _ rfl
    refine .bind (leads_convert _ rfl).tries (fun _ => (emits_push _).bind fun _ => .pure _) ?_
    rintro _ _ rfl
    refine .push rfl count fun integral => ?_
    rw [widens.2] at integral
    contradiction
  · refine .bind (leads_pop rfl stack).tries (fun _ => (emits_convert _ _).bind fun _ =>
      (emits_push _).bind fun _ => .pure _) ?_
    rintro _ _ rfl
    refine .bind (leads_convert _ rfl).tries (fun _ => (emits_push _).bind fun _ => .pure _) ?_
    rintro _ _ rfl
    refine .push rfl count fun _ => ?_
    rw [truncates.2]
    exact .signExtend _ (by rfl : AccessSize.ofCode? _ = some .four) (by decide)

/-- An assignment of a canonical word leaves the word. -/
theorem leaves_storeValue (span : Span) {type source : ValueType} {word addr : Word}
    {rest : List Word} (stack : shown.stack = word :: addr :: rest) (count : rest.length = left)
    (canonical : type = source → source.isIntegral = true →
      Canonical (scene.context.environment.structs.sizeOf source) word) :
    scene.Leaves shown left (storeValue span (some type) (some source)) := by
  intro gen found later done integral scopes complete machine shows
  obtain ⟨fitting, between, one, stores⟩ := bind_done.mp done
  obtain ⟨rfl, accepts, rfl⟩ := fits_done one
  rw [if_pos rfl] at stores
  have emits : ∀ size : UInt8, Emits (do
      emit .store .b .a size
      push .a
      return some type) := fun size => (emits_emit (by decide) (by decide) (by decide)).bind
    fun _ => (emits_push _).bind fun _ => .pure _
  cases struct : type.structName? with
  | some name =>
    rw [struct] at stores
    obtain ⟨_, _, -, stores⟩ := bind_done.mp stores
    obtain ⟨_, _, -, stores⟩ := bind_done.mp stores
    obtain ⟨_, _, -, stores⟩ := bind_done.mp stores
    obtain ⟨_, _, -, stores⟩ := bind_done.mp stores
    obtain ⟨_, _, -, stores⟩ := bind_done.mp stores
    obtain rfl := Option.some.inj (Prod.mk.inj (pure_done.mp stores)).1
    rcases ValueType.cases_of_isIntegral integral with rfl | rfl | rfl <;> contradiction
  | none =>
    rw [struct] at stores
    refine Leaves.bind (leads_pop rfl stack).tries (fun _ => (emits_pop _).bind fun _ =>
      emits_environment.bind fun _ => emits _) ?_ stores integral scopes complete shows
    rintro _ _ rfl
    refine .bind (leads_pop rfl rfl).tries (fun _ => emits_environment.bind fun _ => emits _) ?_
    rintro _ _ rfl
    refine .environment (.bind (tries_store rfl rfl) (fun _ => (emits_push _).bind fun _ =>
      .pure _) ?_)
    rintro _ _ ⟨others, bytes, length, rfl⟩
    refine .push rfl (length.trans count) fun wanted => ?_
    obtain rfl := ValueType.eq_of_accepts wanted accepts
    exact canonical rfl wanted

/-- An address lies on some words. -/
def Addressed (rest : List Word) (final : Shown) : Prop := ∃ addr, final.stack = addr :: rest

theorem tries_memberAddress (span : Span) (name : Text) (object : ValueType) {rest : List Word}
    (addr : Addressed rest shown) :
    scene.Tries (· = shown) (memberAddress span name (some object)) fun _ => Addressed rest := by
  unfold memberAddress
  dsimp only
  split
  · exact .reported rfl fun _ => emits_discardWord.bind fun _ => .pure _
  · refine .bind leads_environment.tries fun env => .of_eq ?_ ?_
    · rintro _ ⟨rfl, rfl⟩
      split
      · exact .reported rfl fun _ => emits_discardWord.bind fun _ => .pure _
      · obtain ⟨addr, stack⟩ := addr
        refine .ite (fun _ => ?_) fun _ => .pure ?_
        · refine .bind (leads_pop rfl stack).tries fun _ => ?_
          refine .bind (leads_increase rfl).tries fun _ => ?_
          refine .bind (leads_push rfl).tries fun _ => .pure ?_
          rintro _ rfl
          exact ⟨_, rfl⟩
        · rintro _ rfl
          exact ⟨addr, stack⟩
    · split
      · exact emits_dropWord _ rfl
      · exact .ite (fun _ => (emits_pop _).bind fun _ => (emits_increase _ _).bind fun _ =>
          (emits_push _).bind fun _ => .pure _) fun _ => .pure _

theorem tries_memberOfPlace (span : Span) (name : Text) (object : ValueType) {rest : List Word}
    (addr : Addressed rest shown) :
    scene.Tries (· = shown) (memberOfPlace span name (some object)) fun _ => Addressed rest := by
  obtain ⟨word, stack⟩ := addr
  unfold memberOfPlace
  split
  · refine .bind (leads_pop rfl stack).tries fun _ => ?_
    refine .bind (tries_loadAt rfl rfl) fun _ => .of_eq ?_ ?_
    · rintro _ ⟨size, word, -, -, rfl⟩
      refine .bind (leads_push rfl).tries fun _ => ?_
      exact tries_memberAddress span name _ ⟨_, rfl⟩
    · exact (emits_push _).bind fun _ => emits_memberAddress _ _ _
  · exact tries_memberAddress span name object ⟨word, stack⟩

theorem tries_elementAddress (span other : Span) (pointer position : ValueType) {rest : List Word}
    {index : Word} (stack : ∃ addr, shown.stack = index :: addr :: rest) :
    scene.Tries (· = shown) (elementAddress span other (some pointer) (some position)) fun _ =>
      Addressed rest := by
  obtain ⟨addr, stack⟩ := stack
  unfold elementAddress
  dsimp only
  refine .ite (fun _ => .reported rfl fun _ => ?_) fun _ => .ite (fun _ => .reported rfl fun _ =>
    ?_) fun _ => ?_
  · exact (emits_discard _).bind fun _ => (emits_discard _).bind fun _ => .pure _
  · exact (emits_discard _).bind fun _ => (emits_discard _).bind fun _ => .pure _
  · refine .bind (leads_pop rfl stack).tries fun _ => ?_
    refine .bind (leads_pop rfl rfl).tries fun _ => ?_
    refine .bind leads_environment.tries fun env => .of_eq ?_ ?_
    · rintro _ ⟨rfl, rfl⟩
      refine .bind (leads_setNumber rfl).tries fun _ => ?_
      refine .bind (tries_operation (by decide) rfl rfl) fun _ => .of_eq ?_ ?_
      · rintro _ ⟨word, -, rfl⟩
        refine .bind (tries_operation (by decide) rfl rfl) fun _ => .of_eq ?_ ?_
        · rintro _ ⟨word, -, rfl⟩
          refine .bind (leads_push rfl).tries fun _ => .pure ?_
          rintro _ rfl
          exact ⟨_, rfl⟩
        · exact (emits_push _).bind fun _ => .pure _
      · exact (emits_emit (by decide) (by decide) (by decide)).bind fun _ =>
          (emits_push _).bind fun _ => .pure _
    · exact (emits_setNumber _ _).bind fun _ => (emits_emit (by decide) (by decide)
        (by decide)).bind fun _ => (emits_emit (by decide) (by decide) (by decide)).bind fun _ =>
        (emits_push _).bind fun _ => .pure _

/-- The value at the place that a step finds is read. -/
theorem Leaves.load {step : Generate (Option ValueType)} {rest : List Word}
    (first : scene.Tries (· = shown) step fun _ => Addressed rest) (count : rest.length = left) :
    scene.Leaves shown left (do loadValue (← step)) := by
  refine .bind first (fun _ => emits_loadValue _) ?_
  rintro type between ⟨addr, stack⟩
  exact leaves_loadValue stack count

/-- A pointer to a struct on top is followed to a member. -/
theorem leaves_memberOfValue (span : Span) (name : Text) {object : ValueType} {addr : Word}
    {rest : List Word} (stack : shown.stack = addr :: rest) (count : rest.length = left)
    (followed : object.structName? = none) :
    scene.Leaves shown left (memberOfValue span name (some object)) := by
  refine .environment ?_
  dsimp only
  rw [followed]
  split
  · split
    · exact .reported
    · refine .bind (leads_pop rfl stack).tries (fun _ => (emits_pushFrom _ _ _).bind fun _ =>
        .pure _) ?_
      rintro _ _ rfl
      exact leaves_pushFrom rfl count
  · contradiction
  · exact .reported

/-- The code of an expression is found to leave a value of a type. -/
def HasType (scene : Scene) (value : Expr) (type : ValueType) : Prop :=
  ∃ gen later, gen.scopes = scene.scopes ∧
    expr value scene.context gen = .done (some type, later)

/-- An expression of a type is known to fit it: it is no integer arithmetic, no change by one (whose
store may reach the word that it leaves), no member of a temporary struct, no conversion to a
narrower type and no call, and an assignment or a conversion is one of a value that fits. -/
def Trims (scene : Scene) : Expr → ValueType → Prop
  | .call .., _ => False
  | .step .., _ => False
  | .binary _ op left right, _ => (operation op).2 = true ∨
      (∀ type, scene.HasType left type → type.isByte = true) ∧
        ∀ type, scene.HasType right type → type.isByte = true
  | .unary _ .negate operand, _ =>
      (∃ span value, operand = .int span value) ∨ ∀ type, scene.HasType operand type → type ≠ .int
  | .assign _ _ value, type => Trims scene value type
  | .member _ object _, _ =>
      (∀ gen found later, gen.scopes = scene.scopes →
        addressable object scene.context gen = .done (found, later) → found = true) ∨
      ∀ type, scene.HasType object type → type.structName? = none
  | .cast _ _ value, type => ∀ source, scene.HasType value source → source.isIntegral = true →
      type = .bool ∧ source ≠ .bool ∨ scene.context.environment.structs.sizeOf source ≤
        scene.context.environment.structs.sizeOf type ∧ Trims scene value source
  | _, _ => True

/-- From some point of the code between two others on, the words on top, whatever they are, are
replaced by one that is canonical for a type, unless the code faults. -/
def Settles (scene : Scene) (early later : Generator) (type : ValueType) : Prop :=
  ∃ (between : Generator) (count : Nat), early.piece.Grows between.piece ∧ between.piece.Grows
    later.piece ∧
    ∀ machine shown, scene.site.Shows between.piece machine shown → count ≤ shown.stack.length →
      machine.Comes scene.site.program scene.site.settings fun last =>
        last.Faults scene.site.program scene.site.settings ∨
          ∃ final, scene.site.Shows later.piece last final ∧
            scene.Tops (shown.stack.length - count) type final

variable {early between later : Generator} {type : ValueType}

/-- The last step of an expression leaves a canonical word. -/
theorem Settles.last {step : Generate (Option ValueType)} (count : Nat) (emits : Emits step)
    (grows : early.piece.Grows between.piece)
    (done : step scene.context between = .done (some type, later))
    (integral : type.isIntegral = true)
    (scopes : between.scopes = scene.scopes)
    (complete : later.piece.Completes scene.site.code scene.holes)
    (leaves : ∀ shown : Shown, count ≤ shown.stack.length →
      scene.Leaves shown (shown.stack.length - count) step) : scene.Settles early later type := by
  obtain ⟨piece, rfl, emitted⟩ := emits done grows.bounded
  exact ⟨between, count, grows, emitted.toGrows, fun machine shown shows enough =>
    leaves shown enough done integral scopes complete shows⟩

/-- A step after code that leaves a canonical word, and some words below it, leaves another. -/
theorem Settles.next {earlier : Generator} {source : ValueType}
    {step : Generate (Option ValueType)} (extra : Nat) (emits : Emits step)
    (settles : scene.Settles early between source) (grows : earlier.piece.Grows early.piece)
    (done : step scene.context between = .done (some type, later))
    (integral : type.isIntegral = true)
    (scopes : between.scopes = scene.scopes)
    (complete : later.piece.Completes scene.site.code scene.holes)
    (leaves : ∀ (shown : Shown) (left : Nat), scene.Tops (left + extra) source shown →
      scene.Leaves shown left step) : scene.Settles earlier later type := by
  obtain ⟨inner, count, before, behind, comes⟩ := settles
  obtain ⟨piece, rfl, emitted⟩ := emits done behind.bounded
  refine ⟨inner, count + extra, grows.trans before, behind.trans emitted.toGrows, ?_⟩
  intro machine shown shows enough
  refine (comes machine shown shows (by omega)).bind ?_
  rintro last (faults | ⟨final, reached, tops⟩)
  · exact .here (.inl faults)
  · rw [show shown.stack.length - count = shown.stack.length - (count + extra) + extra by omega]
      at tops
    exact leaves final _ tops done integral scopes complete reached

theorem addressable_done {value : Expr} {found : Bool} {ctx : FunctionContext}
    {gen later : Generator}
    (done : addressable value ctx gen = .done (found, later)) : later = gen := by
  fun_induction addressable value with
  | case1 span name =>
    obtain ⟨_, _, look, done⟩ := bind_done.mp done
    rw [meaning_eq] at look
    obtain ⟨rfl, rfl⟩ := Prod.mk.inj (Task.done.inj look)
    rcases known : meaningIn ctx.environment gen.scopes name with _ | _ | _ | _ <;>
      rw [known] at done <;> exact (Prod.mk.inj (pure_done.mp done)).2.symm
  | case2 _ _ _ ih => exact ih done
  | case3 | case4 | case5 => exact (Prod.mk.inj (pure_done.mp done)).2.symm

theorem pointed_done {span : Span} {pointer : Option ValueType} {result : ValueType}
    {ctx : FunctionContext} {gen later : Generator}
    (done : pointed span pointer ctx gen = .done (some result, later)) :
    later = gen := by
  unfold pointed at done
  split at done
  · cases (Prod.mk.inj (pure_done.mp done)).1
  · split at done
    · obtain ⟨_, _, reports, -⟩ := bind_done.mp done
      cases reports
    · exact (Prod.mk.inj (pure_done.mp done)).2.symm

theorem some_of_binaryOperation {span : Span} {op : BinaryOp} {first second : Option ValueType}
    {ctx : FunctionContext} {gen later : Generator}
    (done : binaryOperation span op first second ctx gen = .done (some type, later)) :
    ∃ one two, first = some one ∧ second = some two := by
  unfold binaryOperation at done
  split at done
  · exact ⟨_, _, rfl, rfl⟩
  · obtain ⟨_, _, -, done⟩ := bind_done.mp done
    obtain ⟨_, _, -, done⟩ := bind_done.mp done
    cases (Prod.mk.inj (pure_done.mp done)).1

theorem some_of_elementAddress {span other : Span} {first second : Option ValueType}
    {ctx : FunctionContext} {gen later : Generator}
    (done : elementAddress span other first second ctx gen = .done (some type, later)) :
    ∃ one two, first = some one ∧ second = some two := by
  unfold elementAddress at done
  split at done
  · exact ⟨_, _, rfl, rfl⟩
  · obtain ⟨_, _, -, done⟩ := bind_done.mp done
    obtain ⟨_, _, -, done⟩ := bind_done.mp done
    cases (Prod.mk.inj (pure_done.mp done)).1

/-- Only a value that its place takes is stored. -/
theorem storeValue_done {span : Span} {place value : Option ValueType}
    {ctx : FunctionContext} {gen later : Generator} (integral : type.isIntegral = true)
    (done : storeValue span place value ctx gen = .done (some type, later)) :
    place = some type ∧ value = some type := by
  unfold storeValue at done
  split at done
  · next target source =>
    obtain ⟨fitting, _, fit, stores⟩ := bind_done.mp done
    obtain ⟨rfl, accepts, rfl⟩ := fits_done fit
    rw [if_pos rfl] at stores
    have same : target = type := by
      cases struct : target.structName? <;> rw [struct] at stores <;>
        obtain ⟨_, _, -, stores⟩ := bind_done.mp stores <;>
        obtain ⟨_, _, -, stores⟩ := bind_done.mp stores <;>
        obtain ⟨_, _, -, stores⟩ := bind_done.mp stores <;>
        obtain ⟨_, _, -, stores⟩ := bind_done.mp stores <;>
        obtain ⟨_, _, -, stores⟩ := bind_done.mp stores <;>
        exact Option.some.inj (Prod.mk.inj (pure_done.mp stores)).1
    subst same
    rw [ValueType.eq_of_accepts integral accepts]
    exact ⟨rfl, rfl⟩
  · obtain ⟨_, _, -, done⟩ := bind_done.mp done
    split at done
    · obtain ⟨_, _, -, done⟩ := bind_done.mp done
      cases (Prod.mk.inj (pure_done.mp done)).1
    · cases (Prod.mk.inj (pure_done.mp done)).1

/-- Only a value is converted, and to the type that is asked for. -/
theorem castValue_done {span : Span} {target : ValueType} {value : Option ValueType}
    {ctx : FunctionContext} {gen later : Generator}
    (done : castValue span target value ctx gen = .done (some type, later)) :
    type = target ∧ ∃ source, value = some source := by
  unfold castValue at done
  split at done
  · cases (Prod.mk.inj (pure_done.mp done)).1
  · next source =>
    refine ⟨?_, source, rfl⟩
    have converted : ∀ {conversion : Conversion} {gen : Generator},
        (do pop .a; convert conversion .a; push .a; return some target) ctx gen =
          .done (some type, later) → type = target := fun done => by
      obtain ⟨_, _, -, done⟩ := bind_done.mp done
      obtain ⟨_, _, -, done⟩ := bind_done.mp done
      obtain ⟨_, _, -, done⟩ := bind_done.mp done
      exact (Option.some.inj (Prod.mk.inj (pure_done.mp done)).1).symm
    have kept : ∀ {gen : Generator},
        (pure (some target) : Generate _) ctx gen = .done (some type, later) →
          type = target := fun done => (Option.some.inj (Prod.mk.inj (pure_done.mp done)).1).symm
    split at done
    · exact kept done
    · split at done
      · exact kept done
      · split at done
        · split at done
          · obtain ⟨_, _, -, done⟩ := bind_done.mp done
            obtain ⟨_, _, -, done⟩ := bind_done.mp done
            obtain ⟨_, _, -, done⟩ := bind_done.mp done
            obtain ⟨_, _, -, done⟩ := bind_done.mp done
            exact kept done
          · exact kept done
        · split at done
          · exact converted done
          · split at done
            · exact converted done
            · obtain ⟨_, _, reports, -⟩ := bind_done.mp done
              cases reports

/-- A member is found in the place of a struct only. -/
theorem some_of_memberOfPlace {span : Span} {name : Text} {object : Option ValueType}
    {ctx : FunctionContext} {gen later : Generator}
    (done : memberOfPlace span name object ctx gen = .done (some type, later)) :
    ∃ one, object = some one := by
  cases object with
  | none => cases (Prod.mk.inj (pure_done.mp done)).1
  | some object => exact ⟨object, rfl⟩

theorem some_of_memberOfValue {span : Span} {name : Text} {object : Option ValueType}
    {ctx : FunctionContext} {gen later : Generator}
    (done : memberOfValue span name object ctx gen = .done (some type, later)) :
    ∃ one, object = some one := by
  cases object with
  | none =>
    obtain ⟨_, _, -, done⟩ := bind_done.mp done
    cases (Prod.mk.inj (pure_done.mp done)).1
  | some object => exact ⟨object, rfl⟩

/-- Only the place of a known type is read. -/
theorem some_of_loadValue {place : Option ValueType} {ctx : FunctionContext}
    {gen later : Generator}
    (done : loadValue place ctx gen = .done (some type, later)) : place = some type := by
  cases place with
  | none => cases (Prod.mk.inj (pure_done.mp done)).1
  | some place =>
    obtain ⟨_, _, -, done⟩ := bind_done.mp done
    obtain ⟨_, _, -, done⟩ := bind_done.mp done
    exact (Prod.mk.inj (pure_done.mp done)).1

/-- Two words lie on top. -/
theorem exists_two {stack : List Word} (enough : 2 ≤ stack.length) :
    ∃ two one rest, stack = two :: one :: rest := by
  match stack, enough with
  | two :: one :: rest, _ => exact ⟨two, one, rest, rfl⟩

theorem exists_one {stack : List Word} (enough : 1 ≤ stack.length) :
    ∃ one rest, stack = one :: rest := by
  match stack, enough with
  | one :: rest, _ => exact ⟨one, rest, rfl⟩

/-- Every word that the code of a trimmed expression of an integral type leaves on the operand stack
is canonical, whatever its operands are. -/
theorem settles_expr (value : Expr) {type : ValueType} {gen later : Generator}
    (integral : type.isIntegral = true) (trims : scene.Trims value type)
    (done : expr value scene.context gen = .done (some type, later))
    (scopes : gen.scopes = scene.scopes)
    (bounded : gen.piece.barrier ≤ gen.piece.size)
    (complete : later.piece.Completes scene.site.code scene.holes) :
    scene.Settles gen later type := by
  match value with
  | .name span name =>
    exact .last 0 (emits_nameValue span name) (.refl bounded) done integral scopes complete
      fun shown _ => leaves_nameValue span name rfl
  | .int .. | .float .. | .string .. | .character .. | .bool .. | .null .. =>
    exact .last 0 (emits_literal _) (.refl bounded) done integral scopes complete
      fun shown _ => leaves_literal _ rfl
  | .call .. | .step .. => exact trims.elim
  | .binary span op left right =>
    unfold expr at done
    obtain ⟨first, between, one, done⟩ := bind_done.mp done
    obtain ⟨second, between', two, done⟩ := bind_done.mp done
    obtain ⟨first, second, rfl, rfl⟩ := some_of_binaryOperation done
    obtain ⟨piece, rfl, emitted⟩ := emits_expr left one bounded
    obtain ⟨piece', rfl, emitted'⟩ := emits_expr right two emitted.bounded
    have narrow : (operation op).2 = true ∨ (first.isByte && second.isByte) = true := by
      refine trims.imp_right ?_
      rintro ⟨low, high⟩
      exact Bool.and_eq_true_iff.mpr
        ⟨low first ⟨_, _, scopes, one⟩, high second ⟨{ gen with piece }, _, scopes, two⟩⟩
    refine .last 2 (emits_binaryOperation _ _ _ _) (emitted.toGrows.trans emitted'.toGrows) done
      integral scopes complete fun shown enough => ?_
    obtain ⟨high, low, rest, stack⟩ := exists_two enough
    exact leaves_binaryOperation span stack (by rw [stack]; rfl) narrow
  | .unary span .negate operand =>
    unfold expr at done
    split at done
    · exact .last 0 (emits_literal _) (.refl bounded) done integral scopes complete
        fun shown _ => leaves_literal _ rfl
    · exact .last 0 (emits_literal _) (.refl bounded) done integral scopes complete
        fun shown _ => leaves_literal _ rfl
    · next number _ =>
      obtain ⟨given, between, one, done⟩ := bind_done.mp done
      obtain ⟨piece, rfl, emitted⟩ := emits_expr operand one bounded
      cases given with
      | none => cases (Prod.mk.inj (pure_done.mp done)).1
      | some given =>
        have narrow : given ≠ .int := by
          rcases trims with ⟨_, _, same⟩ | narrow
          · exact absurd same (number _ _)
          · exact narrow given ⟨_, _, scopes, one⟩
        refine .last 1 (emits_negate _ _) emitted.toGrows done integral scopes complete
          fun shown enough => ?_
        obtain ⟨word, rest, stack⟩ := exists_one enough
        exact leaves_negate span stack (by rw [stack]; rfl) narrow
  | .unary span .not operand =>
    unfold expr at done
    obtain ⟨given, between, one, done⟩ := bind_done.mp done
    obtain ⟨piece, rfl, emitted⟩ := emits_expr operand one bounded
    cases given with
    | none => cases (Prod.mk.inj (pure_done.mp done)).1
    | some given =>
      refine .last 1 (emits_invert _ _) emitted.toGrows done integral scopes complete
        fun shown enough => ?_
      obtain ⟨word, rest, stack⟩ := exists_one enough
      exact leaves_invert span stack (by rw [stack]; rfl)
  | .unary _ .address operand =>
    unfold expr at done
    obtain ⟨given, between, one, done⟩ := bind_done.mp done
    obtain ⟨same, -⟩ := Prod.mk.inj (pure_done.mp done)
    obtain ⟨target, -, rfl⟩ := Option.map_eq_some_iff.mp same
    rcases ValueType.cases_of_isIntegral integral with wrong | wrong | wrong <;>
      exact (Nat.succ_ne_zero _ (congrArg ValueType.pointer wrong)).elim
  | .unary span .deref operand =>
    unfold expr at done
    obtain ⟨given, between, one, done⟩ := bind_done.mp done
    obtain ⟨piece, rfl, emitted⟩ := emits_expr operand one bounded
    obtain ⟨target, between, two, done⟩ := bind_done.mp done
    obtain rfl := some_of_loadValue done
    obtain rfl := pointed_done two
    refine .last 1 (emits_loadValue _) emitted.toGrows done integral scopes complete
      fun shown enough => ?_
    obtain ⟨word, rest, stack⟩ := exists_one enough
    exact leaves_loadValue stack (by rw [stack]; rfl)
  | .assign span target source =>
    unfold expr at done
    obtain ⟨place, between, one, done⟩ := bind_done.mp done
    obtain ⟨found, between', two, done⟩ := bind_done.mp done
    obtain ⟨given, between'', coerced, stores⟩ := bind_done.mp done
    obtain ⟨rfl, rfl⟩ := storeValue_done integral stores
    obtain ⟨piece, rfl, emitted⟩ := emits_address target one bounded
    obtain ⟨piece', rfl, emitted'⟩ := emits_expr source two emitted.bounded
    rcases coerce_done coerced with ⟨-, wrong⟩ | ⟨-, rfl, rfl⟩
    · rcases ValueType.cases_of_isIntegral integral with rfl | rfl | rfl <;> cases wrong
    obtain ⟨_, rfl, emitted''⟩ := emits_storeValue _ _ _ stores emitted'.bounded
    have settles := settles_expr source integral trims two scopes emitted.bounded
      (emitted''.toGrows.completes complete)
    refine .next 1 (emits_storeValue _ _ _) settles emitted.toGrows stores integral
      scopes complete ?_
    rintro shown left ⟨word, rest, stack, count, canonical⟩
    obtain ⟨addr, rest, rfl⟩ := exists_one (by rw [count]; exact Nat.le_add_left 1 left)
    exact leaves_storeValue _ stack (Nat.succ.inj count) fun _ _ => canonical
  | .member span object name =>
    unfold expr at done
    obtain ⟨placed, between, one, done⟩ := bind_done.mp done
    obtain rfl := addressable_done one
    cases placed with
    | true =>
      obtain ⟨outer, between', two, done⟩ := bind_done.mp done
      obtain ⟨place, _, found, loads⟩ := bind_done.mp done
      obtain rfl := some_of_loadValue loads
      obtain ⟨outer, rfl⟩ := some_of_memberOfPlace found
      obtain ⟨piece, rfl, emitted⟩ := emits_address object two bounded
      refine .last 1 ((emits_memberOfPlace _ _ _).bind fun place => emits_loadValue place)
        emitted.toGrows (bind_done.mpr ⟨_, _, found, loads⟩) integral scopes complete
        fun shown enough => ?_
      obtain ⟨word, rest, stack⟩ := exists_one enough
      refine .load (tries_memberOfPlace _ _ _ ⟨word, stack⟩) ?_
      rw [stack]
      rfl
    | false =>
      obtain ⟨outer, between', two, found⟩ := bind_done.mp done
      obtain ⟨outer, rfl⟩ := some_of_memberOfValue found
      have followed : outer.structName? = none := trims.elim
        (fun placed => absurd (placed _ _ _ scopes one) (by simp)) fun pointer =>
          pointer outer ⟨_, _, scopes, two⟩
      obtain ⟨piece, rfl, emitted⟩ := emits_expr object two bounded
      refine .last 1 (emits_memberOfValue _ _ _) emitted.toGrows found integral scopes complete
        fun shown enough => ?_
      obtain ⟨word, rest, stack⟩ := exists_one enough
      exact leaves_memberOfValue _ _ stack (by rw [stack]; rfl) followed
  | .index span object position =>
    unfold expr at done
    obtain ⟨pointer, between, one, done⟩ := bind_done.mp done
    obtain ⟨index, between', two, done⟩ := bind_done.mp done
    obtain ⟨piece, rfl, emitted⟩ := emits_expr object one bounded
    obtain ⟨piece', rfl, emitted'⟩ := emits_expr position two emitted.bounded
    obtain ⟨place, _, found, loads⟩ := bind_done.mp done
    obtain rfl := some_of_loadValue loads
    obtain ⟨pointer, index, rfl, rfl⟩ := some_of_elementAddress found
    refine .last 2 ((emits_elementAddress _ _ _ _).bind fun place => emits_loadValue place)
      (emitted.toGrows.trans emitted'.toGrows) done integral scopes complete fun shown enough => ?_
    obtain ⟨high, low, rest, stack⟩ := exists_two enough
    refine .load (tries_elementAddress _ _ _ _ ⟨low, stack⟩) ?_
    rw [stack]
    rfl
  | .cast span written source =>
    unfold expr at done
    obtain ⟨found, between, one, done⟩ := bind_done.mp done
    obtain ⟨rfl, found, rfl, -⟩ := writtenType_found one
    obtain ⟨given, between', two, casts⟩ := bind_done.mp done
    obtain ⟨rfl, given, rfl⟩ := castValue_done casts
    obtain ⟨piece, rfl, emitted⟩ := emits_expr source two bounded
    obtain ⟨_, rfl, emitted'⟩ := emits_castValue _ _ _ casts emitted.bounded
    have single : (given.isIntegral = true → type = .bool ∧ given ≠ .bool) →
        scene.Settles between _ type := fun narrow => by
      refine .last 1 (emits_castValue _ _ _) emitted.toGrows casts integral scopes complete
        fun shown enough => ?_
      obtain ⟨word, rest, stack⟩ := exists_one enough
      exact leaves_castValue _ stack (by rw [stack]; rfl) fun whole => .inl (narrow whole)
    by_cases whole : given.isIntegral = true
    · rcases trims given ⟨_, _, scopes, two⟩ whole with narrow | ⟨wider, trims⟩
      · exact single fun _ => narrow
      · have settles := settles_expr source whole trims two scopes bounded
          (emitted'.toGrows.completes complete)
        refine .next 0 (emits_castValue _ _ _) settles (.refl bounded) casts integral
          scopes complete ?_
        rintro shown left ⟨word, rest, stack, count, canonical⟩
        obtain ⟨-, width, sized, bytes⟩ :=
          ValueType.sized_of_isIntegral scene.context.environment.structs whole
        obtain ⟨-, width', sized', bytes'⟩ :=
          ValueType.sized_of_isIntegral scene.context.environment.structs integral
        exact leaves_castValue _ stack count fun _ =>
          .inr (canonical.mono sized sized' (by omega))
    · exact single fun wrong => absurd wrong whole
  | .sizeof span written =>
    unfold expr at done
    obtain ⟨found, between, one, done⟩ := bind_done.mp done
    obtain ⟨rfl, found, rfl, -⟩ := writtenType_found one
    refine .last 0 ?_ (.refl bounded) done integral scopes complete fun shown _ => ?_
    · exact emits_environment.bind fun _ => (emits_pushNumber _).bind fun _ => .pure _
    · exact .environment (.pushNumber rfl fun _ => canonical_number _ _ rfl)

end Scene

namespace Build

/-- A source that assigns the result of a comparison. -/
def comparing : List Source :=
  [⟨"flag.tin", "fun main() \x7b flag: bool; flag = 1 < 2; \x7d\n"⟩]

/-- The linked code of main in that source. -/
def comparingCode : Code := (((ofSources comparing).program.pieces[0]?).map Piece.code).getD #[]

theorem functions_comparing :
    0 < (Checker.ofFiles (filesOf comparing)).environment.functions.length := by decide

/-- What the code of main depends on. -/
def comparingContext : FunctionContext where
  environment := (Checker.ofFiles (filesOf comparing)).environment
  function := (Checker.ofFiles (filesOf comparing)).environment.functions.get
    ⟨0, functions_comparing⟩

/-- How far the code of main is generated before the assignment. -/
def comparingStart : Generator where
  piece := { name := "main", code := comparingCode.take 8, barrier := 8 }
  file := comparingContext.function.file
  scopes := [[("flag", .variable (some .bool) (-8))]]

/-- The assignment. -/
def comparingValue : Expr :=
  .assign default (.name default "flag") (.binary default .less (.int default 1) (.int default 2))

/-- How far the code of main is generated behind the assignment. -/
def comparingStop : Option Generator :=
  match Generate.expr comparingValue comparingContext comparingStart with
  | .done (some type, later) => if type = .bool then some later else none
  | _ => none

end Build

/-- From a machine with 4096 bytes of stack, the code of an assigned comparison leaves a canonical
word. -/
theorem Scene.settles_expr_comparing : ∃ (scene : Scene) (later : Generator) (machine : Machine)
    (shown : Shown), scene.site.program = (Build.ofSources Build.comparing).program ∧
    scene.site.top = Memory.stackBase + 4096 ∧ scene.context = Build.comparingContext ∧
    Generate.expr Build.comparingValue scene.context Build.comparingStart =
      .done (some .bool, later) ∧
    scene.site.Shows Build.comparingStart.piece machine shown ∧
    scene.Settles Build.comparingStart later .bool := by
  have known : (Build.ofSources Build.comparing).program.pieces.size = 1 ∧
      Build.comparingCode.size = 26 ∧
      (Build.comparingStart.piece.pending = [] ∧ Build.comparingStart.piece.size = 8) ∧
      Build.comparingStop.isSome ∧
      ∀ stop ∈ Build.comparingStop, stop.piece.relocations = [] ∧
        ∀ index, index < stop.piece.settled →
          Build.comparingCode[index]? = stop.piece.code[index]? := by decide +kernel
  obtain ⟨pieces, size, ⟨settled, begun⟩, stops, each⟩ := known
  have bounded : Build.comparingStart.piece.barrier ≤ Build.comparingStart.piece.size :=
    Nat.le_of_eq begun.symm
  obtain ⟨later, stop⟩ := Option.isSome_iff_exists.mp stops
  obtain ⟨relocations, same⟩ := each _ stop
  have found : ((Build.ofSources Build.comparing).program.pieces[0]?).map Piece.code =
      some Build.comparingCode := by
    rw [Build.comparingCode,
      Array.getElem?_eq_getElem (Nat.lt_of_lt_of_eq Nat.zero_lt_one pieces.symm)]
    rfl
  let site : Site := ⟨(Build.ofSources Build.comparing).program, {}, 0, Build.comparingCode,
    Memory.stackBase + 4096, 0, found, by omega, by omega, by decide, by decide⟩
  let scene : Scene := ⟨site, [], Build.comparingContext, Build.comparingStart.scopes⟩
  have done : Generate.expr Build.comparingValue scene.context Build.comparingStart =
      .done (some .bool, later) := by
    show Generate.expr Build.comparingValue Build.comparingContext Build.comparingStart = _
    unfold Build.comparingStop at stop
    split at stop
    · next run =>
      split at stop
      · next type =>
        obtain rfl := Option.some.inj stop
        rw [run, type]
      · cases stop
    · cases stop
  have code : scene.site.code = Build.comparingCode := by dsimp only [scene, site]
  have scopes : Build.comparingStart.scopes = scene.scopes := by dsimp only [scene]
  have complete : later.piece.Completes scene.site.code scene.holes := by
    rw [code]
    refine ⟨fun index small => .inl (same index small), ?_⟩
    intro reloc mem
    rw [relocations] at mem
    exact absurd mem List.not_mem_nil
  have trims : scene.Trims Build.comparingValue .bool := by
    rw [Build.comparingValue, Scene.Trims, Scene.Trims]
    exact .inl rfl
  have top : scene.site.top = Memory.stackBase + 4096 := by dsimp only [scene, site]
  have plain := @Site.plain_standing scene.site 8 (scene.site.top - 8) scene.site.top 0 (by omega)
    (Nat.sub_le _ _) (Nat.le_refl _)
  exact ⟨scene, later, _, _, by dsimp only [scene, site], top, by dsimp only [scene], done,
    .ofPlain settled bounded (begun.symm ▸ plain),
    settles_expr Build.comparingValue rfl trims done scopes bounded complete⟩

namespace Build

/-- A source that converts an integer to a character and back. -/
def widening : List Source :=
  [⟨"cast.tin", "fun main(): int \x7b return cast<int>(cast<char>(300)); \x7d\n"⟩]

end Build

/-- A conversion to a character leaves a word that no variable of characters keeps: the program ends
with 300 in the register of its result. -/
theorem Machine.wide_of_cast : (Build.ofSources Build.widening).diagnostics = [] ∧
    (Build.ofSources Build.widening).failure = none ∧
    ∃ start last, Machine.start? (Build.ofSources Build.widening).program {} {} = .ok start ∧
      start.outcome (Build.ofSources Build.widening).program {} 3 = (last, none) ∧
      (last.registers.get Machine.slotA).toInt = 300 ∧
      ¬ Canonical 1 (last.registers.get Machine.slotA) := by
  have built : (Build.ofSources Build.widening).diagnostics = [] ∧
      (Build.ofSources Build.widening).failure = none ∧
      (Build.ofSources Build.widening).program.linked = true ∧
      (Build.ofSources Build.widening).program.lookup? "main" = some 0 ∧
      ((Build.ofSources Build.widening).program.pieces[0]?.map Piece.size).getD 0 = 3 := by
    decide +kernel
  obtain ⟨clean, linked, ready, main, size⟩ := built
  have started : Machine.start? (Build.ofSources Build.widening).program {} {} =
      .ok (Machine.start (Build.ofSources Build.widening).program {} {} 0) := by
    rw [Machine.start?, ready, main]
    simp only [size]
    rfl
  have ended : ((Machine.start (Build.ofSources Build.widening).program {} {} 0).outcome
      (Build.ofSources Build.widening).program {} 3).2 = none := by decide +kernel
  have value : ((Machine.start (Build.ofSources Build.widening).program {} {} 0).outcome
      (Build.ofSources Build.widening).program {} 3).1.registers.get Machine.slotA = 300 := by
    decide +kernel
  rcases course : (Machine.start (Build.ofSources Build.widening).program {} {} 0).outcome
    (Build.ofSources Build.widening).program {} 3 with ⟨last, reason⟩
  rw [course] at ended value
  obtain rfl : reason = none := ended
  have word : last.registers.get Machine.slotA = 300 := value
  exact ⟨clean, linked, _, last, started, course, by rw [word]; rfl, by rw [word]; decide⟩

end TinLang
