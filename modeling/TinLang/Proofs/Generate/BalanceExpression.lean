import TinLang.Proofs.Generate.Balance
import TinLang.Proofs.Generate.Emission

/-!
# Balanced code of expressions

Every step that expressions are made of takes what it works on from the operand stack and leaves
its result there: a word for an address, and for a value a word for each of its scalars.
-/
namespace TinLang.Generate

variable {ctx : FunctionContext}

/-- A value of some type is left on the operand stack. -/
def Values (ctx : FunctionContext) (before : Nat) (step : Generate (Option ValueType)) : Prop :=
  Turns ctx before step ctx.environment.bytesOf fun found => ∃ type, found = some type

/-- The address of a place is left on the operand stack. -/
def Addresses (ctx : FunctionContext) (before : Nat) (step : Generate (Option ValueType)) :
    Prop :=
  Turns ctx before step (fun _ => wordSize) Placed

theorem turns_pushSlots (base : Register) (slots : List Slot) :
    Turns ctx 0 (pushSlots base slots) fun _ => wordSize * slots.length := by
  induction slots with
  | nil => exact .pure trivial rfl
  | cons slot slots ih =>
    refine .look (turns_emitNumber rfl rfl rfl (.inl (by decide)) rfl) fun _ _ => ?_
    refine (turns_push .a).andThen fun _ _ => (ih.under wordSize).congr rfl fun _ _ => ?_
    rw [List.length_cons, Nat.mul_add_one, Nat.add_comm]

theorem turns_popSlots (base : Register) (slots : List Slot) :
    Turns ctx (wordSize * slots.length) (popSlots base slots) fun _ => 0 := by
  induction slots with
  | nil => exact .pure trivial rfl
  | cons slot slots ih =>
    refine (turns_pop (by decide)).bind (wordSize * slots.length) (Nat.mul_add_one _ _)
      fun _ _ => ?_
    refine .look (turns_emitNumber rfl rfl rfl (.inl (by decide)) rfl) fun _ _ => ih

variable (measured : ctx.Measured)
include measured

theorem turns_pushFrom (base : Register) (offset : Int) {type : Option ValueType}
    (placed : Placed type) : Turns ctx 0 (pushFrom base offset type)
      fun _ => ctx.environment.bytesOf type := by
  refine .look turns_environment fun env same => ?_
  subst same
  exact (turns_pushSlots _ _).congr rfl fun _ _ =>
    (Environment.length_slots measured.sound.structs placed offset).symm

theorem turns_popTo (base : Register) (offset : Int) {type : Option ValueType}
    (placed : Placed type) : Turns ctx (ctx.environment.bytesOf type)
      (popTo base offset type) fun _ => 0 := by
  refine .look turns_environment fun env same => ?_
  subst same
  refine (turns_popSlots _ _).congr ?_ fun _ _ => rfl
  rw [List.length_reverse, Environment.length_slots measured.sound.structs placed offset]

theorem turns_discard (type : Option ValueType) :
    Turns ctx (ctx.environment.bytesOf type) (discard type) fun _ => 0 := by
  refine .look turns_environment fun env same => ?_
  subst same
  have small := measured.values type
  unfold Environment.bytesOf at small ⊢
  split
  · next none => exact .pure trivial (by rw [none, Nat.mul_zero])
  · next one => exact (turns_pop (by decide)).congr (by rw [one, Nat.mul_one]) fun _ _ => rfl
  · exact turns_giveUp small

omit measured in
theorem turns_coerce (given : ValueType) (wanted : Option ValueType) :
    Values ctx (ctx.environment.bytesOf (some given)) (coerce (some given) wanted) := by
  refine .ite (fun whole => ?_) fun _ => .pure ⟨given, rfl⟩ rfl
  obtain rfl := Option.some.inj whole.1
  exact (turns_pop (by decide)).andThen fun _ _ =>
    .look (turns_emit rfl rfl rfl (by decide) rfl) fun _ _ => (turns_push _).andThen fun _ _ =>
    .pure ⟨_, rfl⟩ rfl

omit measured in
/-- A value that fits a place takes as many bytes as one of the place. -/
theorem turns_fits (span : Span) (place value : ValueType) (use : Use) :
    Turns ctx 0 (fits span (some place) (some value) use) (fun _ => 0)
      fun fitting => fitting = true ∧
        ctx.environment.bytesOf (some value) = ctx.environment.bytesOf (some place) :=
  .ite (fun accepts => .pure ⟨rfl, Environment.bytesOf_of_accepts accepts⟩ rfl)
    fun _ => .reported _ _

/-- What a name stands for: a place or a literal. -/
def Meaning.Valued : Meaning → Prop
  | .variable type _ => Placed type
  | .global place => Placed (some place.type)
  | .constant named => named.value.literalType?.isSome
  | .undefined => True

theorem turns_meaning (name : Text) :
    Turns ctx 0 (meaning name) (fun _ => 0) Meaning.Valued := by
  intro rest cells gen balanced
  rw [meaning_eq]
  refine ⟨balanced, .refl _, ?_⟩
  unfold meaningIn
  split
  · next type offset found =>
    obtain ⟨scope, mem, declared⟩ := List.exists_of_findSome?_eq_some found
    exact (balanced.scopes scope mem _ (mem_of_lookup declared)).1
  · next named found =>
    obtain ⟨scope, mem, declared⟩ := List.exists_of_findSome?_eq_some found
    exact balanced.scopes scope mem _ (mem_of_lookup declared)
  · split
    · next place found =>
      exact ⟨place.type, rfl, measured.sound.globals place (List.mem_of_find?_eq_some found)⟩
    · next named _ found =>
      exact measured.sound.constants named (List.mem_of_find?_eq_some found)
    · trivial

omit measured in
theorem turns_literal {value : Expr} (known : value.literalType?.isSome) :
    Values ctx 0 (literal value) := by
  have number : ∀ (number : Int) (type : ValueType),
      ctx.environment.bytesOf (some type) = wordSize →
        Values ctx 0 (do pushNumber number; return some type) :=
    fun number type one => (turns_pushNumber number).andThen fun _ _ => .pure ⟨type, rfl⟩ one.symm
  unfold literal
  split
  case h_3 span text =>
    exact .look (turns_stringOffset text) fun _ _ =>
      .look (turns_setDataAddress (by decide) _) fun _ _ => (turns_push _).andThen fun _ _ =>
      .pure ⟨_, rfl⟩ rfl
  case h_9 other =>
    unfold Expr.literalType? at known
    split at known <;> simp_all
  all_goals exact number _ _ rfl

omit measured in
theorem turns_constantValue {constant : Constant} (known : constant.value.literalType?.isSome) :
    Values ctx 0 (constantValue constant) := by
  refine (turns_literal known).andThen fun found ⟨type, same⟩ => ?_
  subst same
  exact turns_coerce _ _

theorem turns_nameValue (span : Span) (name : Text) : Values ctx 0 (nameValue span name) := by
  refine .look (turns_meaning measured name) fun meaning known => ?_
  have loaded : ∀ base offset type, Placed type →
      Values ctx 0 (do pushFrom base offset type; return type) := by
    rintro base offset type ⟨found, rfl, nonvoid⟩
    exact (turns_pushFrom measured base offset ⟨found, rfl, nonvoid⟩).andThen fun _ _ =>
      .pure ⟨found, rfl⟩ rfl
  split
  · exact turns_constantValue known
  · exact loaded _ _ _ known
  · exact .look (turns_setDataAddress (by decide) _) fun _ _ => loaded _ _ _ known
  · exact turns_refuse _ _

theorem turns_nameAddress (span : Span) (name : Text) :
    Addresses ctx 0 (nameAddress span name) := by
  refine .look (turns_meaning measured name) fun meaning known => ?_
  split
  · exact turns_refuse _ _
  · exact .look (turns_emit rfl rfl rfl (by decide) rfl) fun _ _ =>
      .look (turns_increase (by decide) _) fun _ _ => (turns_push _).andThen fun _ _ =>
      .pure known rfl
  · exact .look (turns_setDataAddress (by decide) _) fun _ _ => (turns_push _).andThen fun _ _ =>
      .pure known rfl
  · exact turns_refuse _ _

theorem turns_addressable (value : Expr) :
    Turns ctx 0 (addressable value) fun _ => 0 := by
  fun_induction addressable value with
  | case1 span name =>
    refine .look (turns_meaning measured name) fun meaning _ => ?_
    split <;> exact .pure trivial rfl
  | case2 _ _ _ ih => exact ih
  | case3 | case4 | case5 => exact .pure trivial rfl

theorem turns_loadValue {type : Option ValueType} (placed : Placed type) :
    Values ctx wordSize (loadValue type) := by
  obtain ⟨found, rfl, nonvoid⟩ := placed
  exact (turns_pop (by decide)).andThen fun _ _ =>
    (turns_pushFrom measured .b 0 ⟨found, rfl, nonvoid⟩).andThen fun _ _ =>
    .pure ⟨found, rfl⟩ rfl

theorem turns_memberAddress (span : Span) (name : Text) (type : ValueType) :
    Addresses ctx wordSize (memberAddress span name (some type)) := by
  unfold memberAddress
  dsimp only
  split
  · exact .reported _ _
  · refine .look turns_environment fun env same => ?_
    subst same
    split
    · exact .reported _ _
    · next mem found =>
      have placed : Placed (some mem.type) := ⟨_, rfl, measured.sound.structs.member? found⟩
      exact .ite (fun _ => (turns_pop (by decide)).andThen fun _ _ =>
        .look (turns_increase (by decide) _) fun _ _ => (turns_push _).andThen fun _ _ =>
        .pure placed rfl) fun _ => .pure placed rfl

theorem turns_memberOfPlace (span : Span) (name : Text) (type : ValueType) :
    Addresses ctx wordSize (memberOfPlace span name (some type)) := by
  unfold memberOfPlace
  split
  · exact (turns_pop (by decide)).andThen fun _ _ =>
      .look (turns_emitNumber rfl rfl rfl (.inl (by decide)) rfl) fun _ _ =>
      (turns_push _).andThen fun _ _ => turns_memberAddress measured _ _ _
  · exact turns_memberAddress measured _ _ _

omit measured in
/-- A pointer to a struct is a word. -/
theorem isPointer_of_pointedStruct? {type : ValueType} {name : Text}
    (points : type.pointedStruct? = some name) : type.isPointer := by
  unfold ValueType.pointedStruct? at points
  split at points
  · rfl
  · contradiction

theorem turns_memberOfPointer (span : Span) (name : Text) (type : ValueType) :
    Addresses ctx (ctx.environment.bytesOf (some type))
      (memberOfPointer span name (some type)) := by
  unfold memberOfPointer
  dsimp only
  split
  · next points =>
    rw [Environment.bytesOf_of_isPointer (isPointer_of_pointedStruct? points)]
    exact turns_memberAddress measured _ _ _
  · exact .reported _ _
  · exact .reported _ _

omit measured in
theorem turns_copyLeaves (total first : Nat) (indices : List Nat) :
    Turns ctx 0 (copyLeaves total first indices) fun _ => 0 := by
  induction indices with
  | nil => exact .pure trivial rfl
  | cons index indices ih =>
    exact .ite (fun _ => .look (turns_emitNumber rfl rfl rfl (.inl (by decide)) rfl) fun _ _ =>
      .look (turns_emitNumber rfl rfl rfl (.inl (by decide)) rfl) fun _ _ => ih) fun _ => ih

omit measured in
theorem turns_extractMember {struct : StructType} {mem : Member} (inside : mem ∈ struct.members)
    (small : wordSize * struct.shape.leaves < 2 ^ 31) :
    Turns ctx (wordSize * struct.shape.leaves) (extractMember struct mem)
      fun _ => wordSize * mem.shape.leaves := by
  have fewer : mem.shape.leaves ≤ struct.shape.leaves := by
    have part : (mem.offset, mem.shape) ∈
        struct.members.map fun mem => (mem.offset, mem.shape) :=
      List.mem_map.mpr ⟨mem, inside, rfl⟩
    exact Shape.leaves_le_of_mem part
  have split : wordSize * struct.shape.leaves = wordSize * mem.shape.leaves +
      wordSize * (struct.shape.leaves - mem.shape.leaves) := by
    rw [← Nat.mul_add, Nat.add_sub_cancel' fewer]
  refine .look (turns_copyLeaves _ _ _) fun _ _ => .ite (fun _ => ?_) fun all => ?_
  · have distance : (wordSize : Int) * ((struct.shape.leaves : Int) - mem.shape.leaves) =
        (wordSize * (struct.shape.leaves - mem.shape.leaves) : Nat) := by
      rw [Int.natCast_mul, Int.natCast_sub fewer]
    rw [split, distance]
    have part : wordSize * (struct.shape.leaves - mem.shape.leaves) < 2 ^ 31 := by omega
    exact (turns_giveUp part).under _
  · exact .pure trivial (by rw [Nat.le_antisymm fewer (Nat.le_of_not_lt all)])

theorem turns_memberOfValue (span : Span) (name : Text) (type : ValueType) :
    Values ctx (ctx.environment.bytesOf (some type))
      (memberOfValue span name (some type)) := by
  refine .look turns_environment fun env same => ?_
  subst same
  dsimp only
  split
  · next struct _ points =>
    rw [Environment.bytesOf_of_isPointer (isPointer_of_pointedStruct? points)]
    split
    · exact .reported _ _
    · next mem found =>
      exact (turns_pop (by decide)).andThen fun _ _ =>
        (turns_pushFrom measured .b mem.offset
          ⟨_, rfl, measured.sound.structs.member? found⟩).andThen fun _ _ =>
        .pure ⟨_, rfl⟩ rfl
  · next struct _ named =>
    split
    · exact .reported _ _
    · next mem found =>
      have inside := List.mem_of_find?_eq_some found
      have bytes : ctx.environment.bytesOf (some type) =
          wordSize * (ctx.environment.structs.get struct).shape.leaves := by
        rw [Environment.bytesOf_some, StructTable.leavesOf_of_structName? named]
      have small := measured.values (some type)
      rw [bytes] at small ⊢
      refine (turns_extractMember inside small).andThen fun _ _ =>
        .pure ⟨_, rfl⟩ ?_
      rw [Environment.bytesOf_some]
      exact congrArg (wordSize * ·) (measured.members _ _ inside)
  · exact .reported _ _

omit measured in
theorem turns_elementAddress (objectSpan indexSpan : Span) (pointer position : ValueType) :
    Addresses ctx (ctx.environment.bytesOf (some pointer) +
        ctx.environment.bytesOf (some position))
      (elementAddress objectSpan indexSpan (some pointer) (some position)) := by
  unfold elementAddress
  refine .ite (fun _ => .reported _ _) fun indexable => .ite (fun _ => .reported _ _)
    fun integral => ?_
  have points : pointer.isPointer := by simp_all
  rw [Environment.bytesOf_of_isPointer points,
    Environment.bytesOf_of_leavesOf (StructTable.leavesOf_of_isIntegral (by simp_all))]
  exact (turns_pop (by decide)).bind wordSize rfl fun _ _ => (turns_pop (by decide)).andThen
    fun _ _ => .look turns_environment fun _ _ => .look (turns_setNumber (by decide) _) fun _ _ =>
    .look (turns_emit rfl rfl rfl (by decide) rfl) fun _ _ =>
    .look (turns_emit rfl rfl rfl (by decide) rfl) fun _ _ => (turns_push _).andThen fun _ _ =>
    .pure ⟨_, rfl, element_ne_void points (by simp_all)⟩ rfl

omit measured in
theorem turns_pointed (span : Span) (type : ValueType) :
    Addresses ctx (ctx.environment.bytesOf (some type)) (pointed span (some type)) := by
  refine .ite (fun _ => .reported _ _) fun other => ?_
  have points : type.isPointer := by simp_all
  exact .pure ⟨_, rfl, element_ne_void points (by simp_all)⟩
    (Environment.bytesOf_of_isPointer points)

theorem turns_storeValue (span : Span) {place : ValueType} (placed : place ≠ .void)
    (value : ValueType) :
    Values ctx (wordSize + ctx.environment.bytesOf (some value))
      (storeValue span (some place) (some value)) := by
  refine .look (turns_fits span place value .assignment) fun fitting ⟨fits, same⟩ => ?_
  subst fits
  rw [same]
  refine .ite (fun _ => ?_) fun refused => absurd rfl refused
  have there : Placed (some place) := ⟨place, rfl, placed⟩
  split
  · next scalar =>
    have word : ctx.environment.bytesOf (some place) = wordSize :=
      Environment.bytesOf_of_leavesOf (StructTable.leavesOf_of_scalar placed scalar)
    rw [word]
    exact (turns_pop (by decide)).bind wordSize rfl fun _ _ => (turns_pop (by decide)).andThen
      fun _ _ => .look turns_environment fun _ _ =>
      .look (turns_emit rfl rfl rfl (by decide) rfl) fun _ _ => (turns_push _).andThen fun _ _ =>
      .pure ⟨place, rfl⟩ word.symm
  · exact .look turns_environment fun _ _ =>
      .look (turns_emitNumber rfl rfl rfl (.inl (by decide)) rfl) fun _ _ =>
      (turns_popTo measured .b 0 there).bind wordSize rfl fun _ _ =>
      (turns_pop (by decide)).andThen fun _ _ =>
      (turns_pushFrom measured .b 0 there).andThen fun _ _ => .pure ⟨place, rfl⟩ rfl

/-- What a call relies on of who is called. -/
structure Callee.Callable (ctx : FunctionContext) (callee : Callee) : Prop where
  params : ∀ type ∈ callee.params, Placed type
  offsets : callee.params.length ≤ callee.offsets.length
  result : ∃ type, callee.result = some type
  block : callee.block < 2 ^ 31
  reserve : ctx.Loose ∨ ctx.environment.bytesOf callee.result + callee.block ≤ 2 ^ 31

omit measured in
theorem Callee.callable_native (native : Native) : Callee.Callable ctx
    ⟨native.params.map ValueType.ofText?, native.layout.offsets, ValueType.ofText? native.result,
      native.layout.block, .inl native⟩ := by
  refine ⟨fun type mem => ?_, ?_, ?_, ?_, .inr ?_⟩
  · exact native.placed_of_mem_params mem
  · cases native <;> decide
  · exact Option.isSome_iff_exists.mp (by cases native <;> decide)
  · cases native <;> decide
  · have result : ctx.environment.bytesOf (ValueType.ofText? native.result) ≤ wordSize := by
      cases native <;> first | exact Nat.le_refl wordSize | exact Nat.zero_le wordSize
    have block : native.layout.block ≤ 2 ^ 30 := by cases native <;> decide
    unfold wordSize at result
    dsimp only
    omega

theorem turns_callee? (span : Span) (name : Text) :
    Turns ctx 0 (callee? span name) (fun _ => 0)
      fun found => ∃ callee, found = some callee ∧ callee.Callable ctx := by
  refine .look turns_environment fun env same => ?_
  subst same
  split
  · next native _ => exact .pure ⟨_, rfl, Callee.callable_native native⟩ rfl
  · next index function _ found =>
    refine .ite (fun _ => .reported _ _) fun _ => .pure ⟨_, rfl, ?_⟩ rfl
    obtain ⟨⟨known, place⟩, inside, swapped⟩ := Option.map_eq_some_iff.mp found
    obtain ⟨rfl, rfl⟩ : place = index ∧ known = function := by simpa using swapped
    have listed : known ∈ ctx.environment.functions := by
      have there := List.mem_zipIdx_iff_getElem?.mp (List.mem_of_find?_eq_some inside)
      exact List.mem_of_getElem? there
    refine ⟨fun type mem => ?_, by simp, ⟨_, rfl⟩, measured.blocks known listed,
      Classical.or_iff_not_imp_left.mpr fun strict => measured.reserves strict known listed⟩
    obtain ⟨parameter, declared, rfl⟩ := List.mem_map.mp mem
    exact measured.sound.params known listed parameter declared
  · exact .reported _ _

/-- The bytes of some values on the operand stack. -/
def bytesOfAll (ctx : FunctionContext) (types : List (Option ValueType)) : Nat :=
  (types.map ctx.environment.bytesOf).sum

theorem turns_popArguments (distance : Int) {arguments : List (Option ValueType × Nat)}
    (placed : ∀ argument ∈ arguments, Placed argument.1) :
    Turns ctx (bytesOfAll ctx (arguments.map Prod.fst)) (popArguments distance arguments)
      fun _ => 0 := by
  induction arguments with
  | nil => exact .pure trivial rfl
  | cons argument arguments ih =>
    refine (turns_popTo measured .b _ (placed argument (by simp))).bind
      (bytesOfAll ctx (arguments.map Prod.fst)) ?_ fun _ _ =>
      ih fun other mem => placed other (by simp [mem])
    simp only [bytesOfAll, List.map_cons, List.sum_cons]
    omega

omit measured in
theorem turns_reserveCall {callee : Callee} (callable : callee.Callable ctx) :
    Turns ctx 0 (reserveCall callee)
      fun _ => ctx.environment.bytesOf callee.result + callee.block := by
  refine .look turns_environment fun env same => ?_
  subst same
  refine .ite (fun _ => turns_reserve callable.reserve) fun none => .pure trivial ?_
  unfold Environment.bytesOf
  omega

omit measured in
/-- The call itself moves nothing on the stack, whatever is called. -/
theorem turns_target {before : Nat} {rest : Generate (Option ValueType)} (target : Native ⊕ Nat)
    (follows : Values ctx before rest) : Values ctx before (do
      match target with
      | .inl native => change (·.emitNativeCall native.id)
      | .inr index => change (·.emitCall (some index))
      rest) := by
  cases target with
  | inl native =>
    exact .look (turns_change (Piece.moves_emitImmediate rfl rfl rfl rfl _) rfl) fun _ _ => follows
  | inr index => exact .look (turns_change (Piece.moves_emitCall _) rfl) fun _ _ => follows

theorem turns_finishCall {callee : Callee} (known : callee.Callable ctx) {pushed : Nat}
    (all : pushed = bytesOfAll ctx callee.params) :
    Values ctx (ctx.environment.bytesOf callee.result + callee.block + pushed)
      (finishCall callee pushed true) := by
  obtain ⟨type, result⟩ := known.result
  have release : Values ctx (ctx.environment.bytesOf callee.result + callee.block) (do
      if 0 < callee.block then increase .stackPointer callee.block
      return callee.result) := by
    refine .ite (fun _ => ?_) fun none => .pure ⟨type, result⟩ (by omega)
    exact (turns_giveUp known.block).bind _ rfl fun _ _ => .pure ⟨type, result⟩ rfl
  have finish := turns_target callee.target release
  have zipped : (callee.params.zip callee.offsets).reverse.map Prod.fst =
    callee.params.reverse := by
    rw [List.map_reverse, List.map_fst_zip known.offsets]
  have moved : Turns ctx pushed (popArguments pushed (callee.params.zip callee.offsets).reverse)
      fun _ => 0 := by
    refine (turns_popArguments measured _ fun argument mem => ?_).congr ?_ fun _ _ => rfl
    · exact known.params _ (List.of_mem_zip (List.mem_reverse.mp mem)).1
    · rw [zipped, all]
      simp [bytesOfAll]
  refine .ite (fun _ => ?_) fun other => absurd rfl other
  refine .ite (fun _ => ?_) fun none => ?_
  · exact .look (turns_emit rfl rfl rfl (by decide) rfl) fun _ _ => moved.bind _ rfl fun _ _ =>
      finish
  · rw [Nat.eq_zero_of_not_pos none]
    exact finish

omit measured in
theorem turns_emitOperation (op : BinaryOp) (control : Control) :
    Turns ctx 0 (emit (operation op).1 .a .d control.code) fun _ => 0 :=
  turns_emit (by cases op <;> rfl) (by cases op <;> rfl) (by cases op <;> rfl)
    (by cases op <;> decide) (by cases op <;> rfl)

omit measured in
theorem turns_pointerOperation (span : Span) (op : BinaryOp) (left right : ValueType) :
    Values ctx 0 (pointerOperation span op left right) := by
  refine .ite (fun _ => ?_) fun _ => .ite (fun points => ?_) fun _ => turns_refuse _ _
  · exact .look (turns_emitOperation op .word) fun _ _ => (turns_push _).andThen fun _ _ =>
      .pure ⟨_, rfl⟩ rfl
  · exact .look turns_environment fun _ _ => .look (turns_setNumber (by decide) _) fun _ _ =>
      .look (turns_emit rfl rfl rfl (by decide) rfl) fun _ _ =>
      .look (turns_emitOperation op .word) fun _ _ => (turns_push _).andThen fun _ _ =>
      .pure ⟨_, rfl⟩ (Environment.bytesOf_of_isPointer points.2.1).symm

omit measured in
theorem turns_numberOperation (op : BinaryOp) (left right : ValueType) :
    Values ctx 0 (numberOperation op left right) := by
  have finish : ∀ (control : Control) (result : ValueType),
      ctx.environment.bytesOf (some result) = wordSize → Values ctx 0 (do
        emit (operation op).1 .a .d control.code
        push .a
        return some (if (operation op).2 then .bool else result)) := by
    refine fun control result word => .look (turns_emitOperation op control) fun _ _ =>
      (turns_push _).andThen fun _ _ => .pure ⟨_, rfl⟩ ?_
    split
    · rfl
    · exact word.symm
  have convert : ∀ reg : Register, reg ≠ .stackPointer →
      Turns ctx 0 (convert .intToSingle reg) fun _ => 0 := fun reg other =>
    turns_emit rfl rfl rfl (by decide)
      (by simp [Instruction.setsPointer, Instruction.strays, other])
  unfold numberOperation
  refine .ite (fun _ => ?_) fun _ => .ite (fun bytes => finish _ _ ?_) fun _ => finish _ _ rfl
  · have second : Values ctx 0 (do
        if right ≠ .float then Generate.convert .intToSingle .d
        emit (operation op).1 .a .d Control.single.code
        push .a
        return some (if (operation op).2 then ValueType.bool else .float)) :=
      .ite (fun _ => .look (convert _ (by decide)) fun _ _ => finish _ _ rfl) fun _ =>
        finish _ _ rfl
    exact .ite (fun _ => .look (convert _ (by decide)) fun _ _ => second) fun _ => second
  · have byte : left = .char ∨ left = .bool := by
      simp only [ValueType.isByte, Bool.and_eq_true, decide_eq_true_eq] at bytes
      exact bytes.1
    rcases byte with rfl | rfl <;> rfl

omit measured in
theorem turns_binaryOperation (span : Span) (op : BinaryOp) (left right : ValueType) :
    Values ctx (ctx.environment.bytesOf (some left) +
        ctx.environment.bytesOf (some right))
      (binaryOperation span op (some left) (some right)) := by
  refine .look turns_environment fun env same => ?_
  subst same
  refine .ite (fun _ => .reported _ _) fun words => ?_
  obtain ⟨first, second⟩ := not_or.mp words
  rw [Environment.bytesOf_of_leavesOf (Decidable.not_not.mp first),
    Environment.bytesOf_of_leavesOf (Decidable.not_not.mp second)]
  exact (turns_pop (by decide)).bind wordSize rfl fun _ _ => (turns_pop (by decide)).andThen
    fun _ _ => .ite (fun _ => turns_pointerOperation _ _ _ _) fun _ =>
    .ite (fun _ => turns_numberOperation _ _ _) fun _ => turns_refuse _ _

omit measured in
theorem turns_negate (span : Span) (type : ValueType) :
    Values ctx (ctx.environment.bytesOf (some type)) (negate span (some type)) := by
  unfold negate
  dsimp only
  split
  · exact .reported _ _
  · next control found =>
    have word : ctx.environment.bytesOf (some type) = wordSize := by
      split at found
      · next same => rw [same]; rfl
      · split at found
        · next same => rw [same]; rfl
        · split at found
          · next same => rw [same]; rfl
          · contradiction
    rw [word]
    exact (turns_pop (by decide)).andThen fun _ _ => .look (turns_setNumber (by decide) _)
      fun _ _ => .look (turns_emit rfl rfl rfl (by decide) rfl) fun _ _ =>
      (turns_push _).andThen fun _ _ => .pure ⟨type, rfl⟩ word.symm

omit measured in
theorem turns_not (first second : Register) (other : first ≠ .stackPointer) :
    Turns ctx 0 (emit .not first second) fun _ => 0 :=
  turns_emit rfl rfl rfl (by decide) (by simp [Instruction.setsPointer, Instruction.strays, other])

omit measured in
theorem turns_invert (span : Span) (type : ValueType) :
    Values ctx (ctx.environment.bytesOf (some type)) (invert span (some type)) := by
  refine .look turns_environment fun env same => ?_
  subst same
  refine .ite (fun _ => .reported _ _) fun words => ?_
  rw [Environment.bytesOf_of_leavesOf (Decidable.not_not.mp (not_or.mp words).1)]
  exact (turns_pop (by decide)).andThen fun _ _ => .look (turns_not _ _ (by decide)) fun _ _ =>
    (turns_push _).andThen fun _ _ => .pure ⟨_, rfl⟩ rfl

omit measured in
theorem turns_stepPlace (span : Span) (op : StepOp) (early : Bool) (type : ValueType) :
    Values ctx wordSize (stepPlace span op early (some type)) := by
  refine .ite (fun counted => .look turns_environment fun env _ => ?_) fun _ => .reported _ _
  have word : ctx.environment.bytesOf (some type) = wordSize := by
    rcases counted with rfl | rfl <;> rfl
  have finish : ∀ distance : Int, Values ctx (if early then 0 else wordSize) (do
      increase .a distance
      emit .store .b .a (env.structs.sizeOf type).toUInt8
      if early then push .a
      return some type) := by
    refine fun distance => .look (turns_increase (by decide) _) fun _ _ =>
      .look (turns_emit rfl rfl rfl (by decide) rfl) fun _ _ => ?_
    cases early with
    | true => exact (turns_push _).andThen fun _ _ => .pure ⟨type, rfl⟩ word.symm
    | false => exact .pure ⟨type, rfl⟩ word.symm
  refine (turns_pop (by decide)).andThen fun _ _ =>
    .look (turns_emit rfl rfl rfl (by decide) rfl) fun _ _ => ?_
  cases early with
  | true => exact finish _
  | false => exact (turns_push _).andThen fun _ _ => finish _

omit measured in
theorem turns_castValue (span : Span) (type source : ValueType) :
    Values ctx (ctx.environment.bytesOf (some source))
      (castValue span type (some source)) := by
  have word : ∀ {other : ValueType}, other.isIntegral →
      ctx.environment.bytesOf (some other) = wordSize :=
    fun integral => Environment.bytesOf_of_leavesOf (StructTable.leavesOf_of_isIntegral integral)
  have converted : ∀ conversion : Conversion, ctx.environment.bytesOf (some type) = wordSize →
      Values ctx wordSize (do
        pop .a
        convert conversion .a
        push .a
        return some type) := fun conversion one => (turns_pop (by decide)).andThen fun _ _ =>
    .look (turns_emit rfl rfl rfl (by decide) rfl) fun _ _ => (turns_push _).andThen fun _ _ =>
    .pure ⟨type, rfl⟩ one.symm
  refine .ite (fun same => .pure ⟨type, rfl⟩ (by rw [same])) fun _ =>
    .ite (fun points => .pure ⟨type, rfl⟩ ?_) fun _ => .ite (fun integral => ?_) fun _ =>
    .ite (fun single => ?_) fun _ => .ite (fun whole => ?_) fun _ => .reported _ _
  · obtain ⟨first, second⟩ := Bool.and_eq_true _ _ ▸ points
    rw [Environment.bytesOf_of_isPointer first, Environment.bytesOf_of_isPointer second]
  · obtain ⟨first, second⟩ := Bool.and_eq_true _ _ ▸ integral
    rw [word first]
    exact .ite (fun _ => (turns_pop (by decide)).andThen fun _ _ =>
      .look (turns_not _ _ (by decide)) fun _ _ => .look (turns_not _ _ (by decide)) fun _ _ =>
      (turns_push _).andThen fun _ _ => .pure ⟨type, rfl⟩ (word second).symm)
      fun _ => .pure ⟨type, rfl⟩ (word second).symm
  · obtain ⟨rfl, rfl⟩ := single
    exact converted _ rfl
  · obtain ⟨rfl, rfl⟩ := whole
    exact converted _ rfl

omit measured in
theorem turns_writtenType (type : TypeExpr) :
    Turns ctx 0 (writtenType type) (fun _ => 0)
      fun found => ∃ known, found = some known ∧ ctx.environment.resolve? type = some known := by
  refine .look turns_environment fun env same => ?_
  subst same
  split
  · next known named => exact .pure ⟨known, rfl, named⟩ rfl
  · exact .reported _ _

omit measured

mutual

/-- The code of an expression leaves its value on the operand stack. -/
theorem turns_expr (measured : ctx.Measured) (value : Expr) : Values ctx 0 (expr value) := by
  cases value with
  | name span name => exact turns_nameValue measured span name
  | call span name arguments =>
    unfold expr
    refine .look (turns_callee? measured span name) fun found ⟨callee, same, callable⟩ => ?_
    subst same
    refine .ite (fun _ => turns_refuse _ _) fun counted => ?_
    refine (turns_reserveCall callable).andThen fun _ _ => ?_
    refine (turns_callArguments measured name arguments callee.params callable.params
      (Decidable.not_not.mp counted)).onTop fun result ⟨fitting, all⟩ => ?_
    obtain ⟨pushed, fits⟩ := result
    obtain rfl : fits = true := fitting
    exact turns_finishCall measured callable all
  | binary span op left right =>
    unfold expr
    refine (turns_expr measured left).andThen fun found ⟨first, same⟩ => ?_
    subst same
    refine (turns_expr measured right).onTop fun found ⟨second, same⟩ => ?_
    subst same
    exact turns_binaryOperation _ _ _ _
  | unary span op operand =>
    cases op with
    | negate =>
      have general : Values ctx 0 (do negate span (← expr operand)) := by
        refine (turns_expr measured operand).andThen fun found ⟨type, same⟩ => ?_
        subst same
        exact turns_negate _ _
      cases operand with
      | int | float =>
        unfold expr
        exact turns_literal rfl
      | _ =>
        unfold expr
        exact general
    | not =>
      unfold expr
      refine (turns_expr measured operand).andThen fun found ⟨type, same⟩ => ?_
      subst same
      exact turns_invert _ _
    | address =>
      unfold expr
      refine (turns_address measured operand).andThen fun found placed => ?_
      obtain ⟨type, rfl, -⟩ := placed
      exact .pure ⟨type.pointerTo, rfl⟩
        (Environment.bytesOf_of_isPointer (by simp [ValueType.isPointer, ValueType.pointerTo])).symm
    | deref =>
      unfold expr
      refine (turns_expr measured operand).andThen fun found ⟨type, same⟩ => ?_
      subst same
      refine (turns_pointed span type).andThen fun place placed => ?_
      exact turns_loadValue measured placed
  | step span op early operand =>
    unfold expr
    refine (turns_address measured operand).andThen fun found placed => ?_
    obtain ⟨type, rfl, -⟩ := placed
    exact turns_stepPlace _ _ _ _
  | assign span target value =>
    unfold expr
    refine (turns_address measured target).andThen fun found placed => ?_
    obtain ⟨place, rfl, nonvoid⟩ := placed
    refine (turns_expr measured value).onTop fun found ⟨type, same⟩ => ?_
    subst same
    refine (turns_coerce type (some place)).bind wordSize rfl fun found ⟨given, same⟩ => ?_
    subst same
    exact turns_storeValue measured _ nonvoid _
  | member span object name =>
    unfold expr
    refine .look (turns_addressable measured object) fun _ _ => .ite (fun _ => ?_) fun _ => ?_
    · refine (turns_address measured object).andThen fun found placed => ?_
      obtain ⟨type, rfl, -⟩ := placed
      exact (turns_memberOfPlace measured span name type).andThen fun place placed =>
        turns_loadValue measured placed
    · refine (turns_expr measured object).andThen fun found ⟨type, same⟩ => ?_
      subst same
      exact turns_memberOfValue measured _ _ _
  | index span object position =>
    unfold expr
    refine (turns_expr measured object).andThen fun found ⟨pointer, same⟩ => ?_
    subst same
    refine (turns_expr measured position).onTop fun found ⟨index, same⟩ => ?_
    subst same
    exact (turns_elementAddress _ _ _ _).andThen fun place placed =>
      turns_loadValue measured placed
  | cast span type value =>
    unfold expr
    refine .look (turns_writtenType type) fun found ⟨written, same, _⟩ => ?_
    subst same
    refine (turns_expr measured value).andThen fun found ⟨source, same⟩ => ?_
    subst same
    exact turns_castValue _ _ _
  | sizeof span type =>
    unfold expr
    refine .look (turns_writtenType type) fun found ⟨written, same, _⟩ => ?_
    subst same
    exact .look turns_environment fun _ _ => (turns_pushNumber _).andThen fun _ _ =>
      .pure ⟨_, rfl⟩ rfl
  | int | float | string | character | bool | null => exact turns_literal rfl

theorem turns_callArguments (measured : ctx.Measured) (name : Text) (arguments : List Expr)
    (types : List (Option ValueType)) (placed : ∀ type ∈ types, Placed type)
    (counted : arguments.length = types.length) :
    Turns ctx 0 (callArguments name arguments types) Prod.fst
      fun result => result.2 = true ∧ result.1 = bytesOfAll ctx types := by
  cases arguments with
  | nil =>
    cases types with
    | nil => exact .pure ⟨rfl, rfl⟩ rfl
    | cons => simp at counted
  | cons argument arguments =>
    cases types with
    | nil => simp at counted
    | cons type types =>
      obtain ⟨place, rfl, nonvoid⟩ := placed type (by simp)
      unfold callArguments
      refine (turns_expr measured argument).andThen fun found ⟨source, same⟩ => ?_
      subst same
      refine (turns_coerce source (some place)).andThen
        fun found ⟨given, same⟩ => ?_
      subst same
      refine .look turns_environment fun env same => ?_
      subst same
      refine .look (turns_fits argument.span place given _) fun fitting ⟨fits, even⟩ => ?_
      subst fits
      refine (turns_callArguments measured name arguments types
        (fun other mem => placed other (by simp [mem])) (by simpa using counted)).onTop
        fun result ⟨others, all⟩ => .pure ⟨by simp [others], ?_⟩ ?_
      · show ctx.environment.bytesOf (some given) + result.1 = _
        rw [all, even]
        exact (List.sum_cons ..).symm
      · rfl

theorem turns_address (measured : ctx.Measured) (value : Expr) :
    Addresses ctx 0 (address value) := by
  cases value with
  | name span name => exact turns_nameAddress measured span name
  | member span object name =>
    unfold address
    refine .look (turns_addressable measured object) fun _ _ => .ite (fun _ => ?_) fun _ => ?_
    · refine (turns_address measured object).andThen fun found placed => ?_
      obtain ⟨type, rfl, -⟩ := placed
      exact turns_memberOfPlace measured span name type
    · refine (turns_expr measured object).andThen fun found ⟨type, same⟩ => ?_
      subst same
      exact turns_memberOfPointer measured _ _ _
  | index span object position =>
    unfold address
    refine (turns_expr measured object).andThen fun found ⟨pointer, same⟩ => ?_
    subst same
    refine (turns_expr measured position).onTop fun found ⟨index, same⟩ => ?_
    subst same
    exact turns_elementAddress _ _ _ _
  | unary span op operand =>
    cases op with
    | deref =>
      unfold address
      refine (turns_expr measured operand).andThen fun found ⟨type, same⟩ => ?_
      subst same
      exact turns_pointed span type
    | _ => exact turns_refuse _ _
  | _ => exact turns_refuse _ _

end

end TinLang.Generate
