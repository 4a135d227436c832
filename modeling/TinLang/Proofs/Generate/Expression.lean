import TinLang.Compile.Expression
import TinLang.Proofs.Generate.Invariant

/-!
# What generating an expression keeps

The code of an expression is made of steps that keep the invariant of `Generate.Keeps`. Its
problems are reported where the nodes of the expression start, and the strings it stores are the
literals in it and in the constants it names.
-/
namespace TinLang.Generate

variable {span : Span} {starts : List Position} {strings : List Text}

variable {ground : Ground} {file : SourceFile}

theorem keeps_literal {expr : Expr} (admitted : ground.Admitted expr) :
    Keeps ground file (literal expr) ground.Knows := by
  have number : ∀ (value : Int) (type : ValueType),
      Keeps ground file (do pushNumber value; return some type) ground.Knows :=
    fun value type => (keeps_pushNumber value).next fun _ => .pure (.some type)
  unfold literal
  split
  case h_3 span value =>
    refine (keeps_stringOffset (admitted.1 value (by simp [Expr.strings]))).next fun offset => ?_
    exact (keeps_setDataAddress (by decide) _).next fun _ => (keeps_push (by decide)).next fun _ =>
      .pure (.some _)
  case h_9 =>
    refine .pure fun typed => ?_
    have literal := admitted.2 typed
    unfold Expr.literalType? at literal
    split at literal <;> simp_all
  all_goals exact number _ _

theorem keeps_constantValue {constant : Constant} (admitted : ground.Admitted constant.value) :
    Keeps ground file (constantValue constant) ground.Knows :=
  (keeps_literal admitted).bind fun _ known =>
    (keeps_coerce _ _).mono fun _ follows => follows known

theorem keeps_nameValue (name : Text) (place : ground.places file.name span.start) :
    Keeps ground file (nameValue span name) ground.Knows := by
  refine (keeps_meaning name).bind fun meaning known => ?_
  split
  · exact keeps_constantValue known
  · exact (keeps_pushFrom (by decide) _ known).next fun _ =>
      .pure (Ground.Holds.addresses known).knows
  · exact (keeps_setDataAddress (by decide) _).next fun _ =>
      (keeps_pushFrom (by decide) _ known).next fun _ => .pure (.some _)
  · exact keeps_refuse _ place .of_past

theorem keeps_nameAddress (name : Text)
    (place : ground.places file.name span.start) :
    Keeps ground file (nameAddress span name) ground.Addresses := by
  refine (keeps_meaning name).bind fun meaning known => ?_
  split
  · exact keeps_refuse _ place .of_past
  · exact (keeps_emit (by decide)).next fun _ => (keeps_increase (by decide) _).next fun _ =>
      (keeps_push (by decide)).next fun _ => .pure (Ground.Holds.addresses known)
  · exact (keeps_setDataAddress (by decide) _).next fun _ => (keeps_push (by decide)).next fun _ =>
      .pure (Ground.Holds.addresses known)
  · exact keeps_refuse _ place .of_past

theorem keeps_addressable (expr : Expr) : Keeps ground file (addressable expr) := by
  fun_induction addressable expr with
  | case1 span name =>
    refine (keeps_meaning name).bind fun meaning _ => ?_
    split <;> exact .pure trivial
  | case2 _ _ _ ih => exact ih
  | case3 | case4 | case5 => exact .pure trivial

theorem keeps_loadValue {type : Option ValueType} (addresses : ground.Addresses type) :
    Keeps ground file (loadValue type) ground.Knows := by
  refine .ite (fun known => ?_) fun _ => .pure addresses.knows
  obtain ⟨found, rfl⟩ := Option.isSome_iff_exists.mp known
  exact (keeps_pop (by decide)).next fun _ =>
    (keeps_pushFrom (by decide) _ addresses.holds).next fun _ => .pure (.some _)

/-- A problem is reported and a value dropped. -/
theorem keeps_drop {yields : Option ValueType → Prop} (cause : ProblemCause)
    (type : Option ValueType) (place : ground.places file.name span.start)
    {value : Option ValueType} (yielded : ground.past → yields value) :
    Keeps ground file (do report span cause; discard type; return value) yields :=
  (keeps_report _ place).bind fun _ past => (keeps_discard _).next fun _ => .pure (yielded past)

theorem keeps_dropWord {yields : Option ValueType → Prop} (cause : ProblemCause)
    (place : ground.places file.name span.start) {value : Option ValueType}
    (yielded : ground.past → yields value) :
    Keeps ground file (do report span cause; discardWord; return value) yields :=
  (keeps_report _ place).bind fun _ past => keeps_discardWord.next fun _ => .pure (yielded past)

/-- A member of a struct is a place. -/
theorem holds_member {struct name : Text} {mem : Member}
    (found : (ground.context.environment.structs.get struct).member? name = some mem) :
    ground.Holds (some mem.type) :=
  fun typed => ⟨_, rfl, (ground.sound typed).structs.member? found⟩

theorem keeps_memberAddress (name : Text) (object : Option ValueType)
    (place : ground.places file.name span.start) (known : ground.Knows object) :
    Keeps ground file (memberAddress span name object) ground.Addresses := by
  unfold memberAddress
  cases object with
  | none => exact .pure (.none known)
  | some type =>
    dsimp only
    split
    · exact keeps_dropWord _ place .of_past
    · refine keeps_environment.bind fun env same => ?_
      subst same
      split
      · exact keeps_dropWord _ place .of_past
      · next mem found =>
        exact .ite (fun _ => (keeps_pop (by decide)).next fun _ =>
          (keeps_increase (by decide) _).next fun _ => (keeps_push (by decide)).next fun _ =>
          .pure (holds_member found).addresses) fun _ => .pure (holds_member found).addresses

theorem keeps_memberOfPlace (name : Text) (object : Option ValueType)
    (place : ground.places file.name span.start) (known : ground.Knows object) :
    Keeps ground file (memberOfPlace span name object) ground.Addresses := by
  unfold memberOfPlace
  split
  · exact (keeps_pop (by decide)).next fun _ => (keeps_emitNumber (by decide)).next fun _ =>
      (keeps_push (by decide)).next fun _ => keeps_memberAddress _ _ place (.some _)
  · exact keeps_memberAddress _ _ place known

theorem keeps_memberOfPointer (name : Text) (object : Option ValueType)
    (place : ground.places file.name span.start) (known : ground.Knows object) :
    Keeps ground file (memberOfPointer span name object) ground.Addresses := by
  unfold memberOfPointer
  cases object with
  | none => exact .pure (.none known)
  | some type =>
    dsimp only
    split
    · exact keeps_memberAddress _ _ place (.some _)
    · exact keeps_drop _ _ place .of_past
    · exact keeps_drop _ _ place .of_past

theorem keeps_copyLeaves (total first : Nat) (indices : List Nat) :
    Keeps ground file (copyLeaves total first indices) := by
  induction indices with
  | nil => exact .pure trivial
  | cons index indices ih =>
    exact .ite (fun _ => (keeps_emitNumber (by decide)).next fun _ =>
      (keeps_emitNumber (by decide)).next fun _ => ih) fun _ => ih

theorem keeps_extractMember (struct : StructType) (mem : Member) :
    Keeps ground file (extractMember struct mem) :=
  (keeps_copyLeaves _ _ _).next fun _ => .ite (fun _ => keeps_increase (by decide) _) fun _ =>
    .pure trivial

theorem keeps_memberOfValue (name : Text) (object : Option ValueType)
    (place : ground.places file.name span.start) (known : ground.Knows object) :
    Keeps ground file (memberOfValue span name object) ground.Knows := by
  refine keeps_environment.bind fun env same => ?_
  subst same
  cases object with
  | none => exact .pure known
  | some type =>
    dsimp only
    split
    · split
      · exact keeps_dropWord _ place .of_past
      · next mem found =>
        exact (keeps_pop (by decide)).next fun _ =>
          (keeps_pushFrom (by decide) _ (holds_member found)).next fun _ => .pure (.some _)
    · split
      · exact keeps_drop _ _ place .of_past
      · exact (keeps_extractMember _ _).next fun _ => .pure (.some _)
    · exact keeps_drop _ _ place .of_past

/-- What a pointer points to is a place unless the pointer is one to void. -/
theorem element_ne_void {type : ValueType} (pointer : type.isPointer)
    (other : type ≠ .voidPointer) : type.element ≠ .void := by
  obtain ⟨base, pointers⟩ := type
  intro same
  simp only [ValueType.element, ValueType.void, ValueType.mk.injEq] at same
  simp only [ValueType.isPointer, decide_eq_true_eq] at pointer
  refine other ?_
  rw [same.1, show pointers = 1 by omega]
  rfl

theorem keeps_elementAddress {objectSpan indexSpan : Span} (object index : Option ValueType)
    (objectPlace : ground.places file.name objectSpan.start)
    (indexPlace : ground.places file.name indexSpan.start) (known : ground.Knows object)
    (known' : ground.Knows index) :
    Keeps ground file (elementAddress objectSpan indexSpan object index) ground.Addresses := by
  unfold elementAddress
  split
  · next pointer position =>
    refine .ite (fun _ => ?_) fun indexable => .ite (fun _ => ?_) fun _ => ?_
    · exact (keeps_report _ objectPlace).bind fun _ past => (keeps_discard _).next fun _ =>
        (keeps_discard _).next fun _ => .pure (.of_past past)
    · exact (keeps_report _ indexPlace).bind fun _ past => (keeps_discard _).next fun _ =>
        (keeps_discard _).next fun _ => .pure (.of_past past)
    · have points : ground.Holds (some pointer.element) := fun _ =>
        ⟨_, rfl, element_ne_void (by simp_all) (by simp_all)⟩
      exact (keeps_pop (by decide)).next fun _ => (keeps_pop (by decide)).next fun _ =>
        keeps_environment.bind fun _ _ => (keeps_setNumber (by decide) _).next fun _ =>
        (keeps_emit (by decide)).next fun _ => (keeps_emit (by decide)).next fun _ =>
        (keeps_push (by decide)).next fun _ => .pure points.addresses
  · next other =>
    exact (keeps_discard _).next fun _ => (keeps_discard _).next fun _ =>
      .pure (.none (known.both known' other))

theorem keeps_pointed (pointer : Option ValueType)
    (place : ground.places file.name span.start) (known : ground.Knows pointer) :
    Keeps ground file (pointed span pointer) ground.Addresses := by
  unfold pointed
  cases pointer with
  | none => exact .pure (.none known)
  | some type =>
    refine .ite (fun _ => keeps_drop _ _ place .of_past) fun points => .pure ?_
    exact Ground.Holds.addresses fun _ => ⟨_, rfl, element_ne_void (by simp_all) (by simp_all)⟩

theorem keeps_storeValue {target : Option ValueType} (value : Option ValueType)
    (place : ground.places file.name span.start) (addresses : ground.Addresses target)
    (known : ground.Knows value) : Keeps ground file (storeValue span target value)
    ground.Knows := by
  unfold storeValue
  split
  · next type _ =>
    refine (keeps_fits _ _ _ place).bind fun fitting fits => .ite (fun _ => ?_) fun refused => ?_
    · split
      · next scalar =>
        have fine : ∀ table : StructTable,
            ground.Emitted ⟨.store, .b, .a, (table.sizeOf type).toUInt8⟩ := fun table typed =>
          ⟨(by decide : Register.b ∈ Register.named), (by decide : Register.a ∈ Register.named),
            StructTable.accessible_sizeOf (addresses.nonvoid typed type rfl) scalar⟩
        exact (keeps_pop (by decide)).next fun _ => (keeps_pop (by decide)).next fun _ =>
          keeps_environment.bind fun _ _ => (keeps_emitTyped rfl rfl (fine _)).next fun _ =>
          (keeps_push (by decide)).next fun _ => .pure (.some _)
      · exact keeps_environment.bind fun _ _ => (keeps_emitNumber (by decide)).next fun _ =>
          (keeps_popTo (by decide) _ addresses.holds).next fun _ => (keeps_pop (by decide)).next
          fun _ => (keeps_pushFrom (by decide) _ addresses.holds).next fun _ => .pure (.some _)
    · exact (keeps_discard _).next fun _ => keeps_discardWord.next fun _ =>
        .pure ((fits addresses.knows known).imp fun fitting => absurd fitting refused)
  · next other =>
    have lost : ground.Knows none := addresses.knows.both known other
    exact (keeps_discard _).next fun _ => .ite (fun _ => keeps_discardWord.next fun _ =>
      .pure lost) fun _ => .pure lost

/-- A called function is one of the program, parameters are places and the result has a type. -/
structure Callee.Known (ground : Ground) (callee : Callee) : Prop where
  target : ∀ index, callee.target = .inr index → index < ground.functions
  params : ∀ type ∈ callee.params, ground.Holds type
  result : ground.Knows callee.result

theorem keeps_callee? (name : Text) (place : ground.places file.name span.start) :
    Keeps ground file (callee? span name) fun found =>
      (found = none → ground.past) ∧ ∀ callee, found = some callee → callee.Known ground := by
  refine keeps_environment.bind fun env same => ?_
  subst same
  split
  · next native _ =>
    refine .pure ⟨by simp, fun callee same => ?_⟩
    obtain rfl := Option.some.inj same
    have result : (ValueType.ofText? native.result).isSome := by cases native <;> decide
    refine ⟨fun index native => by simp at native, fun type mem _ => ?_, fun _ => .inl result⟩
    exact native.placed_of_mem_params mem
  · next index function _ found =>
    refine .ite (fun _ => ?_) fun _ => ?_
    · exact (keeps_report _ place).bind fun _ past => .pure ⟨fun _ => past, by simp⟩
    · refine .pure ⟨by simp, fun callee same => ?_⟩
      obtain rfl := Option.some.inj same
      obtain ⟨⟨known, place⟩, inside, swapped⟩ := Option.map_eq_some_iff.mp found
      obtain ⟨rfl, rfl⟩ : place = index ∧ known = function := by simpa using swapped
      have listed := List.mem_zipIdx_iff_getElem?.mp (List.mem_of_find?_eq_some inside)
      refine ⟨fun which target => ?_, fun type mem typed => ?_, .some _⟩
      · obtain rfl := Sum.inr.inj target
        exact (List.getElem?_eq_some_iff.mp listed).1
      · obtain ⟨parameter, declared, rfl⟩ := List.mem_map.mp mem
        exact (ground.sound typed).params known (List.mem_of_getElem? listed) parameter declared
  · exact (keeps_report _ place).bind fun _ past => .pure ⟨fun _ => past, by simp⟩

theorem keeps_popArguments (distance : Int) {arguments : List (Option ValueType × Nat)}
    (places : ∀ argument ∈ arguments, ground.Holds argument.1) :
    Keeps ground file (popArguments distance arguments) := by
  induction arguments with
  | nil => exact .pure trivial
  | cons argument arguments ih =>
    exact (keeps_popTo (by decide) _ (places argument (by simp))).next fun _ =>
      ih fun other mem => places other (by simp [mem])

theorem keeps_reserveCall (callee : Callee) : Keeps ground file (reserveCall callee) :=
  keeps_environment.bind fun _ _ => .ite (fun _ => keeps_increase (by decide) _) fun _ =>
    .pure trivial

theorem keeps_finishCall {callee : Callee} (pushed : Nat) (fitting : Bool)
    (known : callee.Known ground) (fits : ground.Sure (fitting = true)) :
    Keeps ground file (finishCall callee pushed fitting) ground.Knows := by
  have release : Keeps ground file (do
      if 0 < callee.block then increase .stackPointer callee.block
      return callee.result) ground.Knows :=
    .ite (fun _ => (keeps_increase (by decide) _).next fun _ => .pure known.result)
      fun _ => .pure known.result
  have moved : Keeps ground file
      (popArguments pushed (callee.params.zip callee.offsets).reverse) :=
    keeps_popArguments _ fun argument mem =>
      known.params _ (List.of_mem_zip (List.mem_reverse.mp mem)).1
  unfold finishCall
  refine .ite (fun _ => ?_) fun refused => ?_
  · cases target : callee.target with
    | inl native =>
      have call := (keeps_change fun _ => Piece.extends_emitNativeCall native
        fun _ => by decide).next
        fun _ => release
      exact .ite (fun _ => (keeps_emit (by decide)).next fun _ => moved.next fun _ => call)
        fun _ => call
    | inr index =>
      have call := (keeps_change fun _ => Piece.extends_emitCall (known.target index target)
        fun _ => by decide).next
        fun _ => release
      exact .ite (fun _ => (keeps_emit (by decide)).next fun _ => moved.next fun _ => call)
        fun _ => call
  · have lost : ground.Knows none := fits.imp fun fitting => absurd fitting refused
    exact keeps_environment.bind fun _ _ => .ite (fun _ => (keeps_increase (by decide) _).next
      fun _ => .pure lost) fun _ => .pure lost

theorem keeps_emitOperation (op : BinaryOp) (control : Control) :
    Keeps ground file (emit (operation op).1 .a .d control.code) :=
  keeps_emit (by cases op <;> cases control <;> decide)

theorem keeps_pointerOperation (op : BinaryOp) (left right : ValueType)
    (place : ground.places file.name span.start) :
    Keeps ground file (pointerOperation span op left right) ground.Knows :=
  .ite (fun _ => (keeps_emitOperation op .word).next fun _ => (keeps_push (by decide)).next fun _ =>
    .pure (.some _)) fun _ => .ite (fun _ => keeps_environment.bind fun _ _ =>
      (keeps_setNumber (by decide) _).next fun _ => (keeps_emit (by decide)).next fun _ =>
      (keeps_emitOperation op .word).next fun _ => (keeps_push (by decide)).next fun _ =>
        .pure (.some _))
    fun _ => keeps_refuse _ place .of_past

theorem keeps_numberOperation (op : BinaryOp) (left right : ValueType) :
    Keeps ground file (numberOperation op left right) ground.Knows := by
  have finish : ∀ (control : Control) (result : ValueType), Keeps ground file (do
      emit (operation op).1 .a .d control.code
      push .a
      return some (if (operation op).2 then .bool else result)) ground.Knows :=
    fun control result => (keeps_emitOperation op control).next fun _ =>
      (keeps_push (by decide)).next fun _ =>
      .pure (.some _)
  unfold numberOperation
  refine .ite (fun _ => ?_) fun _ => .ite (fun _ => finish _ _) fun _ => finish _ _
  have second : Keeps ground file (do
      if right ≠ .float then convert .intToSingle .d
      emit (operation op).1 .a .d Control.single.code
      push .a
      return some (if (operation op).2 then ValueType.bool else .float)) ground.Knows :=
    .ite (fun _ => (keeps_convert (by decide) _).next fun _ => finish _ _) fun _ => finish _ _
  exact .ite (fun _ => (keeps_convert (by decide) _).next fun _ => second) fun _ => second

theorem keeps_binaryOperation (op : BinaryOp) (left right : Option ValueType)
    (place : ground.places file.name span.start) (known : ground.Knows left)
    (known' : ground.Knows right) :
    Keeps ground file (binaryOperation span op left right) ground.Knows := by
  unfold binaryOperation
  split
  · refine keeps_environment.bind fun _ _ => .ite (fun _ => ?_) fun _ => ?_
    · exact (keeps_report _ place).bind fun _ past => (keeps_discard _).next fun _ =>
        (keeps_discard _).next fun _ => .pure (.of_past past)
    · exact (keeps_pop (by decide)).next fun _ => (keeps_pop (by decide)).next fun _ =>
        .ite (fun _ => keeps_pointerOperation _ _ _ place) fun _ =>
        .ite (fun _ => keeps_numberOperation _ _ _) fun _ => keeps_refuse _ place .of_past
  · next other =>
    exact (keeps_discard _).next fun _ => (keeps_discard _).next fun _ =>
      .pure (known.both known' other)

theorem keeps_negate (operand : Option ValueType)
    (place : ground.places file.name span.start) (known : ground.Knows operand) :
    Keeps ground file (negate span operand) ground.Knows := by
  unfold negate
  cases operand with
  | none => exact .pure known
  | some type =>
    dsimp only
    split
    · exact keeps_drop _ _ place .of_past
    · next control _ =>
      exact (keeps_pop (by decide)).next fun _ => (keeps_setNumber (by decide) _).next fun _ =>
        (keeps_emit (by cases control <;> decide)).next fun _ => (keeps_push (by decide)).next
          fun _ => .pure (.some _)

theorem keeps_invert (operand : Option ValueType)
    (place : ground.places file.name span.start) (known : ground.Knows operand) :
    Keeps ground file (invert span operand) ground.Knows := by
  unfold invert
  cases operand with
  | none => exact .pure known
  | some type =>
    exact keeps_environment.bind fun _ _ => .ite (fun _ => keeps_drop _ _ place .of_past) fun _ =>
      (keeps_pop (by decide)).next fun _ => (keeps_emit (by decide)).next fun _ =>
        (keeps_push (by decide)).next fun _ =>
      .pure (.some _)

theorem keeps_stepPlace (op : StepOp) (early : Bool) (target : Option ValueType)
    (place : ground.places file.name span.start) (known : ground.Knows target) :
    Keeps ground file (stepPlace span op early target) ground.Knows := by
  unfold stepPlace
  cases target with
  | none => exact .pure known
  | some type =>
    refine .ite (fun counted => keeps_environment.bind fun env _ => ?_) fun _ =>
      keeps_dropWord _ place .of_past
    have accessible : Accessible (env.structs.sizeOf type) := by
      rcases counted with rfl | rfl
      · exact StructTable.accessible_sizeOf (by decide) rfl
      · exact StructTable.accessible_sizeOf (by decide) rfl
    have load : ground.Emitted ⟨.load, .a, .b, (env.structs.sizeOf type).toUInt8⟩ :=
      fun _ => ⟨(by decide : Register.a ∈ Register.named),
        (by decide : Register.b ∈ Register.named),
        accessible⟩
    have store : ground.Emitted ⟨.store, .b, .a, (env.structs.sizeOf type).toUInt8⟩ :=
      fun _ => ⟨(by decide : Register.b ∈ Register.named),
        (by decide : Register.a ∈ Register.named),
        accessible⟩
    have finish : ∀ distance : Int, Keeps ground file (do
        increase .a distance
        emit .store .b .a (env.structs.sizeOf type).toUInt8
        if early then push .a
        return some type) ground.Knows := fun distance => (keeps_increase (by decide) _).next
          fun _ =>
      (keeps_emitTyped rfl rfl store).next fun _ => .ite (fun _ => (keeps_push (by decide)).next
        fun _ => .pure (.some _)) fun _ => .pure (.some _)
    exact (keeps_pop (by decide)).next fun _ => (keeps_emitTyped rfl rfl load).next fun _ =>
      .ite (fun _ => (keeps_push (by decide)).next fun _ => finish _) fun _ => finish _

theorem keeps_castValue (type : ValueType) (value : Option ValueType)
    (place : ground.places file.name span.start) (known : ground.Knows value) :
    Keeps ground file (castValue span type value) ground.Knows := by
  have converted : ∀ conversion : Conversion, Keeps ground file (do
      pop .a
      convert conversion .a
      push .a
      return some type) ground.Knows := fun conversion => (keeps_pop (by decide)).next fun _ =>
    (keeps_convert (by decide) _).next fun _ => (keeps_push (by decide)).next fun _ =>
    .pure (.some _)
  unfold castValue
  cases value with
  | none => exact .pure known
  | some source =>
    refine .ite (fun _ => .pure (.some _)) fun _ => .ite (fun _ => .pure (.some _)) fun _ =>
      .ite (fun _ => .ite (fun _ => ?_) fun _ => .pure (.some _)) fun _ =>
      .ite (fun _ => converted _) fun _ => .ite (fun _ => converted _) fun _ =>
      keeps_drop _ _ place .of_past
    exact (keeps_pop (by decide)).next fun _ => (keeps_emit (by decide)).next fun _ =>
      (keeps_emit (by decide)).next fun _ => (keeps_push (by decide)).next fun _ => .pure (.some _)

theorem keeps_writtenType {type : TypeExpr} (place : ground.places file.name type.span.start) :
    Keeps ground file (writtenType type) ground.Knows := by
  refine keeps_environment.bind fun _ _ => ?_
  split
  · exact .pure (.some _)
  · exact keeps_refuse _ place .of_past

/-- Problems may be reported at some places of a file, and the program holds some strings. -/
def Admits (ground : Ground) (file : SourceFile) (starts : List Position) (strings : List Text) :
    Prop :=
  (∀ start ∈ starts, ground.places file.name start) ∧ ∀ text ∈ strings, ground.texts text

theorem Admits.start {expr : Expr} (admits : Admits ground file expr.starts expr.strings) :
    ground.places file.name expr.span.start :=
  admits.1 _ expr.start_mem_starts

theorem Admits.left {others : List Position} {texts : List Text}
    (admits : Admits ground file (starts ++ others) (strings ++ texts)) :
    Admits ground file starts strings :=
  ⟨fun start mem => admits.1 start (List.mem_append_left _ mem),
    fun text mem => admits.2 text (List.mem_append_left _ mem)⟩

theorem Admits.right {others : List Position} {texts : List Text}
    (admits : Admits ground file (starts ++ others) (strings ++ texts)) :
    Admits ground file others texts :=
  ⟨fun start mem => admits.1 start (List.mem_append_right _ mem),
    fun text mem => admits.2 text (List.mem_append_right _ mem)⟩

theorem Admits.tail {start : Position}
    (admits : Admits ground file (start :: starts) strings) : Admits ground file starts strings :=
  ⟨fun other mem => admits.1 other (List.mem_cons_of_mem _ mem), admits.2⟩

theorem Admits.head {start : Position}
    (admits : Admits ground file (start :: starts) strings) : ground.places file.name start :=
  admits.1 start (by simp)

mutual

theorem keeps_expr (value : Expr) (admits : Admits ground file value.starts value.strings) :
    Keeps ground file (expr value) ground.Knows := by
  cases value with
  | name span name => exact keeps_nameValue name admits.head
  | call span name arguments =>
    unfold expr
    refine (keeps_callee? name admits.head).bind fun found known => ?_
    split
    · exact .pure (.of_past (known.1 rfl))
    · next callee =>
      refine .ite (fun _ => keeps_refuse _ admits.head .of_past) fun _ => ?_
      refine (keeps_reserveCall _).next fun _ => ?_
      have known := known.2 callee rfl
      exact (keeps_callArguments name arguments callee.params admits.tail fun type mem =>
        (known.params type mem).addresses.knows).bind fun result => keeps_finishCall _ _ known
  | binary span op left right =>
    unfold expr
    exact (keeps_expr left admits.tail.left).bind fun _ known =>
      (keeps_expr right admits.tail.right).bind fun _ => keeps_binaryOperation _ _ _
        admits.head known
  | unary span op operand =>
    cases op with
    | negate =>
      have general : Keeps ground file (do negate span (← expr operand)) ground.Knows :=
        (keeps_expr operand admits.tail).bind fun _ => keeps_negate _ admits.head
      cases operand with
      | int | float =>
        unfold expr
        exact keeps_literal ⟨by simp [Expr.strings], fun _ => rfl⟩
      | _ =>
        unfold expr
        exact general
    | not =>
      unfold expr
      exact (keeps_expr operand admits.tail).bind fun _ => keeps_invert _ admits.head
    | address =>
      unfold expr
      refine (keeps_address operand admits.tail).bind fun type addresses => .pure ?_
      exact addresses.knows.imp fun known => by simpa using known
    | deref =>
      unfold expr
      exact (keeps_expr operand admits.tail).bind fun _ known =>
        (keeps_pointed _ admits.head known).bind fun _ => keeps_loadValue
  | step span op early operand =>
    unfold expr
    exact (keeps_address operand admits.tail).bind fun _ addresses =>
      keeps_stepPlace _ _ _ admits.head addresses.knows
  | assign span target value =>
    unfold expr
    exact (keeps_address target admits.tail.left).bind fun _ addresses =>
      (keeps_expr value admits.tail.right).bind fun _ known => (keeps_coerce _ _).bind
        fun _ follows =>
      keeps_storeValue _ admits.tail.right.start addresses (follows known)
  | member span object name =>
    unfold expr
    refine (keeps_addressable object).next fun _ => .ite (fun _ => ?_) fun _ => ?_
    · exact (keeps_address object admits.tail).bind fun _ addresses =>
        (keeps_memberOfPlace _ _ admits.head addresses.knows).bind fun _ => keeps_loadValue
    · exact (keeps_expr object admits.tail).bind fun _ => keeps_memberOfValue _ _ admits.head
  | index span object position =>
    unfold expr
    exact (keeps_expr object admits.tail.left).bind fun _ known =>
      (keeps_expr position admits.tail.right).bind fun _ known' =>
      (keeps_elementAddress _ _ admits.tail.left.start admits.tail.right.start known known').bind
        fun _ => keeps_loadValue
  | cast span type value =>
    unfold expr
    refine (keeps_writtenType admits.tail.head).bind fun found known => ?_
    split
    · exact (keeps_expr value admits.tail.tail).next fun _ => (keeps_discard _).next fun _ =>
        .pure known
    · exact (keeps_expr value admits.tail.tail).bind fun _ => keeps_castValue _ _ admits.head
  | sizeof span type =>
    unfold expr
    refine (keeps_writtenType admits.tail.head).bind fun found known => ?_
    split
    · exact .pure known
    · exact keeps_environment.bind fun _ _ => (keeps_pushNumber _).next fun _ => .pure (.some _)
  | int | float | string | character | bool | null => exact keeps_literal ⟨admits.2, fun _ => rfl⟩

theorem keeps_callArguments (name : Text) (arguments : List Expr)
    (types : List (Option ValueType))
    (admits : Admits ground file (Expr.startsOfAll arguments) (Expr.stringsOfAll arguments))
    (known : ∀ type ∈ types, ground.Knows type) :
    Keeps ground file (callArguments name arguments types)
      fun result => ground.Sure (result.2 = true) := by
  cases arguments with
  | nil => exact .pure fun _ => .inl rfl
  | cons argument arguments =>
    cases types with
    | nil => exact .pure fun _ => .inl rfl
    | cons type types =>
      unfold callArguments
      refine (keeps_expr argument admits.left).bind fun _ given => (keeps_coerce _ _).bind
        fun _ follows => keeps_environment.bind fun _ _ =>
        (keeps_fits _ _ _ admits.left.start).bind fun fitting fits =>
        (keeps_callArguments name arguments types admits.right fun other mem =>
          known other (List.mem_cons_of_mem _ mem)).bind fun _ others => .pure fun typed => ?_
      rcases fits (known type List.mem_cons_self) (follows given) typed, others typed with
        ⟨first | past, rest | past⟩
      · exact .inl (by simp [first, rest])
      all_goals exact .inr ‹_›

theorem keeps_address (value : Expr) (admits : Admits ground file value.starts value.strings) :
    Keeps ground file (address value) ground.Addresses := by
  cases value with
  | name span name => exact keeps_nameAddress name admits.head
  | member span object name =>
    unfold address
    refine (keeps_addressable object).next fun _ => .ite (fun _ => ?_) fun _ => ?_
    · exact (keeps_address object admits.tail).bind fun _ addresses =>
        keeps_memberOfPlace _ _ admits.head addresses.knows
    · exact (keeps_expr object admits.tail).bind fun _ => keeps_memberOfPointer _ _ admits.head
  | index span object position =>
    unfold address
    exact (keeps_expr object admits.tail.left).bind fun _ known =>
      (keeps_expr position admits.tail.right).bind fun _ => keeps_elementAddress _ _
        admits.tail.left.start admits.tail.right.start
        known
  | unary span op operand =>
    cases op with
    | deref =>
      unfold address
      exact (keeps_expr operand admits.tail).bind fun _ => keeps_pointed _ admits.head
    | _ => exact keeps_refuse _ admits.start .of_past
  | _ => exact keeps_refuse _ admits.start .of_past

end

end TinLang.Generate
