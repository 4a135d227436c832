import TinLang.Compile.Frame
import TinLang.Proofs.Simulation.Frames

/-!
# Code of statements

The code of every statement does what its execution says. The value of a return goes to the return
slot above the argument block, or to register A in main, and the frame is given back before control
returns.
-/
namespace TinLang

namespace Scene

open Generate

variable {scene : Scene} {shown : Shown} {bound level roof : Nat} {rest : List Word}

/-- A value is dropped. -/
theorem leads_discard (prog : scene.context.environment.Direct) {value : Value}
    (count : value.words.length = scene.table.leavesOf value.type)
    (stack : shown.stack = value.words.reverse ++ rest) :
    scene.Leads (· = shown) (Generate.discard (some value.type)) fun _ final =>
      ∃ a, final = { shown with a, stack := rest } := by
  have leaves : scene.context.environment.leavesOf (some value.type) = value.words.length :=
    count.symm
  have small : wordSize * scene.context.environment.leavesOf (some value.type) < 2 ^ 31 :=
    prog.values (some value.type)
  rw [leaves] at small
  unfold Generate.discard
  refine .next leads_environment (fun _ => ?_) ?_
  · split
    · exact .pure _
    · exact emits_pop _
    · exact emits_increase _ _
  rintro _ between ⟨rfl, rfl⟩
  rw [leaves]
  split
  · next none =>
    refine .pure ?_
    rintro final rfl
    rw [List.length_eq_zero_iff.mp none] at stack
    exact ⟨final.a, by rw [← show final.stack = rest from stack]⟩
  · next one =>
    obtain ⟨word, words⟩ := List.length_eq_one_iff.mp one
    rw [words] at stack
    exact (leads_pop rfl stack).weaken fun _ _ reached => ⟨word, reached⟩
  · have cast : ((wordSize : Int) * value.words.length) =
      ((8 * value.words.length : Nat) : Int) := by
      unfold wordSize
      omega
    rw [cast]
    refine (leads_drop small ?_).weaken ?_
    · rw [stack, List.length_append, List.length_reverse]
      exact Nat.le_add_right _ _
    · rintro _ _ rfl
      refine ⟨between.a, ?_⟩
      rw [stack, List.drop_left' (List.length_reverse ..)]

/-- A condition leaves its truth in register A. -/
theorem runs_condition {test : Expr} (eval : Eval Value)
    (runs : scene.Runs bound shown (expr test) eval (scene.Pushes level roof shown shown.stack)) :
    scene.Runs bound shown (condition test) (do Eval.test (← eval)) fun _ truth final =>
      truth = (final.a != 0) ∧ final.stack = shown.stack ∧ Quiet level roof shown final := by
  unfold condition
  refine .bind (emits_expr test) (fun type => ?_) runs ?_
  · split
    · exact emits_setNumber _ _
    · exact emits_environment.bind fun _ => .ite (fun _ => (emits_report _ rfl).bind fun _ =>
        (emits_discard _).bind fun _ => emits_setNumber _ _) fun _ => emits_pop _
  rintro _ value between ⟨rfl, direct, count, stack, quiet⟩
  refine .environment (.ite (fun _ => .reported) fun word => ?_)
  have one : value.words.length = 1 := count.trans (Decidable.not_not.mp word)
  obtain ⟨word, words⟩ := List.length_eq_one_iff.mp one
  rw [words] at stack
  refine .of_leads (leads_pop rfl stack) ?_
  rintro _ _ rfl
  refine ⟨word != 0, ?_, rfl, rfl, quiet.trans (.of_same rfl rfl rfl)⟩
  unfold Eval.test
  rw [words]
  rfl

end Scene

/-- Memory that holds zeros holds the word zero. -/
theorem Bytes.word_zeros {bytes : Bytes} {addr : Nat} {size : AccessSize}
    (zeros : ∀ place, addr ≤ place → place < addr + size.bytes → bytes place = 0) :
    bytes.word addr size = 0 := by
  have same : bytes.range addr size.bytes = List.replicate size.bytes 0 := by
    rw [@Bytes.range_congr bytes (fun _ => 0) addr _ zeros, Bytes.range, List.map_const',
      List.length_range]
  rw [Bytes.word, same]
  cases size <;> rfl

/-- Memory that holds zeros holds the first value of a variable. -/
theorem Environment.Roomy.read_zeros {env : Environment} (roomy : env.Roomy)
    {type : ValueType} (nonvoid : type ≠ .void) {addr : Nat} {bytes : Bytes}
    (zeros : ∀ place, addr ≤ place → place < addr + env.structs.sizeOf type →
      bytes place = 0) :
    bytes.read ((env.structs.shapeOf type).slots addr) = (env.structs.zero type).words := by
  have each : ∀ slot ∈ (env.structs.shapeOf type).slots addr, bytes.scalar slot = 0 := by
    intro slot mem
    obtain ⟨⟨size, width, count⟩, low, high⟩ := roomy.slots nonvoid mem
    rw [Bytes.scalar, width]
    exact Bytes.word_zeros fun place above below => zeros place (by omega) (by omega)
  have first := Shape.length_slots (roomy.structs.shapeOf nonvoid) (addr : Int)
  have second := Shape.length_slots (roomy.structs.shapeOf nonvoid) 0
  rw [Bytes.read, List.map_congr_left each, StructTable.zero, StructTable.widths, List.map_map,
    List.map_const', first]
  exact ((List.map_const' ..).trans (by rw [second]; rfl)).symm

namespace Generate

/-- Give a variable at an offset of the frame its value, or zeros. -/
def fillVariable (offset : Int) (size : Nat) (type : ValueType) (name : Text) :
    Option Expr → Generate Unit
  | none => clearLocal offset size
  | some value => do
    let given ← coerce (← expr value) (some type)
    if ← fits value.span (some type) given (.variableValue name) then
      popTo .basePointer offset (some type)
    else Generate.discard given

/-- Filling a variable only adds code. -/
theorem emits_fillVariable (offset : Int) (size : Nat) (type : ValueType) (name : Text)
    (value : Option Expr) : Emits (fillVariable offset size type name value) := by
  cases value with
  | none => exact emits_clearLocal _ _
  | some value =>
    exact (emits_expr value).bind fun _ => (emits_coerce _ _).bind fun _ =>
      (emits_fits _ _ _ _).bind fun _ => .ite (fun _ => emits_popTo _ _ _) fun _ => emits_discard _

variable {ctx : FunctionContext} {gen later : Generator}

/-- A variable takes room in the frame, gets its value and is declared. -/
theorem declareVariable_done {span : Span} {name : Text} {written : TypeExpr} {value : Option Expr}
    (done : declareVariable span name written value ctx gen = .done ((), later))
    (bounded : gen.piece.barrier ≤ gen.piece.size) (inner : gen.scopes ≠ []) :
    ∃ type size lowered filled, ctx.environment.resolve? written = some type ∧ type ≠ .void ∧
      size = alignUp (ctx.environment.structs.sizeOf type) wordSize ∧
      increase .stackPointer (-(size : Int)) ctx gen =
        .done ((), { gen with piece := lowered }) ∧ gen.piece.Emitted lowered ∧
      fillVariable (gen.frame - size) size type name value ctx
        { gen with piece := lowered, frame := gen.frame - size } =
        .done ((), { gen with piece := filled, frame := gen.frame - size }) ∧
      lowered.Emitted filled ∧ later = { gen with
        piece := filled
        frame := gen.frame - size
        scopes := gen.scopes.modifyHead
          ([(name, .variable (some type) (gen.frame - size))] ++ ·) } := by
  obtain ⟨_, between, one, done⟩ := bind_done.mp done
  obtain ⟨same, type, rfl, known⟩ := Generate.writtenType_found one
  subst between
  dsimp only at done
  split at done
  · cases done
  · next placed =>
    obtain ⟨_, _, look, done⟩ := bind_done.mp done
    obtain ⟨rfl, rfl⟩ := Prod.mk.inj (Task.done.inj look)
    obtain ⟨_, between, lower, done⟩ := bind_done.mp done
    obtain ⟨lowered, rfl, emitted⟩ := emits_increase _ _ lower bounded
    obtain ⟨_, _, move, done⟩ := bind_done.mp done
    obtain ⟨-, rfl⟩ := Prod.mk.inj (Task.done.inj move)
    obtain ⟨_, _, look, done⟩ := bind_done.mp done
    obtain ⟨rfl, rfl⟩ := Prod.mk.inj (Task.done.inj look)
    have filled : ∃ between, fillVariable (gen.frame -
        alignUp (ctx.environment.structs.sizeOf type) wordSize)
        (alignUp (ctx.environment.structs.sizeOf type) wordSize) type name value ctx
        { gen with
          piece := lowered
          frame := gen.frame - alignUp (ctx.environment.structs.sizeOf type) wordSize } =
          .done ((), between) ∧
        declare span name (.variable (some type) (gen.frame -
          alignUp (ctx.environment.structs.sizeOf type) wordSize)) ctx between =
            .done ((), later) := by
      cases value with
      | none =>
        obtain ⟨_, between, fill, declared⟩ := bind_done.mp done
        exact ⟨between, fill, declared⟩
      | some value =>
        obtain ⟨_, _, one, done⟩ := bind_done.mp done
        obtain ⟨_, _, two, done⟩ := bind_done.mp done
        obtain ⟨fitting, _, three, done⟩ := bind_done.mp done
        cases fitting with
        | true =>
          obtain ⟨_, between, pop, declared⟩ := bind_done.mp done
          exact ⟨between, bind_done.mpr ⟨_, _, one, bind_done.mpr ⟨_, _, two, bind_done.mpr
            ⟨_, _, three, pop⟩⟩⟩, declared⟩
        | false =>
          obtain ⟨_, between, drop, declared⟩ := bind_done.mp done
          exact ⟨between, bind_done.mpr ⟨_, _, one, bind_done.mpr ⟨_, _, two, bind_done.mpr
            ⟨_, _, three, drop⟩⟩⟩, declared⟩
    obtain ⟨between, fill, declared⟩ := filled
    obtain ⟨filled, rfl, more⟩ := emits_fillVariable _ _ _ _ _ fill emitted.bounded
    exact ⟨type, _, lowered, filled, known, by simpa [ValueType.isVoid] using placed,
          rfl, lower, emitted,
      fill, more, declare_done declared inner⟩

end Generate

/-- A written type is a type of pointers when it is written as one. -/
theorem Environment.pointer_of_resolve? {env : Environment} {written : TypeExpr} {type : ValueType}
    (resolved : env.resolve? written = some type) : type.pointer = written.pointer := by
  unfold Environment.resolve? at resolved
  split at resolved
  · cases resolved
    rfl
  · obtain ⟨struct, -, rfl⟩ := Option.map_eq_some_iff.mp resolved
    rfl

/-- A literal that is no pointer has a value. -/
theorem Expr.ofLiteral?_isSome {value : Expr} (literal : value.literalType?.isSome)
    (direct : value.isDirect) :
    (Value.ofLiteral? value).isSome := by
  unfold Expr.literalType? at literal
  split at literal <;> first | rfl | contradiction

/-- A constant stands for the literal of its declaration. -/
theorem Environment.literal_of_constantOf {env : Environment} {decl : ConstDecl}
    {constant : Constant} (known : env.constantOf decl = .ok constant)
    (direct : decl.isDirect) : (Value.ofLiteral? constant.value).isSome := by
  have inner : decl.value.isDirect := (Bool.and_eq_true_iff.mp direct).1
  have literal : constant.value = decl.value ∧ decl.value.literalType?.isSome := by
    unfold Environment.constantOf at known
    split at known
    · cases known
    · next type found =>
      rw [found]
      repeat' split at known
      all_goals first
        | exact ⟨(congrArg Constant.value (Except.ok.inj known)).symm, rfl⟩
        | cases known
  rw [literal.1]
  exact Expr.ofLiteral?_isSome literal.2 inner

/-- The value that a variable gets when it is declared. -/
def initialValue (env : Environment) (call : Caller) (type : ValueType) : Option Expr → Eval Value
  | none => return env.structs.zero type
  | some value => do
    let given ← value.eval env call
    return ⟨type, env.structs.narrowed type (given.coerce type).words⟩

/-- A declaration with a known type evaluates its value and declares. -/
theorem execDeclare_eq {env : Environment} {name : Text} {written : TypeExpr} {type : ValueType}
    (known : env.resolve? written = some type) (call : Caller) (value : Option Expr) :
    execDeclare env call name written value = (do
      Eval.declare name (.variable (← initialValue env call type value))) := by
  unfold execDeclare
  rw [known]
  cases value <;> simp [initialValue]

namespace Quiet

variable {level roof lower : Nat} {before after : Shown}

end Quiet

namespace Scene

open Generate

variable {scene : Scene} {shown : Shown} {bound level roof size addr : Nat} {offset : Int}
  {type : ValueType}

/-- Clearing a local zeroes its bytes. -/
theorem leads_clearLocal (stands : scene.Stands shown.base level roof) (floor : shown.floor = addr)
    (sum : (addr : Int) = shown.base + offset) (room : addr + size ≤ level)
    (small : size < 2 ^ 31) :
    scene.Leads (· = shown) (clearLocal offset size) fun _ final => ∃ a b, final = { shown with
      a, b, bytes := shown.bytes.overwrite addr (List.replicate size 0) } := by
  have below := stands.below
  have above := stands.above
  have highest := stands.highest
  have top := scene.site.below
  have base30 : Memory.dataBase = 2 ^ 30 := rfl
  refine .next (leads_move rfl rfl) (fun _ => (emits_increase _ _).bind fun _ =>
    (emits_setNumber _ _).bind fun _ => emits_emit (by decide) (by decide) (by decide)) ?_
  rintro _ _ rfl
  refine .next (leads_increase rfl) (fun _ => (emits_setNumber _ _).bind fun _ =>
    emits_emit (by decide) (by decide) (by decide)) ?_
  rintro _ _ rfl
  refine .next (leads_setNumber rfl) (fun _ => emits_emit (by decide) (by decide) (by decide)) ?_
  rintro _ _ rfl
  have place : BitVec.ofNat 64 shown.base + (BitVec.ofInt 32 offset).signExtend 64 =
      BitVec.ofNat 64 addr := by
    rw [address_add (by omega) (by omega) (by omega), ← sum, Int.toNat_natCast]
  have amount : (BitVec.ofInt 32 (size : Int)).signExtend 64 = BitVec.ofNat 64 size := by
    rw [BitVec.signExtend, toInt_ofInt (by omega) (by omega), BitVec.ofInt_natCast]
  refine (@leads_clear scene { shown with
    a := (BitVec.ofInt 32 (size : Int)).signExtend 64
    b := BitVec.ofNat 64 shown.base + (BitVec.ofInt 32 offset).signExtend 64 } addr size
      place amount
    small ⟨Nat.le_of_eq floor, .inl ?_⟩).weaken ?_
  · omega
  · rintro _ _ rfl
    exact ⟨_, _, rfl⟩

/-- A variable that is declared gets its value, and no name in scope is bound to anything else. -/
theorem runs_fillVariable (name : Text) {value : Option Expr} (direct : value.all Expr.isDirect)
    (answers : scene.site.Answers scene.context.environment bound) (nonvoid : type ≠ .void)
    (stands : scene.Stands shown.base level roof) (floor : shown.floor = addr)
    (sum : (addr : Int) = shown.base + offset) (room : addr + size ≤ level)
    (large : scene.table.sizeOf type ≤ size) (small : size < 2 ^ 31) :
    scene.Runs bound shown (fillVariable offset size type name value)
      (initialValue scene.context.environment (scene.context.environment.callWithin bound) type
        value)
      fun _ given final => given = ⟨type, final.bytes.read
        ((scene.table.shapeOf type).slots addr)⟩ ∧
        final.stack = shown.stack ∧ Quiet shown.floor roof shown final := by
  have roomy := stands.program.roomy
  have below := stands.below
  have above := stands.above
  have highest := stands.highest
  have top := scene.site.below
  have base30 : Memory.dataBase = 2 ^ 30 := rfl
  cases value with
  | none =>
    refine .of_leads (leads_clearLocal stands floor sum room small) ?_
    rintro _ _ ⟨a, b, rfl⟩
    have outside : ∀ place, (place < addr ∨ addr + size ≤ place) →
        shown.bytes.overwrite addr (List.replicate size 0) place = shown.bytes place :=
      fun place apart => Bytes.overwrite_of_outside (by rwa [List.length_replicate])
    have same : scene.store { shown with
        a, b, bytes := shown.bytes.overwrite addr (List.replicate size 0) } = scene.store shown :=
      stands.store_eq rfl rfl fun place region => outside place (by omega)
    refine ⟨scene.table.zero type, ?_, ?_, rfl, rfl, rfl, fun place low high kept =>
      outside place ?_⟩
    · rw [same]
      rfl
    · refine congrArg (Value.mk type) (roomy.read_zeros nonvoid fun place low high => ?_).symm
      have inside : place - addr < size := by
        have high : place < addr + scene.table.sizeOf type := high
        omega
      show shown.bytes.overwrite addr (List.replicate size 0) place = 0
      rw [Bytes.overwrite, if_pos low, List.getElem?_replicate, if_pos inside]
      rfl
    · omega
  | some value =>
    have inner : value.isDirect := direct
    refine .bind (emits_expr value) (fun _ => (emits_coerce _ _).bind fun _ =>
      (emits_fits _ _ _ _).bind
      fun _ => .ite (fun _ => emits_popTo _ _ _) fun _ => emits_discard _)
      (runs_expr value inner answers shown stands (by omega)) ?_
    rintro _ given between ⟨rfl, direct, count, stack, quiet⟩
    obtain ⟨direct', count'⟩ := count_coerce type direct count
    refine .lead (fun _ => (emits_fits _ _ _ _).bind fun _ => .ite (fun _ => emits_popTo _ _ _)
      fun _ => emits_discard _) (leads_coerce type count stack) ?_
    rintro _ _ ⟨rfl, a, rfl⟩
    refine ⟨rfl, .fits fun accepts => ?_⟩
    have same := ValueType.eq_of_direct direct' accepts
    generalize given.coerce type = given at *
    have length := Shape.length_slots (roomy.structs.shapeOf nonvoid) offset
    have length' := Shape.length_slots (roomy.structs.shapeOf nonvoid) (addr : Int)
    have within : scene.Within between.floor between.base ((scene.table.shapeOf type).slots
      offset) := by
      intro slot mem
      obtain ⟨sized, start, stop⟩ := roomy.slots nonvoid mem
      have stop : slot.offset + slot.size ≤ offset + scene.table.sizeOf type := stop
      have level' := quiet.floor
      have base := quiet.base
      refine ⟨by omega, by omega, sized, ?_, .inl ?_⟩
      · show (between.floor : Int) ≤ slot.offset + between.base
        omega
      · show slot.offset + between.base + slot.size ≤ scene.site.top
        omega
    rw [if_pos rfl]
    refine .of_leads (@leads_popTo scene { between with a, stack := given.words.reverse ++
      shown.stack }
      .basePointer type offset between.base (.inr rfl) rfl within given.words shown.stack ?_ rfl) ?_
    · rw [count', length, same]
      rfl
    rintro _ _ ⟨b, rfl⟩
    have start : offset + (between.base : Int) = addr := by
      have base := quiet.base
      omega
    rw [start]
    have held := roomy.held nonvoid (Int.natCast_nonneg addr)
    have apart := (roomy.fits type (addr : Int)).pairwise.imp
      fun {slot other} earlier => (.inl earlier : Slot.Apart slot other)
    have read := @Bytes.read_keep between.bytes _ given.words held apart
      (by rw [count', length', same]; rfl)
    rw [StructTable.map_size_slots] at read
    have outside : ∀ place, (place < addr ∨ addr + size ≤ place) →
        between.bytes.keep ((scene.table.shapeOf type).slots addr) given.words place =
          between.bytes place := by
      refine fun place out => Bytes.keep_of_outside held (fun slot mem => ?_) _
      obtain ⟨-, start, stop⟩ := roomy.slots nonvoid mem
      have stop : slot.offset + slot.size ≤ (addr : Int) + scene.table.sizeOf type := stop
      omega
    have kept : scene.store { between with
        a := b, stack := shown.stack, bytes :=
          between.bytes.keep ((scene.table.shapeOf type).slots addr) given.words } =
        scene.store { between with a, stack := given.words.reverse ++ shown.stack } :=
      (quiet.stands stands).store_eq rfl rfl fun place region => outside place (by
        have base := quiet.base
        omega)
    refine ⟨⟨type, scene.table.narrowed type given.words⟩, by rw [kept]; rfl,
      congrArg (Value.mk type) read.symm, rfl, quiet.floor, quiet.base, fun place low high region =>
        ?_⟩
    refine (outside place (by omega)).trans (quiet.bytes place low high (by omega))

end Scene

namespace Generate

variable {ctx : FunctionContext} {gen later : Generator}

/-- Leaving a scope gives its bytes back, if it has any. -/
theorem release_done {depth : Int} (kept : wrapSigned (depth - gen.frame) = depth - gen.frame)
    (done : release depth ctx gen = .done ((), later)) :
    depth = gen.frame ∧ later = gen ∨
      increase .stackPointer (depth - gen.frame) ctx gen = .done ((), later) := by
  obtain ⟨_, _, look, done⟩ := bind_done.mp done
  obtain ⟨rfl, rfl⟩ := Prod.mk.inj (Task.done.inj look)
  rw [kept] at done
  split at done
  · exact .inr done
  · next same => exact .inl ⟨by omega, (Prod.mk.inj (pure_done.mp done)).2.symm⟩

/-- A jump out of a loop, or back to its condition. -/
theorem jumpOut_done {span : Span} {leaves halts : Bool}
    (done : jumpOut span leaves ctx gen = .done (halts, later))
    (bounded : gen.piece.barrier ≤ gen.piece.size) :
    halts = true ∧ ∃ loop outer released depth, gen.loops = loop :: outer ∧
      release loop.depth ctx gen = .done ((), { gen with piece := released }) ∧
      gen.piece.Emitted released ∧
      later = if leaves then { gen with
          piece := { (released.emitJump .jump .unused).1 with depth }
          loops := { loop with exits := loop.exits ++ [released.size + 1] } :: outer }
        else { gen with
          piece := { released.emitJumpBack .jump .unused loop.start with depth } } := by
  obtain ⟨_, _, look, done⟩ := bind_done.mp done
  obtain ⟨rfl, rfl⟩ := Prod.mk.inj (Task.done.inj look)
  cases loops : gen.loops with
  | nil =>
    rw [loops] at done
    obtain ⟨_, _, reports, -⟩ := bind_done.mp done
    cases reports
  | cons loop outer =>
    rw [loops] at done
    obtain ⟨_, between, first, done⟩ := bind_done.mp done
    obtain ⟨released, rfl, emitted⟩ := emits_release _ first bounded
    cases leaves with
    | true =>
      obtain ⟨rfl, rfl⟩ := Prod.mk.inj (Task.done.inj done)
      exact ⟨rfl, loop, outer, released, _, rfl, by rw [← loops]; exact first, emitted, rfl⟩
    | false =>
      obtain ⟨rfl, rfl⟩ := Prod.mk.inj (Task.done.inj done)
      exact ⟨rfl, loop, outer, released, _, rfl, by rw [← loops]; exact first, emitted,
        by rw [if_neg Bool.false_ne_true, ← loops]⟩

end Generate

namespace Activation

open Generate

variable {act : Activation} {bound : Nat}

/-- An expression is evaluated for its effects. -/
theorem acts_evaluate (set : act.Set bound) (span : Span) {value : Expr} (direct : value.isDirect)
    (result : ValueType) : act.Acts bound (statement (.evaluate span value))
      ((Stmt.evaluate span value).exec act.environment
        (act.environment.callWithin bound) bound result) := by
  unfold statement Stmt.exec
  refine .of_runs ((emits_expr value).bind fun _ => (emits_discard _).bind fun _ => .pure _) set
    fun gen others shown stands empty => ?_
  refine .bind (emits_expr value) (fun _ => (emits_discard _).bind fun _ => .pure _)
    (Scene.runs_expr value direct set.answers shown stands (Nat.le_refl _)) ?_
  rintro _ given between ⟨rfl, -, count, stack, quiet⟩
  refine .lead (fun _ => .pure _) (Scene.leads_discard set.program count stack) ?_
  rintro _ _ ⟨a, rfl⟩
  exact ⟨rfl, .pure ⟨rfl, rfl, empty, quiet.trans (.of_same rfl rfl rfl)⟩⟩

/-- A name that is declared is bound to what stands at its place. -/
theorem store_declared {gen : Generator} (inner : gen.scopes ≠ []) {piece : Piece} {frame : Int}
    {name : Text} (meaning : LocalMeaning) (shown : Shown) :
    act.store { gen with
      piece, frame, scopes := gen.scopes.modifyHead ([(name, meaning)] ++ ·) } shown =
      { act.store gen shown with
        locals := (name, (meaning.referent shown.base).binding act.environment.structs
          shown.bytes) ::
          (act.store gen shown).locals } := by
  unfold store Environment.storeIn frameReferents
  dsimp only
  rw [flatten_declared inner]
  rfl

/-- The code of a declaration acts as it does. -/
theorem acts_declare (set : act.Set bound) (span : Span) (name : Text) {written : TypeExpr}
    {value : Option Expr} (plain : written.isDirect) (direct : value.all Expr.isDirect)
    (small : act.environment.placeSize written < 2 ^ 31) (result : ValueType) :
    act.Acts bound (statement (.declare span name written value))
      ((Stmt.declare span name written value).exec act.environment
        (act.environment.callWithin bound) bound result) := by
  have known : ∀ {type : ValueType}, act.environment.resolve? written = some type →
      type.pointer = 0 ∧ act.environment.placeSize written =
        alignUp (act.environment.structs.sizeOf type) wordSize := by
    intro type resolved
    refine ⟨?_, by rw [Environment.placeSize, resolved]; rfl⟩
    rw [Environment.pointer_of_resolve? resolved]
    exact beq_iff_eq.mp plain
  refine ⟨fun gen halts later done orderly => ?_,
    fun gen halts later others done orderly _ complete machine shown starts => ?_⟩
  all_goals
    unfold statement at done
    obtain ⟨_, between, declared, done⟩ := bind_done.mp done
    obtain ⟨rfl, rfl⟩ := Prod.mk.inj (pure_done.mp done)
    obtain ⟨type, size, lowered, filled, resolved, nonvoid, rfl, lower, emitted, fill, more, rfl⟩ :=
      declareVariable_done declared orderly.bounded orderly.inner
    obtain ⟨pointer, same⟩ := known resolved
    rw [same] at small
    have most := (set.program.bounded type).2
    have few := set.program.values (some type)
    rw [Environment.bytesOf_some] at few
    have large := @le_alignUp (act.environment.structs.sizeOf type) wordSize (by decide) (by
      unfold wordSize at *
      omega)
    have below := orderly.frame
    generalize alignUp (act.environment.structs.sizeOf type) wordSize = size at *
  · refine orderly.declare (emitted.trans more).toGrows (by omega) ((orderly.names.mono
      (by omega)).addVariable nonvoid pointer (.inl ⟨Int.le_refl _, by omega⟩)
        (fun entry mem found place stands => .inl ?_)
      (flatten_declared orderly.inner))
    obtain ⟨kind, -, -, -, region⟩ := orderly.names.places entry mem found place stands
    omega
  · obtain ⟨shows, at', live⟩ := starts
    have stands := at'.stands set orderly others
    have base := at'.base
    have level := at'.floor
    have empty := at'.empty
    rw [Stmt.exec, execDeclare_eq resolved, bind_assoc]
    refine .of_comes ((@Scene.leads_reserve (act.scene gen others) shown size
      (Nat.le_of_lt small)).comes lower rfl (more.completes complete) shows rfl) ?_
    rintro reserved ⟨_, shows, floor, bytes, place, rfl, kept, -⟩
    rw [empty, List.length_nil] at place
    have stored : (act.scene gen others).store { shown with stack := [], floor, bytes } =
        act.store gen shown := stands.store_eq rfl rfl fun byte region => kept byte (by
      have data := act.site.below
      have highest := set.roof
      omega)
    rw [← stored]
    have fills := @Scene.runs_fillVariable (act.scene gen others)
      { shown with stack := [], floor, bytes } bound shown.floor _ size floor
        (gen.frame - size) type
      name value direct set.answers nonvoid stands rfl (by dsimp only; omega) (by omega) large small
    refine (fills fill rfl complete shows).bind ?_
    rintro given _ last ⟨final, shows, rfl, rfl, empty, quiet⟩
    refine .here ⟨rfl, final, ⟨shows, ⟨empty, quiet.base.trans base, ?_, fun byte high low region =>
      ?_⟩,
      more.live _ (emitted.live _ live)⟩, ?_⟩
    · have floor := quiet.floor
      dsimp only at floor ⊢
      omega
    · have filled := quiet.bytes byte (show floor ≤ byte by omega) high
        (show _ ∨ shown.base ≤ byte ∧ byte < shown.base + 16 ∨ _ by omega)
      exact filled.trans ((kept byte (by omega)).trans (at'.kept byte high low region))
    · rw [store_declared orderly.inner]
      have addr : (final.base : Int) + (gen.frame - size) = floor := by
        have same := quiet.base
        dsimp only at same
        omega
      show Store.mk _ _ _ = Store.mk _ _ _
      rw [LocalMeaning.referent, Referent.binding, addr]
      rfl

/-- The code of a constant acts as it does. -/
theorem acts_constant {decl : ConstDecl} (direct : decl.isDirect)
    (result : ValueType) : act.Acts bound (statement (.constant decl))
      ((Stmt.constant decl).exec act.environment
        (act.environment.callWithin bound) bound result) := by
  have parts : ∀ {gen halts later}, gen.scopes ≠ [] →
      statement (.constant decl) act.context gen = .done (halts, later) →
      ∃ constant, act.environment.constantOf decl = .ok constant ∧ halts = false ∧
        later = { gen with
          scopes := gen.scopes.modifyHead ([(decl.name, .constant constant)] ++ ·) } := by
    intro gen halts later inner done
    unfold statement at done
    obtain ⟨_, between, declared, done⟩ := bind_done.mp done
    obtain ⟨rfl, rfl⟩ := Prod.mk.inj (pure_done.mp done)
    obtain ⟨_, _, look, declared⟩ := bind_done.mp declared
    obtain ⟨rfl, rfl⟩ := Prod.mk.inj (Task.done.inj look)
    cases found : act.context.environment.constantOf decl with
    | ok constant =>
      rw [found] at declared
      exact ⟨constant, rfl, rfl, declare_done declared inner⟩
    | error problem =>
      rw [found] at declared
      cases declared
  refine ⟨fun gen halts later done orderly => ?_,
    fun gen halts later others done orderly _ complete machine shown starts => ?_⟩
  all_goals
    obtain ⟨constant, known, rfl, rfl⟩ := parts orderly.inner done
  · exact orderly.declare (.refl orderly.bounded) (Int.le_refl _) (orderly.names.addConstant
      (Environment.literal_of_constantOf known direct) (flatten_declared orderly.inner))
  · rw [Stmt.exec, known]
    refine .here ⟨rfl, shown, ⟨starts.shows, starts.at', starts.live⟩, ?_⟩
    rw [store_declared orderly.inner]
    rfl

/-- The frame is given back down to some depth, and what stands above it stays. -/
theorem comes_release {gen : Generator} {machine : Machine} {shown : Shown} {depth : Int}
    {released : Piece} {holes : List Nat} (shows : act.site.Shows gen.piece machine shown)
    (empty : shown.stack = []) (floor : (shown.floor : Int) = shown.base + gen.frame)
    (highest : shown.base ≤ act.site.top)
    (done : release depth act.context gen = .done ((), { gen with piece := released }))
    (above : gen.frame ≤ depth) (low : depth ≤ 0)
    (complete : released.Completes act.site.code holes) :
    machine.Comes act.site.program act.site.settings fun last => ∃ floor : Nat,
      act.site.Shows released last { shown with floor } ∧ (floor : Int) = shown.base + depth := by
  have below := act.site.below
  have base30 : Memory.dataBase = 2 ^ 30 := rfl
  rcases release_done (wrapSigned_eq (by omega) (by omega)) done with ⟨rfl, same⟩ | increased
  · obtain rfl : released = gen.piece := congrArg Generator.piece same
    exact .here ⟨shown.floor, shows, floor⟩
  · obtain ⟨count, distance⟩ : ∃ count : Nat, depth - gen.frame = count :=
      ⟨(depth - gen.frame).toNat, by omega⟩
    rw [distance] at increased
    refine ((@Scene.leads_release ⟨act.site, holes, act.context, gen.scopes⟩ shown count []
      (by omega) empty (by simp only [List.length_nil]; omega) trivial).comes increased rfl complete
        shows
      rfl).mono ?_
    rintro last ⟨_, shows, rfl⟩
    rw [← empty] at shows
    refine ⟨_, shows, ?_⟩
    rw [empty, List.length_nil]
    omega

/-- The code of a jump out of a loop, or back to its condition, gives back the frame of the body. -/
theorem acts_jumpOut (set : act.Set bound) (span : Span) (leaves : Bool) :
    act.Acts bound (jumpOut span leaves) (return if leaves then .leave else .again) := by
  refine ⟨fun gen halts later done orderly => ?_,
    fun gen halts later others done orderly earlier complete machine shown starts => ?_⟩
  all_goals
    obtain ⟨rfl, loop, outer, released, depth, loops, release, emitted, rfl⟩ :=
      jumpOut_done done orderly.bounded
    obtain ⟨above, low, start⟩ := orderly.loops loop (by rw [loops]; exact List.mem_cons_self)
    have jumpBack := Piece.grows_emitJumpBack emitted.bounded .jump .unused loop.start
    have jump := Piece.grows_emitImmediate emitted.bounded ⟨.jump, .unused, .unused, 0⟩ 0
  · cases leaves with
    | true => exact orderly.jump loops emitted.toGrows
    | false =>
      have same : (released.emitJumpBack .jump .unused loop.start).Grows
          { released.emitJumpBack .jump .unused loop.start with depth } :=
        Piece.grows_of_same jumpBack.bounded rfl rfl fun _ => id
      exact orderly.goes (emitted.toGrows.trans (jumpBack.trans same)) rfl rfl rfl
  · have empty := starts.at'.empty
    have base := starts.at'.base
    have floor : (shown.floor : Int) = shown.base + gen.frame := base ▸ starts.at'.floor
    have highest : shown.base ≤ act.site.top := by
      have roof := set.roof
      omega
    cases leaves with
    | true =>
      let left : Piece := { (released.emitJump .jump .unused).1 with depth }
      have moved : (released.emitJump .jump .unused).1.Grows left :=
        Piece.grows_of_same jump.bounded rfl rfl fun _ => id
      have complete := moved.completes complete
      refine (comes_release starts.shows empty floor highest release above low
        (jump.completes complete)).bind ?_
      rintro between ⟨floor, shows, level⟩
      have plain := shows.toPlain (shows.pending_eq_nil empty)
      exact .here ⟨{ loop with exits := loop.exits ++ [released.size + 1] }, rfl, released.size + 1,
        List.mem_append_right _ List.mem_cons_self, complete.emitted_instruction emitted.bounded,
        Nat.succ_pos _, _, [], plain, ⟨empty, base, base ▸ level, starts.at'.kept⟩, rfl⟩
    | false =>
      let back : Piece := { released.emitJumpBack .jump .unused loop.start with depth }
      have moved : (released.emitJumpBack .jump .unused loop.start).Grows back :=
        Piece.grows_of_same jumpBack.bounded rfl rfl fun _ => id
      have complete := moved.completes complete
      have settled := Nat.le_trans emitted.settled released.settled_le
      have closed : released.size + 1 ∉ others ++ gen.openExits := by
        intro mem
        rcases List.mem_append.mp mem with other | exit
        · have small := earlier _ other
          omega
        · have small := (orderly.exits _ exit).1
          omega
      obtain ⟨here, next⟩ := complete.back emitted.bounded (.inl rfl) closed
      have inside := (Array.getElem?_eq_some_iff.mp next).1
      have small := act.site.small
      refine (comes_release starts.shows empty floor highest release above low
        (jumpBack.completes complete)).bind ?_
      rintro between ⟨floor, shows, level⟩
      have plain := shows.toPlain (shows.pending_eq_nil empty)
      have distance : (loop.start : Int) = released.size + 1 +
          (BitVec.ofInt 32 ((loop.start : Int) - (released.size + 1 : Nat))).toInt := by
        rw [Scene.toInt_ofInt] <;> omega
      refine (plain.comes_jump here next distance).mono fun last reached => ?_
      refine ⟨loop, ?_, _, [], reached, ⟨empty, base, base ▸ level, starts.at'.kept⟩, rfl⟩
      rw [loops]
      rfl

end Activation

namespace Generate

variable {ctx : FunctionContext} {gen later : Generator}

/-- Evaluate what a return hands over, if anything. -/
def handOver : Option Expr → Generate Unit
  | none => return ()
  | some value => returnValue value

/-- Returning a value only adds code. -/
theorem emits_returnValue (value : Expr) : Emits (returnValue value) := by
  unfold returnValue
  refine .bind (.look fun ctx _ => ⟨ctx, rfl⟩) fun ctx => ?_
  refine (emits_expr value).bind fun _ => (emits_coerce _ _).bind fun _ =>
    (emits_fits _ _ _ _).bind fun _ =>
    .ite (fun _ => .ite (fun _ => emits_pop _) fun _ => emits_environment.bind fun _ =>
      emits_popResult _ _) fun _ => emits_discard _

/-- A return hands over a value, gives the frame back and returns. -/
theorem returnFrom_done {span : Span} {value : Option Expr}
    (done : returnFrom span value ctx gen = .done ((), later))
    (bounded : gen.piece.barrier ≤ gen.piece.size) :
    value.isNone = ctx.function.result.isVoid ∧ ∃ prepared released depth,
      handOver value ctx gen = .done ((), { gen with piece := prepared }) ∧
      gen.piece.Emitted prepared ∧
      release 0 ctx { gen with piece := prepared } =
        .done ((), { gen with piece := released }) ∧ prepared.Emitted released ∧
      later = { gen with
        piece := { (released.emit ⟨.giveBack, .unused, .unused, 0⟩).1 with depth } } := by
  have tail : ∀ {prepared : Piece}, gen.piece.Emitted prepared → ∀ {depth : Int}, (do
      release 0
      let gen ← get
      if gen.errors = 0 ∧ gen.piece.depth ≠ 0 then
        report span (.unbalancedReturn gen.piece.depth)
      emit .giveBack .unused .unused
      change fun piece => { piece with depth }) ctx { gen with piece := prepared } =
        .done ((), later) → ∃ released,
      release 0 ctx { gen with piece := prepared } =
        .done ((), { gen with piece := released }) ∧ prepared.Emitted released ∧
      later = { gen with
        piece := { (released.emit ⟨.giveBack, .unused, .unused, 0⟩).1 with depth } } := by
    intro prepared emitted depth done
    obtain ⟨_, _, first, done⟩ := bind_done.mp done
    obtain ⟨released, rfl, more⟩ := emits_release _ first emitted.bounded
    obtain ⟨_, _, look, done⟩ := bind_done.mp done
    obtain ⟨rfl, rfl⟩ := Prod.mk.inj (Task.done.inj look)
    split at done
    · obtain ⟨_, _, reports, -⟩ := bind_done.mp done
      cases reports
    · obtain ⟨_, _, one, done⟩ := bind_done.mp done
      obtain ⟨-, rfl⟩ := Prod.mk.inj (Task.done.inj one)
      obtain ⟨-, rfl⟩ := Prod.mk.inj (Task.done.inj done)
      exact ⟨released, first, more, rfl⟩
  obtain ⟨_, _, look, done⟩ := bind_done.mp done
  obtain ⟨rfl, rfl⟩ := Prod.mk.inj (Task.done.inj look)
  obtain ⟨_, _, look, done⟩ := bind_done.mp done
  obtain ⟨rfl, rfl⟩ := Prod.mk.inj (Task.done.inj look)
  cases value with
  | none =>
    dsimp only at done
    split at done
    · obtain ⟨_, _, reports, -⟩ := bind_done.mp done
      cases reports
    · next nothing =>
      obtain ⟨released, first, more, last⟩ := tail (.refl bounded) done
      exact ⟨by simpa using nothing, _, released, _, rfl, .refl bounded, first, more, last⟩
  | some value =>
    dsimp only at done
    split at done
    · obtain ⟨_, _, reports, -⟩ := bind_done.mp done
      cases reports
    · next gives =>
      obtain ⟨_, _, first, done⟩ := bind_done.mp done
      obtain ⟨prepared, rfl, emitted⟩ := emits_returnValue value first bounded
      obtain ⟨released, second, more, last⟩ := tail emitted done
      exact ⟨by simpa using gives, prepared, released, _, first, emitted, second, more, last⟩

end Generate

namespace Activation

open Generate

variable {act : Activation} {bound : Nat}

/-- What is shown once a value was handed over. -/
structure Hands (act : Activation) (before : Shown) (value : Value) (after : Shown) : Prop where
  type : value.type = act.context.function.result
  count : value.words.length = act.environment.structs.leavesOf act.context.function.result
  empty : after.stack = []
  floor : after.floor = before.floor
  base : after.base = before.base
  words : act.context.function.name ≠ "main" →
    after.bytes.Spells (before.base + 16 + act.context.function.block) value.words.reverse
  register : act.context.function.name = "main" → ∀ word, value.words = [word] → after.a = word
  bytes : act.context.function.name ≠ "main" → ∀ place, place < Memory.dataBase →
    before.base ≤ place → (place < before.base + 16 ∨
      before.base + 16 + act.environment.space act.context.function ≤ place) →
      after.bytes place = before.bytes place

/-- The value of a return is handed over. -/
theorem runs_returnValue (set : act.Set bound) {gen : Generator} {others : List Nat}
    {shown : Shown} (stands : (act.scene gen others).Stands shown.base shown.floor
      (act.entered.base + act.height)) (base : shown.base = act.entered.base)
    (empty : shown.stack = []) {value : Expr} (direct : value.isDirect)
    (gives : ¬ act.context.function.result.isVoid) :
    (act.scene gen others).Runs bound shown (returnValue value) (do
      return (← value.eval act.environment (act.environment.callWithin bound)).coerce
        act.context.function.result) fun _ => act.Hands shown := by
  have below := stands.below
  have top := act.site.below
  refine .look (fun _ _ => rfl) ?_
  refine .bind (emits_expr value) (fun _ => (emits_coerce _ _).bind fun _ =>
    (emits_fits _ _ _ _).bind
    fun _ => .ite (fun _ => .ite (fun _ => emits_pop _) fun _ => emits_environment.bind fun _ =>
      emits_popResult _ _) fun _ => emits_discard _)
    (Scene.runs_expr value direct set.answers shown stands (Nat.le_refl _)) ?_
  rintro _ given between ⟨rfl, direct, count, stack, quiet⟩
  obtain ⟨direct', count'⟩ := Scene.count_coerce act.context.function.result direct count
  refine .lead (fun _ => (emits_fits _ _ _ _).bind fun _ =>
    .ite (fun _ => .ite (fun _ => emits_pop _)
    fun _ => emits_environment.bind fun _ => emits_popResult _ _) fun _ => emits_discard _)
    (Scene.leads_coerce act.context.function.result count stack) ?_
  rintro _ _ ⟨rfl, a, rfl⟩
  refine ⟨rfl, .fits fun accepts => ?_⟩
  have same := (ValueType.eq_of_direct direct' accepts).symm
  generalize given.coerce act.context.function.result = given at *
  rw [same] at count'
  have count' : given.words.length =
    act.environment.structs.leavesOf act.context.function.result := count'
  have floor := quiet.floor
  have base' := quiet.base
  rw [empty, List.append_nil]
  rw [if_pos rfl]
  refine .ite (fun main => ?_) fun other => ?_
  · have one : given.words.length = 1 := by
      rcases (set.program.ready.settled.main _ set.listed main).2 with void | int
      · exact absurd (by rw [void]; rfl) gives
      · rw [count', int]
        rfl
    obtain ⟨word, words⟩ := List.length_eq_one_iff.mp one
    rw [words]
    refine .of_leads (Scene.leads_pop rfl rfl) ?_
    rintro _ _ rfl
    refine ⟨given, rfl, same, count', rfl, floor, base', fun other => absurd main other,
      fun _ other known => ?_,
      fun other => absurd main other⟩
    exact (List.cons.inj (words.symm.trans known)).1
  · obtain ⟨height, room⟩ := set.block other
    have space : act.environment.space act.context.function =
        8 * act.environment.structs.leavesOf act.context.function.result +
          act.context.function.block := rfl
    have roof := set.roof
    refine .environment ?_
    have leads := @Scene.leads_popResult (act.scene gen others)
      { between with a, stack := given.words.reverse } act.context.function.block
      given.words.reverse [] (List.append_nil _).symm
      (by
        rw [List.length_reverse, count', base', base]
        show _ ≤ act.site.top
        omega) (by dsimp only; omega)
    rw [List.length_reverse, count'] at leads
    refine .of_leads leads ?_
    rintro _ _ ⟨b, bytes, rfl, spells, outside⟩
    dsimp only at spells outside
    rw [base'] at spells outside
    have kept : (act.scene gen others).store { between with a := b, stack := [], bytes } =
        (act.scene gen others).store { between with a, stack := given.words.reverse } :=
      (quiet.stands stands).store_eq rfl rfl fun place region => outside place (by omega)
    refine ⟨given, by rw [kept]; rfl, same, count', rfl, floor, base', fun _ => spells,
      fun main => absurd main other, fun _ place small high region => ?_⟩
    exact (outside place (by omega)).trans (quiet.bytes place (by omega) small (by omega))

/-- The frame is given back, and control reaches the return. -/
theorem comes_giveBack {gen : Generator} {machine : Machine} {shown : Shown} {released : Piece}
    {holes : List Nat} (shows : act.site.Shows gen.piece machine shown)
    (empty : shown.stack = []) (floor : (shown.floor : Int) = shown.base + gen.frame)
    (highest : shown.base ≤ act.site.top) (low : gen.frame ≤ 0)
    (done : release 0 act.context gen = .done ((), { gen with piece := released }))
    (complete : (released.emit ⟨.giveBack, .unused, .unused, 0⟩).1.Completes act.site.code holes) :
    machine.Comes act.site.program act.site.settings fun last => ∃ stop,
      act.site.Plain stop last { shown with floor := shown.base } ∧
      act.site.code[stop]? = some (.instruction ⟨.giveBack, .unused, .unused, 0⟩) := by
  obtain ⟨_, same, emitted⟩ := emits_release 0 done shows.bounded
  cases same
  have grows := Piece.grows_emit emitted.bounded ⟨.giveBack, .unused, .unused, 0⟩
  refine (comes_release shows empty floor highest done low (Int.le_refl _)
    (grows.completes complete)).bind ?_
  rintro between ⟨floor, shows, level⟩
  obtain ⟨here, -, reaches⟩ := shows.comes_at complete (by decide) (by decide)
  obtain rfl : floor = shown.base := by omega
  exact reaches.mono fun last plain => ⟨_, plain, here⟩

/-- What was handed over is returned. -/
theorem Hands.returned (set : act.Set bound) {depth : Int} {shown final : Shown} {value : Value}
    (at' : act.At depth shown) (hands : act.Hands shown value final) :
    act.Returned value { final with floor := final.base } where
  empty := hands.empty
  level := rfl
  base := hands.base.trans at'.base
  type := hands.type
  count := hands.count
  words other := by
    have same := hands.base
    dsimp only
    rw [same]
    exact hands.words other
  register := hands.register
  bytes other place small high region := by
    have base := at'.base
    obtain ⟨height, -⟩ := set.block other
    have space : act.context.function.block ≤
        act.environment.space act.context.function := Nat.le_add_left _ _
    exact (hands.bytes other place small (by omega) (by omega)).trans
      (at'.kept place small high (by omega))

/-- The code of a return hands over the value and returns. -/
theorem acts_result (set : act.Set bound) (span : Span) {value : Option Expr}
    (direct : value.all Expr.isDirect) : act.Acts bound (statement (.result span value))
      ((Stmt.result span value).exec act.environment
        (act.environment.callWithin bound) bound act.context.function.result) := by
  refine ⟨fun gen halts later done orderly => ?_,
    fun gen halts later others done orderly _ complete machine shown starts => ?_⟩
  all_goals
    unfold statement at done
    obtain ⟨_, between, returned, done⟩ := bind_done.mp done
    obtain ⟨rfl, rfl⟩ := Prod.mk.inj (pure_done.mp done)
    obtain ⟨gives, prepared, released, depth, hand, emitted, release, more, rfl⟩ :=
      returnFrom_done returned orderly.bounded
    have grows := Piece.grows_emit more.bounded ⟨.giveBack, .unused, .unused, 0⟩
    have moved : (released.emit ⟨.giveBack, .unused, .unused, 0⟩).1.Grows
        { (released.emit ⟨.giveBack, .unused, .unused, 0⟩).1 with depth } :=
      Piece.grows_of_same grows.bounded rfl rfl fun _ => id
  · exact orderly.goes ((emitted.trans more).toGrows.trans (grows.trans moved)) rfl rfl rfl
  · have complete := moved.completes complete
    have base := starts.at'.base
    have floor := starts.at'.floor
    have stands := starts.at'.stands set orderly others
    have highest : shown.base ≤ act.site.top := by
      have roof := set.roof
      omega
    have ends : ∀ (given : Value) (final : Shown) (machine : Machine),
        act.site.Shows prepared machine final → act.Hands shown given final →
        machine.Comes act.site.program act.site.settings
          (act.Returns given (act.store gen final)) := by
      intro given final machine shows hands
      have floor' := hands.floor
      have base' := hands.base
      refine (comes_giveBack (by exact shows) hands.empty (by dsimp only; omega) (by omega)
        (by exact orderly.frame) release complete).mono ?_
      rintro last ⟨stop, plain, here⟩
      exact ⟨stop, _, plain, here, hands.returned set starts.at', rfl, rfl⟩
    rw [Stmt.exec]
    unfold execResult
    cases value with
    | none =>
      have same : gen.piece = prepared :=
        congrArg Generator.piece (Prod.mk.inj (Task.done.inj hand)).2
      have void : act.context.function.result = .void := by
        simpa [ValueType.isVoid] using gives.symm
      refine ends .void shown machine (same ▸ starts.shows) ⟨void.symm, ?_, starts.at'.empty, rfl,
        rfl, fun _ => trivial,
        fun _ word impossible => ?_, fun _ _ _ _ _ => rfl⟩
      · rw [void]
        rfl
      · cases impossible
    | some value =>
      have runs := runs_returnValue set stands base starts.at'.empty direct
        (by simpa using gives.symm)
        hand rfl ((more.toGrows.trans grows).completes complete) starts.shows
      have flow : (do
          return Flow.result ((← value.eval act.environment
            (act.environment.callWithin bound)).coerce act.context.function.result)) =
          ((do return (← value.eval act.environment
            (act.environment.callWithin bound)).coerce act.context.function.result) >>=
              fun given => (return .result given : Eval Flow)) := by
        simp only [bind_assoc, pure_bind]
      dsimp only
      rw [flow]
      refine Machine.Meets.bind runs ?_
      rintro given _ last ⟨final, shows, rfl, hands⟩
      exact ends given final last shows hands

end Activation

end TinLang
