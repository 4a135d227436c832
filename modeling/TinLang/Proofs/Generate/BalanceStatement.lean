import TinLang.Compile.Frame
import TinLang.Compile.Function
import TinLang.Proofs.Generate.BalanceExpression
import TinLang.Proofs.Generate.Charts
import TinLang.Proofs.Settled

/-!
# Balanced code of statements

A statement leaves the operand stack as it was. It comes back to the depth of its frame on every
path, because jumps out of loops give back the locals of the bodies they leave, and a block whose
end is not reached goes on at the depth it started with.
-/
namespace TinLang

theorem Environment.taken_le_room (env : Environment) (body : Stmt) :
    env.taken body ≤ env.room body := by
  cases body <;> simp [taken, room]

namespace Generator

variable {before between after gen : Generator} {ctx : FunctionContext} {hand : Hand}

/-- Control does not come to the end of the code, unless the depth is wrong anyway. -/
def Stopped (ctx : FunctionContext) (gen : Generator) : Prop :=
  (ctx.Loose ∧ gen.frame < gen.piece.depth) ∨ gen.piece.Sealed

/-- The loops around are the same, and labels are placed where jumps land. -/
structure Proceeds (before after : Generator) : Prop where
  starts : after.starts = before.starts
  marks : (after.piece.barrier = before.piece.barrier ∧ after.landing = before.landing) ∨
    after.piece.barrier = after.landing

theorem Proceeds.refl (gen : Generator) : gen.Proceeds gen :=
  ⟨rfl, .inl ⟨rfl, rfl⟩⟩

theorem Proceeds.trans (first : before.Proceeds between) (second : between.Proceeds after) :
    before.Proceeds after := by
  refine ⟨second.starts.trans first.starts, ?_⟩
  rcases second.marks with ⟨barrier, landing⟩ | same
  · rw [barrier, landing]
    exact first.marks
  · exact .inr same

theorem Proceeds.marked (proceeds : before.Proceeds after)
    (marked : before.piece.barrier = before.landing) : after.piece.barrier = after.landing := by
  rcases proceeds.marks with ⟨barrier, landing⟩ | same
  · rw [barrier, landing, marked]
  · exact same

theorem Alike.proceeds (alike : before.Alike after) : before.Proceeds after := by
  obtain ⟨piece, rfl, barrier⟩ := alike
  exact ⟨rfl, .inl ⟨barrier, rfl⟩⟩

theorem Alike.frame (alike : before.Alike after) : after.frame = before.frame := by
  obtain ⟨piece, rfl, -⟩ := alike
  rfl

/-- The loops around have the depths they had. -/
theorem Proceeds.depths (proceeds : before.Proceeds after) {loop : LoopFrame}
    (mem : loop ∈ after.loops) : ∃ old ∈ before.loops, old.depth = loop.depth := by
  have inside : (loop.start, loop.depth) ∈ before.starts := by
    rw [← proceeds.starts]
    exact List.mem_map.mpr ⟨loop, mem, rfl⟩
  obtain ⟨old, known, same⟩ := List.mem_map.mp inside
  exact ⟨old, known, (Prod.mk.inj same).2⟩

/-- The operand stack is as it was, and the frame has grown by some bytes. -/
structure Settles (ctx : FunctionContext) (hand : Hand) (taken : Nat) (before after : Generator) :
    Prop where
  balanced : after.Balanced ctx 0 hand
  frame : after.frame = before.frame - taken
  proceeds : before.Proceeds after

theorem Settles.trans {hand' : Hand} {taken more : Nat}
    (first : before.Settles ctx hand taken between)
    (second : between.Settles ctx hand' more after) :
    before.Settles ctx hand' (taken + more) after := by
  refine ⟨second.balanced, ?_, first.proceeds.trans second.proceeds⟩
  rw [second.frame, first.frame]
  omega

theorem Settles.same (settles : before.Settles ctx hand 0 after) : after.frame = before.frame :=
  settles.frame.trans (Int.sub_zero _)

theorem Alike.settles (alike : before.Alike after) (balanced : after.Balanced ctx 0 hand) :
    before.Settles ctx hand 0 after :=
  ⟨balanced, by rw [alike.frame]; omega, alike.proceeds⟩

/-- Behind a jump away from a state at another depth, the depth is again that of the frame. -/
theorem Balanced.away (balanced : before.Balanced ctx 0 hand) {depth : Int} (after : Generator)
    (frame : after.frame = before.frame) (kept : wrapSigned (after.frame - depth) =
    after.frame - depth)
    (proceeds : before.Proceeds after) (same : after.errors = before.errors ∧ after.scopes =
    before.scopes)
    (charted : (ctx.Loose ∧ depth < after.piece.depth) ∨
      (after.piece.depth = depth ∧ after.piece.Sealed ∧ ∃ level, after.Charts hand level)) :
    ∀ last, last = { after with
      piece := { after.piece with depth := after.piece.depth + wrapSigned (after.frame - depth) }
        } →
      before.Settles ctx hand 0 last ∧ last.Stopped ctx := by
  rw [kept]
  rintro last rfl
  obtain ⟨errors, scopes⟩ := same
  have taken : after.frame = before.frame - (0 : Nat) := frame.trans (Int.sub_zero _).symm
  have loops : ∀ loop ∈ after.loops, after.frame ≤ loop.depth ∧ loop.depth ≤ 0 := by
    intro loop mem
    obtain ⟨old, known, even⟩ := proceeds.depths mem
    rw [← even, frame]
    exact balanced.loops old known
  have settles := fun right => @Settles.mk ctx hand 0 before { after with
      piece := { after.piece with depth := after.piece.depth + (after.frame - depth) } }
    ⟨errors.trans balanced.errors, frame ▸ balanced.frame, loops, scopes ▸ balanced.scopes, right⟩
    taken ⟨proceeds.starts, proceeds.marks⟩
  rcases charted with ⟨may, high⟩ | ⟨right, stops, level, charts⟩
  · have above : after.frame < after.piece.depth + (after.frame - depth) := by omega
    exact ⟨settles (.inl ⟨may, by rwa [Int.natCast_zero, Int.add_zero]⟩), .inl ⟨may, above⟩⟩
  · refine ⟨settles (.inr ⟨?_, charts.redepth stops _⟩), .inr ⟨stops.barrier, stops.last⟩⟩
    dsimp only
    omega

end Generator

namespace Generate

variable {α β : Type} {ctx : FunctionContext} {gen : Generator} {hand : Hand}

/-- A step of a generator ends in a result and a state that satisfy a condition, unless it reports
a problem. -/
def Ends (ctx : FunctionContext) (step : Generate α) (gen : Generator)
    (ends : α → Generator → Prop) : Prop :=
  (step ctx gen).Finds fun result => ends result.1 result.2

theorem Ends.bind {step : Generate α} {next : α → Generate β} {middle : α → Generator → Prop}
    {ends : β → Generator → Prop} (first : Ends ctx step gen middle)
    (later : ∀ value between, middle value between → Ends ctx (next value) between ends) :
    Ends ctx (step >>= next) gen ends :=
  first.andThen fun result reached => later result.1 result.2 reached

theorem Ends.mono {step : Generate α} {ends wanted : α → Generator → Prop}
    (first : Ends ctx step gen ends)
    (weaker : ∀ value later, ends value later → wanted value later) :
    Ends ctx step gen wanted :=
  Task.Finds.mono first fun result reached => weaker result.1 result.2 reached

theorem Ends.map {step : Generate α} {function : α → β} {middle : α → Generator → Prop}
    {ends : β → Generator → Prop} (first : Ends ctx step gen middle)
    (mapped : ∀ value later, middle value later → ends (function value) later) :
    Ends ctx (function <$> step) gen ends :=
  first.andThen fun result reached => mapped result.1 result.2 reached

theorem Ends.environment {next : Environment → Generate β} {ends : β → Generator → Prop}
    (later : Ends ctx (next ctx.environment) gen ends) :
    Ends ctx (environment >>= next) gen ends := later

theorem Ends.read {next : FunctionContext → Generate β} {ends : β → Generator → Prop}
    (later : Ends ctx (next ctx) gen ends) :
    Ends ctx (read >>= next) gen ends := later

theorem Ends.get {next : Generator → Generate β} {ends : β → Generator → Prop}
    (later : Ends ctx (next gen) gen ends) :
    Ends ctx (get >>= next) gen ends := later

theorem Ends.modify {step : Generator → Generator} {next : Unit → Generate β}
    {ends : β → Generator → Prop} (later : Ends ctx (next ()) (step gen) ends) :
    Ends ctx (modify step >>= next) gen ends := later

theorem Ends.ite {test : Prop} [Decidable test] {yes no : Generate β}
    {ends : β → Generator → Prop} (first : test → Ends ctx yes gen ends)
    (second : ¬ test → Ends ctx no gen ends) :
    Ends ctx (if test then yes else no) gen ends := by
  split
  · next holds => exact first holds
  · next fails => exact second fails

/-- After a report nothing is promised. -/
theorem Ends.reported {next : Unit → Generate β} {ends : β → Generator → Prop} {span : Span}
    {cause : ProblemCause} : Ends ctx (report span cause >>= next) gen ends := trivial

theorem Turns.ends {before : Nat} {after : α → Nat} {step : Generate α} {yields : α → Prop}
    (turns : Turns ctx before step after yields)
    (balanced : gen.Balanced ctx before hand) :
    Ends ctx step gen fun value later =>
      later.Balanced ctx (after value) hand ∧ gen.Alike later ∧ yields value := by
  refine Task.Finds.mono (turns 0 hand gen (by rwa [Nat.zero_add])) ?_
  rintro ⟨value, later⟩ ⟨kept, alike, yielded⟩
  rw [Nat.zero_add] at kept
  exact ⟨kept, alike, yielded⟩

/-- A statement says whether it jumps away, and takes some bytes of the frame. -/
def Runs (ctx : FunctionContext) (step : Generate Bool) (room taken : Nat) (stops : Bool) :
    Prop :=
  ∀ hand gen, gen.Balanced ctx 0 hand →
    (room : Int) < 2 ^ 31 + gen.frame →
    Ends ctx step gen fun halts later => halts = stops ∧
      gen.Settles ctx hand taken later ∧ (stops = true → later.Stopped ctx)

theorem turns_setLine (number : Nat) : Turns ctx 0 (setLine number) fun _ => 0 := by
  intro rest hand gen balanced
  have moves := Piece.moves_setLine number (gen.file.line number)
  exact ⟨balanced.change moves (Int.zero_add _).symm, ⟨_, rfl, moves.barrier _⟩, trivial⟩

/-- A statement that is not reported leaves the depth of its frame. -/
theorem Ends.checkDepth {span : Span} {next : Unit → Generate β} {ends : β → Generator → Prop}
    (errors : gen.errors = 0) (kept : wrapSigned gen.frame = gen.frame)
    (later : gen.piece.depth = gen.frame → Ends ctx (next ()) gen ends) :
    Ends ctx (Generate.checkDepth span >>= next) gen ends := by
  have unfolded : Generate.checkDepth span ctx gen =
      (if gen.errors = 0 ∧ gen.piece.depth ≠ wrapSigned gen.frame then
        report span (.unbalanced gen.piece.depth (wrapSigned gen.frame))
      else pure () : Generate Unit) ctx gen := rfl
  rw [kept] at unfolded
  have checked : Ends ctx (Generate.checkDepth span) gen fun _ last =>
      last = gen ∧ gen.piece.depth = gen.frame := by
    rw [Ends, unfolded]
    split
    · trivial
    · next fits => exact ⟨rfl, Decidable.not_not.mp fun differs => fits ⟨errors, differs⟩⟩
  exact checked.bind fun _ last ⟨same, even⟩ => same ▸ later even

variable (measured : ctx.Measured)

include measured in
theorem turns_condition (test : Expr) : Turns ctx 0 (condition test) fun _ => 0 := by
  refine (turns_expr measured test).andThen ?_
  rintro _ ⟨type, rfl⟩
  refine .look turns_environment fun env same => ?_
  subst same
  refine .ite (fun _ => .reported _ _) fun word => ?_
  rw [Environment.bytesOf_of_leavesOf (Decidable.not_not.mp word)]
  exact turns_pop (by decide)

theorem turns_clearLocal (offset : Int) (size : Nat) :
    Turns ctx 0 (clearLocal offset size) fun _ => 0 :=
  .look (turns_emit rfl rfl rfl (by decide) rfl) fun _ _ =>
    .look (turns_increase (by decide) _) fun _ _ => .look (turns_setNumber (by decide) _) fun _ _ =>
    turns_emit rfl rfl rfl (by decide) rfl

theorem ends_declare (span : Span) (name : Text) {meaning : LocalMeaning}
    (known : meaning.Known ctx)
    (balanced : gen.Balanced ctx 0 hand) :
    Ends ctx (declare span name meaning) gen fun _ later =>
      gen.Settles ctx hand 0 later ∧ later.piece = gen.piece := by
  refine .get ?_
  cases scopes : gen.scopes with
  | nil => exact ⟨(Generator.Alike.refl gen).settles balanced, rfl⟩
  | cons scope outer =>
    dsimp only
    split
    · trivial
    · refine ⟨⟨⟨balanced.errors, balanced.frame, balanced.loops, ?_, ?_⟩,
        (Int.sub_zero _).symm, rfl, .inl ⟨rfl, rfl⟩⟩, rfl⟩
      case refine_2 =>
        refine balanced.depth.imp_right ?_
        rintro ⟨depth, level, charts⟩
        exact ⟨depth, level, charts.congr rfl rfl⟩
      have old := balanced.scopes
      rw [scopes] at old
      intro inner mem entry inside
      rcases List.mem_cons.mp mem with rfl | outside
      · rcases List.mem_cons.mp inside with rfl | earlier
        · exact known
        · exact old scope List.mem_cons_self entry earlier
      · exact old inner (List.mem_cons_of_mem _ outside) entry inside

/-- The frame grows by bytes that were reserved on the stack. -/
theorem balanced_lower {ctx : FunctionContext} {size : Nat}
    (balanced : gen.Balanced ctx size hand) :
    Generator.Balanced ctx 0 hand { gen with frame := gen.frame - size } := by
  have frame := balanced.frame
  refine ⟨balanced.errors, ?_, fun loop mem => ?_, balanced.scopes, ?_⟩
  · dsimp only
    omega
  · have known := balanced.loops loop mem
    dsimp only
    omega
  · dsimp only
    rcases balanced.depth with ⟨may, high⟩ | ⟨depth, level, charts⟩
    · exact .inl ⟨may, by omega⟩
    · exact .inr ⟨by omega, level, charts.congr rfl rfl⟩

include measured in
theorem ends_declareVariable (span : Span) (name : Text) (written : TypeExpr) (value : Option Expr)
    (balanced : gen.Balanced ctx 0 hand)
    (room : (ctx.environment.placeSize written : Int) < 2 ^ 31 + gen.frame) :
    Ends ctx (declareVariable span name written value) gen fun _ later =>
      gen.Settles ctx hand (ctx.environment.placeSize written) later := by
  refine Ends.bind ((turns_writtenType written).ends balanced) ?_
  rintro found between ⟨balanced, alike, type, same, named⟩
  subst same
  dsimp only
  by_cases nothing : type.isVoid
  · rw [if_pos nothing]
    trivial
  rw [if_neg nothing]
  have placed : Placed (some type) := ⟨type, rfl, by simpa [ValueType.isVoid] using nothing⟩
  have size : ctx.environment.placeSize written =
      alignUp (ctx.environment.structs.sizeOf type) wordSize := by
    rw [Environment.placeSize, named]
    rfl
  rw [size] at room ⊢
  refine .environment ?_
  generalize alignUp (ctx.environment.structs.sizeOf type) wordSize = size at room ⊢
  have reserve : Turns ctx 0 (increase .stackPointer (-(size : Nat))) fun _ => size :=
    turns_reserve (.inr (by have below := balanced.frame; have frame := alike.frame; omega))
  refine Ends.bind (reserve.ends balanced) ?_
  rintro - lowered ⟨balanced, reserved, -⟩
  refine .modify (.get ?_)
  have proceeds := alike.proceeds.trans reserved.proceeds
  have start : gen.Settles ctx hand size
      { lowered with frame := lowered.frame - size } :=
    ⟨balanced_lower balanced, by dsimp only; rw [reserved.frame, alike.frame],
      proceeds.starts, proceeds.marks⟩
  generalize { lowered with frame := lowered.frame - (size : Int) } = begun at start ⊢
  have known : (LocalMeaning.variable (some type) begun.frame).Known ctx :=
    ⟨placed, .inl ⟨by have frame := start.frame; omega, start.balanced.frame⟩⟩
  have declared : ∀ later, begun.Alike later → later.Balanced ctx 0 hand →
      Ends ctx (declare span name (.variable (some type) begun.frame)) later fun _ last =>
        gen.Settles ctx hand size last :=
    fun later alike balanced => (ends_declare span name known balanced).mono
      fun _ last settles => (start.trans (alike.settles balanced)).trans settles.1
  cases value with
  | none =>
    refine Ends.bind ((turns_clearLocal _ _).ends start.balanced) ?_
    rintro - later ⟨balanced, alike, -⟩
    exact declared later alike balanced
  | some value =>
    refine Ends.bind ((turns_expr measured value).ends start.balanced) ?_
    rintro found later ⟨balanced, alike, source, same⟩
    subst same
    refine Ends.bind ((turns_coerce source (some type)).ends balanced) ?_
    rintro found coerced ⟨balanced, alike', given, same⟩
    subst same
    refine Ends.bind (((turns_fits value.span type given (.variableValue name)).under
      (ctx.environment.bytesOf (some given))).ends balanced) ?_
    rintro fitting last ⟨balanced, alike'', fits, even⟩
    subst fits
    rw [if_pos rfl]
    rw [Nat.add_zero, even] at balanced
    refine Ends.bind ((turns_popTo measured .basePointer _ placed).ends balanced) ?_
    rintro - stored ⟨balanced, popped, -⟩
    exact declared stored (((alike.trans alike').trans alike'').trans popped) balanced

theorem ends_declareConstant (decl : ConstDecl)
    (balanced : gen.Balanced ctx 0 hand) :
    Ends ctx (declareConstant decl) gen fun _ later =>
      gen.Settles ctx hand 0 later := by
  refine .environment ?_
  split
  · next constant found =>
    have known : (LocalMeaning.constant constant).Known ctx := Check.isSome_of_constantOf found
    exact (ends_declare _ _ known balanced).mono fun _ later declared => declared.1
  · trivial

theorem turns_popResult (block : Nat) (indices : List Nat) :
    Turns ctx (wordSize * indices.length) (popResult block indices) fun _ => 0 := by
  induction indices with
  | nil => exact .pure trivial rfl
  | cons index indices ih =>
    refine (turns_pop (by decide)).bind (wordSize * indices.length) ?_ fun _ _ => ?_
    · rw [List.length_cons, Nat.mul_succ]
    · refine .look (turns_emitNumber rfl rfl rfl (.inl (by decide)) rfl) fun _ _ => ?_
      rwa [Nat.add_zero]

include measured in
/-- A value that is wanted is left on the operand stack. -/
theorem turns_wanted (value : Expr) (type : ValueType) (use : Use)
    {next : Generate Unit} {other : Option ValueType → Generate Unit}
    (taken : Turns ctx (ctx.environment.bytesOf (some type)) next fun _ => 0) :
    Turns ctx 0 (do
      let given ← coerce (← expr value) (some type)
      if ← fits value.span (some type) given use then next
      else other given) fun _ => 0 := by
  refine (turns_expr measured value).andThen ?_
  rintro _ ⟨source, rfl⟩
  refine (turns_coerce source (some type)).andThen ?_
  rintro _ ⟨given, rfl⟩
  refine .look (turns_fits value.span type given use) ?_
  rintro _ ⟨rfl, even⟩
  rw [even]
  exact taken

include measured in
theorem turns_returnValue (value : Expr) (gives : ¬ ctx.function.result.isVoid) :
    Turns ctx 0 (returnValue value) fun _ => 0 := by
  refine .read (turns_wanted measured value ctx.function.result .returnValue ?_)
  refine .ite (fun main => ?_) fun _ => .look turns_environment fun env same => ?_
  · rcases measured.main main with nothing | whole
    · simp [nothing, ValueType.isVoid] at gives
    · rw [whole]
      exact turns_pop (by decide)
  · subst same
    refine (turns_popResult _ _).congr ?_ fun _ _ => rfl
    rw [List.length_range, Environment.bytesOf]

/-- Locals are given back with the code, as long as they fit an immediate. -/
theorem ends_release {depth : Int} (above : gen.frame ≤ depth)
    (small : depth - gen.frame < 2 ^ 31) :
    Ends ctx (release depth) gen fun _ later =>
      ∃ step, Piece.Moves step (depth - gen.frame) ∧
        later = { gen with piece := step gen.piece } := by
  have unfolded : release depth ctx gen =
      (if wrapSigned (depth - gen.frame) ≠ 0 then
        increase .stackPointer (wrapSigned (depth - gen.frame))
      else pure () : Generate Unit) ctx gen := rfl
  rw [Ends, unfolded, wrapSigned_eq (by omega) (by omega)]
  split
  · have moves := @Piece.moves_emitImmediate ⟨.increase, .stackPointer, .unused, 0⟩ rfl rfl rfl rfl
      (.ofInt 32 (depth - gen.frame))
    have shift : Instruction.shift ⟨.increase, .stackPointer, .unused, 0⟩
        (.ofInt 32 (depth - gen.frame)) = depth - gen.frame := by
      show (BitVec.ofInt 32 (depth - gen.frame)).toInt = _
      rw [BitVec.toInt_ofInt, Int.bmod_eq_of_le (by omega) (by omega)]
    rw [shift] at moves
    exact ⟨_, moves, rfl⟩
  · next nothing =>
    have same : depth - gen.frame = 0 := Decidable.not_not.mp nothing
    rw [same]
    refine ⟨id, ⟨fun _ => rfl, fun _ => (Int.add_zero _).symm, fun piece level holes levelled _ =>
      ⟨level, levelled, fun cell _ => ⟨rfl, id⟩⟩⟩, rfl⟩

include measured in
theorem ends_returnFrom (span : Span) (value : Option Expr)
    (balanced : gen.Balanced ctx 0 hand) (small : -(2 ^ 31) < gen.frame) :
    Ends ctx (returnFrom span value) gen fun _ later =>
      gen.Settles ctx hand 0 later ∧ later.Stopped ctx := by
  have finish : ∀ between, between.Balanced ctx 0 hand → gen.Alike between →
      Ends ctx (do
        release 0
        let later ← get
        if later.errors = 0 ∧ later.piece.depth ≠ 0 then
          report span (.unbalancedReturn later.piece.depth)
        emit .giveBack .unused .unused
        change fun piece => { piece with depth := gen.piece.depth }) between fun _ later =>
          gen.Settles ctx hand 0 later ∧ later.Stopped ctx := by
    intro between kept alike
    have frame := alike.frame
    refine Ends.bind (ends_release kept.frame (by omega)) ?_
    rintro - - ⟨step, moves, rfl⟩
    refine .get ?_
    rcases kept.lifted moves with ⟨-, high⟩ | ⟨all, level, charts⟩
    · rw [if_pos ⟨kept.errors, Int.ne_of_gt high⟩]
      trivial
    rw [if_neg fun wrong => wrong.2 all]
    obtain ⟨level', returned⟩ := charts.giveBack all
    have emitted : ((step between.piece).emit ⟨.giveBack, .unused, .unused, 0⟩).1 =
        (step between.piece).extend (Instruction.cells ⟨.giveBack, .unused, .unused, 0⟩ 0) []
          ((step between.piece).depth + 0) := Piece.emit_eq rfl (by simp) (by simp)
    have sealed' : ((step between.piece).emit ⟨.giveBack, .unused, .unused, 0⟩).1.Sealed := by
      rw [emitted]
      exact Piece.sealed_extend charts.levelled.barrier rfl
    obtain ⟨level'', restored⟩ := returned.redepth sealed' gen.piece.depth
    have barrier : ((step between.piece).emit ⟨.giveBack, .unused, .unused, 0⟩).1.barrier =
        between.piece.barrier := by
      rw [emitted]
      exact moves.barrier between.piece
    refine ⟨⟨⟨kept.errors, kept.frame, kept.loops, kept.scopes, ?_⟩, ?_, ?_⟩,
      .inr ⟨sealed'.barrier, sealed'.last⟩⟩
    · rcases balanced.depth with ⟨may, high⟩ | ⟨right, -⟩
      · exact .inl ⟨may, Int.lt_of_le_of_lt (Int.le_of_eq frame) high⟩
      · exact .inr ⟨right.trans frame.symm, level'', restored⟩
    · exact frame.trans (Int.sub_zero _).symm
    · exact alike.proceeds.trans ⟨rfl, .inl ⟨barrier, rfl⟩⟩
  refine .read (.get ?_)
  cases value with
  | none => exact .ite (fun _ => .reported) fun _ => finish _ balanced (.refl _)
  | some value =>
    refine .ite (fun _ => .reported) fun gives => ?_
    refine Ends.bind ((turns_returnValue measured value gives).ends balanced) ?_
    exact fun _ between ⟨kept, alike, _⟩ => finish between kept alike

/-- A jump that has no end yet. -/
theorem ends_jump (op : Opcode) (leaps : op.leaps) (reg : Register)
    (balanced : gen.Balanced ctx 0 hand) :
    Ends ctx (jump op reg) gen fun cell later => gen.Alike later ∧
      later.Balanced ctx 0
        { hand with holes := (cell, gen.frame) :: hand.holes } := by
  have barrier : (gen.piece.emitJump op reg).1.barrier = gen.piece.barrier := by
    rw [Piece.emitJump_eq leaps]
    rfl
  exact ⟨⟨_, rfl, barrier⟩, balanced.jump leaps reg⟩

/-- A jump lands where the frame is as deep as where it starts. -/
theorem ends_land {cell : Nat} {holes labels : List (Nat × Int)}
    (balanced : gen.Balanced ctx 0 ⟨(cell, gen.frame) :: holes, labels⟩) :
    Ends ctx (land cell) gen fun _ later =>
      gen.Settles ctx ⟨holes, labels⟩ 0 later ∧
        later.piece.barrier = later.landing :=
  have marked := Piece.barrier_fixJump _
  ⟨⟨balanced.land _, (Int.sub_zero _).symm, rfl, .inr marked⟩, marked⟩

theorem ends_landAll {cells : List Nat} {holes labels : List (Nat × Int)}
    (balanced : gen.Balanced ctx 0
      ⟨cells.map (fun cell => (cell, gen.frame)) ++ holes, labels⟩) :
    Ends ctx (cells.forM land) gen fun _ later =>
      gen.Settles ctx ⟨holes, labels⟩ 0 later := by
  induction cells generalizing gen with
  | nil => exact (Generator.Alike.refl gen).settles balanced
  | cons cell cells ih =>
    refine Ends.bind (ends_land balanced) fun _ between ⟨landed, _⟩ => ?_
    rw [← landed.same] at landed
    exact (ih landed.balanced).mono fun _ later settles => landed.trans settles

/-- A jump out of the innermost loop, or to its condition. -/
theorem ends_jumpOut (span : Span) (leaves : Bool)
    (balanced : gen.Balanced ctx 0 hand) (small : -(2 ^ 31) < gen.frame) :
    Ends ctx (jumpOut span leaves) gen fun halts later => halts = true ∧
      gen.Settles ctx hand 0 later ∧ later.Stopped ctx := by
  refine .get ?_
  cases loops : gen.loops with
  | nil => trivial
  | cons loop outer =>
    have known := balanced.loops loop (loops ▸ List.mem_cons_self)
    have kept : wrapSigned (gen.frame - loop.depth) = gen.frame - loop.depth :=
      wrapSigned_eq (by omega) (by omega)
    refine Ends.bind (ends_release known.1 (by omega)) ?_
    rintro - - ⟨step, moves, rfl⟩
    have lifted := balanced.lifted moves
    have barrier := moves.barrier gen.piece
    cases leaves with
    | false =>
      have emitted := @Piece.emitJumpBack_eq (step gen.piece) loop.start
      refine ⟨rfl, balanced.away { gen with
        piece := (step gen.piece).emitJumpBack .jump .unused loop.start } rfl kept
        ⟨rfl, .inl ⟨?_, rfl⟩⟩ ⟨rfl, rfl⟩ ?_ _ rfl⟩
      · rw [emitted]
        exact barrier
      · rcases lifted with high | ⟨right, level, charts⟩
        · exact .inl (by rwa [emitted])
        · refine .inr ⟨by rwa [emitted], ?_, charts.jumpBack (right ▸ known.2) ?_⟩
          · rw [emitted]
            exact Piece.sealed_extend charts.levelled.barrier rfl
          · rw [right]
            have inside : loop ∈ gen.loops := loops ▸ List.mem_cons_self
            exact List.mem_append_right _ (List.mem_map.mpr ⟨loop, inside, rfl⟩)
    | true =>
      have jumps : Opcode.leaps .jump := rfl
      have emitted := @Piece.emitJump_eq (step gen.piece) .jump jumps .unused
      refine ⟨rfl, balanced.away { gen with
        piece := ((step gen.piece).emitJump .jump .unused).1
        loops := { loop with exits := loop.exits ++ [(step gen.piece).size + 1] } ::
          outer } rfl kept
        ⟨?_, .inl ⟨?_, rfl⟩⟩ ⟨rfl, rfl⟩ ?_ _ rfl⟩
      · simp [Generator.starts, loops]
      · rw [emitted]
        exact barrier
      · rcases lifted with high | ⟨right, level, charts⟩
        · exact .inl (by rwa [emitted])
        · obtain ⟨level', jumped⟩ := charts.jump (right ▸ known.2) jumps .unused
          refine .inr ⟨by rwa [emitted], ?_, level', jumped.regroup rfl ?_ ?_⟩
          · rw [emitted]
            exact Piece.sealed_extend charts.levelled.barrier rfl
          · intro hole
            simp [Generator.exits, loops, right, or_left_comm]
          · intro label
            simp [Generator.starts, loops]

/-- The end of some statements: the frame is as it was before them. -/
theorem ends_endStatements {depth : Int} {halts : Bool}
    (balanced : gen.Balanced ctx 0 hand) (above : gen.frame ≤ depth)
    (negative : depth ≤ 0) (small : -(2 ^ 31) < gen.frame)
    (loops : ∀ loop ∈ gen.loops, depth ≤ loop.depth)
    (stopped : halts = true → gen.Stopped ctx) :
    Ends ctx (endStatements depth halts) gen fun _ later =>
      later.Balanced ctx 0 hand ∧ later.frame = depth ∧ gen.Proceeds later ∧
        (halts = true → later.Stopped ctx) ∧
        (gen.piece.depth = gen.frame → later.piece.depth = depth) := by
  cases halts with
  | true =>
    have halted := stopped rfl
    have kept : wrapSigned (depth - gen.frame) = depth - gen.frame :=
      wrapSigned_eq (by omega) (by omega)
    have ended : endStatements depth true ctx gen = .done ((), { gen with
        piece := { gen.piece with depth := gen.piece.depth + (depth - gen.frame) }
        frame := depth }) := by
      rw [← kept]
      rfl
    rw [Ends, ended]
    refine ⟨balanced.redepth halted negative loops, rfl, ⟨rfl, .inl ⟨rfl, rfl⟩⟩, fun _ => ?_,
      fun even => ?_⟩
    · rcases halted with ⟨may, high⟩ | halted
      · refine .inl ⟨may, ?_⟩
        show depth < gen.piece.depth + (depth - gen.frame)
        omega
      · exact .inr ⟨halted.barrier, halted.last⟩
    · show gen.piece.depth + (depth - gen.frame) = depth
      omega
  | false =>
    refine Ends.bind (ends_release above (by omega)) ?_
    rintro - - ⟨step, moves, rfl⟩
    refine ⟨⟨balanced.errors, negative, fun loop mem => ⟨loops loop mem,
      (balanced.loops loop mem).2⟩, balanced.scopes, ?_⟩, rfl,
      ⟨rfl, .inl ⟨moves.barrier _, rfl⟩⟩, (nomatch ·), fun even => ?_⟩
    · have lifted := balanced.lifted moves
      simpa only [Int.natCast_zero, Int.add_zero] using lifted.imp_right
        fun ⟨right, level, charts⟩ =>
        ⟨right, level, charts.congr rfl rfl⟩
    · show (step gen.piece).depth = depth
      rw [moves.depth]
      omega

/-- A scope that is opened or closed. -/
theorem balanced_scopes {bytes : Nat} {scopes : List Scope}
    (balanced : gen.Balanced ctx bytes hand)
    (known : ∀ scope ∈ scopes, ∀ entry ∈ scope, entry.2.Known ctx) :
    Generator.Balanced ctx bytes hand { gen with scopes } :=
  ⟨balanced.errors, balanced.frame, balanced.loops, known, balanced.depth.imp_right
    fun ⟨right, level, charts⟩ => ⟨right, level, charts.congr rfl rfl⟩⟩

/-- A loop starts with a label of the depth of its frame. -/
theorem ends_startLoop (balanced : gen.Balanced ctx 0 hand) :
    Ends ctx startLoop gen fun start later =>
      later.Balanced ctx 0
        { hand with labels := (start, gen.frame) :: hand.labels } ∧
      later.frame = gen.frame ∧ later.starts = gen.starts :=
  ⟨balanced.label, rfl, rfl⟩

/-- A jump back leads to a label where the frame is as deep. -/
theorem ends_jumpBack {start : Nat} (balanced : gen.Balanced ctx 0 hand)
    (label : (start, gen.frame) ∈ hand.labels ++ gen.starts) :
    Ends ctx (change (·.emitJumpBack .jump .unused start)) gen fun _ later =>
      later.Balanced ctx 0 hand ∧ later.frame = gen.frame ∧
        later.starts = gen.starts :=
  ⟨balanced.jumpBack label, rfl, rfl⟩

/-- The label of a loop passes to the loops around its body. -/
theorem ends_enterLoop {start : Nat} (balanced : gen.Balanced ctx 0
      { hand with labels := (start, gen.frame) :: hand.labels }) :
    Ends ctx (enterLoop start) gen fun _ later =>
      later.Balanced ctx 0 hand ∧ later.frame = gen.frame ∧
        later.starts = (start, gen.frame) :: gen.starts := by
  refine ⟨balanced.regroup rfl ?_ ?_ ?_, rfl, rfl⟩
  · intro loop mem
    rcases List.mem_cons.mp mem with rfl | outer
    · exact .inl rfl
    · exact .inr ⟨loop, outer, rfl⟩
  · intro hole
    simp [Generator.exits]
  · intro label
    simp [Generator.starts, or_left_comm]

/-- Behind its body, the jumps out of a loop are in hand, and its label too. -/
theorem ends_leaveLoop {start : Nat} {outer : List (Nat × Int)}
    (balanced : gen.Balanced ctx 0 hand)
    (starts : gen.starts = (start, gen.frame) :: outer) :
    Ends ctx leaveLoop gen fun exits later =>
      later.Balanced ctx 0
        ⟨exits.map (fun cell => (cell, gen.frame)) ++ hand.holes,
          (start, gen.frame) :: hand.labels⟩ ∧
      later.frame = gen.frame ∧ later.starts = outer := by
  cases loops : gen.loops with
  | nil => simp [Generator.starts, loops] at starts
  | cons loop rest =>
    simp only [Generator.starts, loops, List.map_cons, List.cons.injEq, Prod.mk.injEq] at starts
    obtain ⟨⟨first, depth⟩, others⟩ := starts
    have unfolded : leaveLoop ctx gen =
        .done (loop.exits, { gen with loops := rest }) := by
      show Task.done (_, _) = _
      simp [loops]
    rw [Ends, unfolded]
    refine ⟨balanced.regroup rfl ?_ ?_ ?_, rfl, others⟩
    · intro inner mem
      exact .inr ⟨inner, loops ▸ List.mem_cons_of_mem _ mem, rfl⟩
    · intro hole
      simp [Generator.exits, loops, depth, or_left_comm]
    · intro label
      simp [Generator.starts, loops, first, depth, or_left_comm]

section Statements

mutual

theorem runs_statement (measured : ctx.Measured) (body : Stmt) :
    Runs ctx (statement body) (ctx.environment.room body)
      (ctx.environment.taken body) body.stops := by
  cases body with
  | declare span name type value =>
    unfold statement
    intro hand gen balanced room
    exact Ends.bind (ends_declareVariable measured span name type value balanced room)
      fun _ later settles => ⟨rfl, settles, (nomatch ·)⟩
  | constant decl =>
    unfold statement
    intro hand gen balanced room
    exact Ends.bind (ends_declareConstant decl balanced)
      fun _ later settles => ⟨rfl, settles, (nomatch ·)⟩
  | evaluate span value =>
    unfold statement
    intro hand gen balanced room
    refine Ends.bind ((turns_expr measured value).ends balanced) ?_
    rintro type valued ⟨kept, alike, -⟩
    exact Ends.bind ((turns_discard measured type).ends kept)
      fun _ later ⟨kept, alike', _⟩ => ⟨rfl, (alike.trans alike').settles kept, (nomatch ·)⟩
  | branch span test body otherwise =>
    unfold statement
    intro hand gen balanced room
    obtain ⟨inside, other⟩ : (ctx.environment.blockRoom body : Int) < 2 ^ 31 + gen.frame ∧
        ((otherwise.map ctx.environment.room).getD 0 : Int) < 2 ^ 31 + gen.frame := by
      cases otherwise <;> simp [Environment.room] at room ⊢ <;> omega
    refine Ends.bind ((turns_condition measured test).ends balanced) ?_
    rintro - tested ⟨kept, alike, -⟩
    refine Ends.bind (ends_jump .jumpZero rfl .a kept) fun skip jumped ⟨alike', kept⟩ => ?_
    have frame := alike'.frame.trans alike.frame
    refine Ends.bind (runs_block measured body _ jumped kept (by rwa [frame])) ?_
    rintro halts done ⟨-, settles, -⟩
    have before := ((alike.trans alike').settles kept).trans settles
    refine Ends.bind (ends_alternative measured skip halts otherwise hand done ?_ ?_) ?_
    · have kept := settles.balanced
      rwa [← alike'.frame, ← settles.same] at kept
    · rwa [before.same]
    · exact fun _ later settles => ⟨rfl, before.trans settles, (nomatch ·)⟩
  | loop span test body =>
    unfold statement
    intro hand gen balanced room
    refine Ends.bind (ends_startLoop balanced) ?_
    rintro start started ⟨kept, frame, starts⟩
    refine Ends.bind ((turns_condition measured test).ends kept) ?_
    rintro - tested ⟨kept, alike, -⟩
    refine Ends.bind (ends_jump .jumpZero rfl .a kept) fun exit jumped ⟨alike', kept⟩ => ?_
    have before := alike.trans alike'
    have frame := before.frame.trans frame
    rw [← frame, ← alike'.frame] at kept
    refine Ends.bind (@ends_enterLoop _ _ ⟨(exit, jumped.frame) :: hand.holes, hand.labels⟩ start
      kept) ?_
    rintro - entered ⟨kept, inside, starts'⟩
    rw [before.proceeds.starts.trans starts] at starts'
    refine Ends.bind (runs_block measured body _ entered kept (by rwa [inside, frame])) ?_
    rintro - left ⟨-, settles, -⟩
    have same : left.frame = jumped.frame := settles.same.trans inside
    refine Ends.bind (ends_leaveLoop settles.balanced
      (settles.proceeds.starts.trans (same ▸ starts'))) ?_
    rintro exits done ⟨kept, frame', starts''⟩
    rw [same] at kept frame'
    rw [← frame'] at kept
    refine Ends.bind (ends_jumpBack kept (List.mem_append_left _ List.mem_cons_self)) ?_
    rintro - back ⟨kept, even, begun⟩
    rw [← even] at kept
    have landing : back.Balanced ctx 0 ⟨(exit, back.frame) ::
        (exits.map (fun cell => (cell, back.frame)) ++ hand.holes), hand.labels⟩ := by
      refine kept.regroup rfl (fun loop mem => .inr ⟨loop, mem, rfl⟩) (fun hole => ?_)
        fun label mem => List.mem_cons_of_mem _ mem
      simp [or_left_comm, even, frame']
    refine Ends.bind (ends_land landing) fun _ landed ⟨first, marked⟩ => ?_
    rw [← first.same] at first
    refine Ends.bind (ends_landAll first.balanced) fun _ later settles => ?_
    have frames := (settles.same.trans first.same).trans (even.trans (frame'.trans frame))
    exact ⟨rfl, ⟨settles.balanced, frames.trans (Int.sub_zero _).symm,
      settles.proceeds.starts.trans (first.proceeds.starts.trans (begun.trans starts'')),
      .inr (settles.proceeds.marked marked)⟩, (nomatch ·)⟩
  | leave span =>
    unfold statement
    intro hand gen balanced room
    exact (ends_jumpOut span true balanced (by simp [Environment.room] at room; omega)).mono
      fun _ later ⟨stops, settles, stopped⟩ => ⟨stops, settles, fun _ => stopped⟩
  | again span =>
    unfold statement
    intro hand gen balanced room
    exact (ends_jumpOut span false balanced (by simp [Environment.room] at room; omega)).mono
      fun _ later ⟨stops, settles, stopped⟩ => ⟨stops, settles, fun _ => stopped⟩
  | result span value =>
    unfold statement
    intro hand gen balanced room
    exact Ends.bind (ends_returnFrom measured span value balanced
        (by simp [Environment.room] at room; omega))
      fun _ later ⟨settles, stopped⟩ => ⟨rfl, settles, fun _ => stopped⟩
  | block body =>
    unfold statement
    exact runs_block measured body

theorem ends_alternative (measured : ctx.Measured) (skip : Nat) (halts : Bool)
    (otherwise : Option Stmt) : ∀ (hand : Hand) (gen : Generator),
    gen.Balanced ctx 0
      { hand with holes := (skip, gen.frame) :: hand.holes } →
    ((otherwise.map ctx.environment.room).getD 0 : Int) < 2 ^ 31 + gen.frame →
    Ends ctx (alternative skip halts otherwise) gen fun _ later =>
      gen.Settles ctx hand 0 later := by
  intro hand gen balanced room
  cases otherwise with
  | none =>
    unfold alternative
    exact (ends_land balanced).mono fun _ later landed => landed.1
  | some other =>
    have follow : ∀ (held : Hand) (next : Generate Unit) (landed : Generator),
        gen.Settles ctx held 0 landed →
        (∀ later, gen.Settles ctx held 0 later → Ends ctx next later fun _ last =>
          gen.Settles ctx hand 0 last) →
        Ends ctx (match other with
          | .block body => do
            let _ ← block body
            next
          | .branch span test body otherwise => do
            setLine span.start.line
            let _ ← statement (.branch span test body otherwise)
            next
          | _ => next) landed fun _ last => gen.Settles ctx hand 0 last := by
      intro held next landed settles last
      have frame := settles.same
      cases other with
      | block body =>
        exact Ends.bind (runs_block measured body held landed settles.balanced (by rwa [frame]))
          fun _ later ⟨_, more, _⟩ => last later (settles.trans more)
      | branch span test body otherwise =>
        refine Ends.bind ((turns_setLine _).ends settles.balanced) ?_
        rintro - marked ⟨kept, alike, -⟩
        refine Ends.bind (runs_statement measured (.branch span test body otherwise)
          held marked kept
          (by rwa [alike.frame, frame])) ?_
        rintro - later ⟨-, more, -⟩
        exact last later ((settles.trans (alike.settles kept)).trans more)
      | _ => exact last landed settles
    have rest : ∀ (finish : Option Nat) (started : Generator),
        gen.Settles ctx ⟨(skip, gen.frame) ::
          (finish.toList.map (fun cell => (cell, gen.frame)) ++ hand.holes), hand.labels⟩ 0
            started →
        Ends ctx (do
          land skip
          match other with
          | .block body => let _ ← block body
          | .branch span test body otherwise =>
            setLine span.start.line
            let _ ← statement (.branch span test body otherwise)
          | _ => pure ()
          match finish with
          | some cell => land cell
          | none => return ()) started fun _ last => gen.Settles ctx hand 0 last := by
      intro finish started settles
      have kept : started.Balanced ctx 0 ⟨(skip, started.frame) ::
          (finish.toList.map (fun cell => (cell, gen.frame)) ++ hand.holes), hand.labels⟩ := by
        rw [settles.same]
        exact settles.balanced
      refine Ends.bind (ends_land kept) fun _ landed ⟨more, _⟩ => ?_
      refine follow _ _ landed (settles.trans more) fun later settles => ?_
      cases finish with
      | none => exact settles
      | some cell =>
        have kept := settles.balanced
        rw [← settles.same] at kept
        exact (ends_land kept).mono fun _ last landed => settles.trans landed.1
    unfold alternative
    dsimp only
    cases halts with
    | true => exact rest none gen ((Generator.Alike.refl _).settles balanced)
    | false =>
      have started : Ends ctx (some <$> jump .jump .unused) gen fun finish later =>
          gen.Settles ctx ⟨(skip, gen.frame) ::
            (finish.toList.map (fun cell => (cell, gen.frame)) ++ hand.holes), hand.labels⟩ 0
              later := by
        refine (ends_jump .jump rfl .unused balanced).map fun cell later ⟨alike, kept⟩ => ?_
        refine alike.settles (kept.regroup rfl (fun loop mem => .inr ⟨loop, mem, rfl⟩) ?_
          fun label => id)
        intro hole
        simp [or_left_comm]
      exact Ends.bind started fun finish later settles => rest finish later settles

theorem runs_block (measured : ctx.Measured) (body : Block) :
    Runs ctx (block body) (ctx.environment.blockRoom body) 0 body.stops := by
  obtain ⟨span, body⟩ := body
  unfold block
  intro hand gen balanced room
  refine .modify (.get ?_)
  have opened : Generator.Balanced ctx 0 hand
      { gen with scopes := [] :: gen.scopes } := balanced_scopes balanced (by
    intro scope mem entry inside
    rcases List.mem_cons.mp mem with rfl | outer
    · simp at inside
    · exact balanced.scopes scope outer entry inside)
  refine Ends.bind (ends_statements measured body hand _ opened room) ?_
  rintro halts later ⟨same, kept, ⟨low, high⟩, proceeds, stopped, -⟩
  have loops : ∀ loop ∈ later.loops, gen.frame ≤ loop.depth := by
    intro loop mem
    obtain ⟨old, known, even⟩ := proceeds.depths mem
    rw [← even]
    exact (balanced.loops old known).1
  have small : -(2 ^ 31) < later.frame := by
    simp only [Environment.blockRoom] at room
    dsimp only at low
    omega
  refine Ends.bind (ends_endStatements kept high balanced.frame small loops stopped) ?_
  rintro - ended ⟨kept, frame, proceeds', stopped, -⟩
  have closed := proceeds.trans proceeds'
  refine ⟨same, ⟨balanced_scopes kept fun scope mem =>
    kept.scopes scope (List.mem_of_mem_tail mem), ?_, closed.starts, closed.marks⟩, ?_⟩
  · exact frame.trans (Int.sub_zero _).symm
  · intro stops
    exact stopped (same.trans stops)

theorem ends_statements (measured : ctx.Measured) (body : List Stmt) :
    ∀ hand gen, gen.Balanced ctx 0 hand →
    (ctx.environment.roomOfAll body : Int) < 2 ^ 31 + gen.frame →
    Ends ctx (statements body) gen fun halts later => halts = stopsAny body ∧
      later.Balanced ctx 0 hand ∧
      (gen.frame - ctx.environment.roomOfAll body ≤ later.frame ∧
        later.frame ≤ gen.frame) ∧
      gen.Proceeds later ∧ (halts = true → later.Stopped ctx) ∧
      (gen.piece.depth = gen.frame → later.piece.depth = later.frame) := by
  intro hand gen balanced room
  cases body with
  | nil =>
    exact ⟨rfl, balanced, by simp [Environment.roomOfAll], .refl _, (nomatch ·), id⟩
  | cons first rest =>
    unfold statements
    refine Ends.bind ((turns_setLine _).ends balanced) ?_
    rintro - marked ⟨kept, alike, -⟩
    have frame := alike.frame
    have inside : (ctx.environment.room first : Int) < 2 ^ 31 + marked.frame := by
      unfold Environment.roomOfAll at room
      split at room <;> omega
    refine Ends.bind (runs_statement measured first hand marked kept inside) ?_
    rintro halts done ⟨same, settles, stopped⟩
    have before := (alike.settles kept).trans settles
    have taken := before.frame
    have less := ctx.environment.taken_le_room first
    have under := settles.balanced.frame
    refine .checkDepth settles.balanced.errors (wrapSigned_eq (by omega) (by omega)) fun even => ?_
    subst same
    cases stops : first.stops with
    | true =>
      have room' : ctx.environment.roomOfAll (first :: rest) = ctx.environment.room first := by
        simp [Environment.roomOfAll, stops]
      refine ⟨by simp [stopsAny, stops], settles.balanced, ⟨?_, ?_⟩, before.proceeds,
        fun _ => stopped stops, fun _ => even⟩
      · show _ ≤ done.frame
        omega
      · show done.frame ≤ _
        omega
    | false =>
      have room' : ctx.environment.roomOfAll (first :: rest) = max (ctx.environment.room first)
          (ctx.environment.taken first + ctx.environment.roomOfAll rest) := by
        simp [Environment.roomOfAll, stops]
      refine (ends_statements measured rest hand done settles.balanced (by omega)).mono ?_
      rintro halts later ⟨same, kept, ⟨low, high⟩, proceeds, stopped, even'⟩
      refine ⟨by simp [stopsAny, stops, same], kept, ⟨?_, ?_⟩,
            before.proceeds.trans proceeds, stopped,
        fun _ => even' even⟩
      · omega
      · omega

end

end Statements

end Generate

end TinLang
