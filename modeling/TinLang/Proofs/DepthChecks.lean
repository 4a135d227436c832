import TinLang.Proofs.Completed
import TinLang.Proofs.StackDiscipline

/-!
# Checks of the depth

The checks of the depth behind a statement and before a return are made only as long as no problem
of the function was counted. `Generate.Counts` states that a step counts every problem it reports
and that none of them is a failed check. Every step before such a check leaves either a counted
problem or a balanced generator, so the checks fail in no function of a program, whatever other
problems it has, when the sizes around calls fit their immediates, all parameters have types of
places and main returns nothing or one word. A use of a parameter without a type pushes a word that
nothing drops, and then a check does fail.
-/
namespace TinLang

namespace Task

variable {α β : Type}

/-- A task that is followed by another has counted a problem, or has found what it finds if it
reports nothing. -/
theorem Counts.follow {count : Nat} {finds : α × Generator → Prop} {task : Task (α × Generator)}
    {next : α × Generator → Task (β × Generator)} (counts : task.Counts count)
    (before : count ≠ 0 ∨ task.Finds finds)
    (later : ∀ result, result.2.errors ≠ 0 ∨ finds result → (next result).Counts result.2.errors) :
    (task.andThen next).Counts count := by
  induction task generalizing count with
  | done result =>
    refine (later result (before.imp_left fun some none => some ?_)).mono counts
    exact Nat.le_zero.mp (none ▸ counts)
  | report diagnostic rest ih =>
    exact ⟨counts.1, ih counts.2 (.inl (Nat.succ_ne_zero _))⟩
  | intern text rest ih =>
    exact fun offset => ih offset (counts offset) (before.imp_right fun found => found offset)

theorem Counts.does {count : Nat} {task : Task (α × Generator)} (counts : task.Counts count) :
    task.Does Diagnostic.OfProgram (fun _ => True) fun _ => True := by
  induction task generalizing count with
  | done result => exact .done trivial
  | report diagnostic rest ih => exact .report counts.1 fun _ => ih counts.2
  | intern text rest ih => exact .intern trivial fun offset => ih offset (counts offset)

end Task

namespace Generate

variable {α β : Type} {ctx : FunctionContext} {gen : Generator} {hand : Hand} {room : Nat}

/-- A step counts the problems that it reports, and none of them is a failed check. -/
def Counts (ctx : FunctionContext) (step : Generate α) (gen : Generator) : Prop :=
  (step ctx gen).Counts gen.errors

namespace Counts

theorem pure {value : α} : Counts ctx (pure value) gen := Nat.le_refl _

theorem change {step : Piece → Piece} : Counts ctx (change step) gen := Nat.le_refl _

/-- One step, and what follows it from any state. -/
theorem next {step : Generate α} {next : α → Generate β} (first : Counts ctx step gen)
    (later : ∀ value later, Counts ctx (next value) later) :
    Counts ctx (step >>= next) gen :=
  first.andThen fun result _ => later result.1 result.2

/-- One step, and what follows it from a state that it ends in, unless a problem was counted. -/
theorem bind {step : Generate α} {next : α → Generate β} {before : Prop}
    {between : α → Generator → Prop} (first : Counts ctx step gen)
    (start : gen.errors ≠ 0 ∨ before)
    (ends : before → Ends ctx step gen between)
    (later : ∀ value later, later.errors ≠ 0 ∨ between value later →
      Counts ctx (next value) later) : Counts ctx (step >>= next) gen :=
  first.follow (start.imp_right ends) fun result reached => later result.1 result.2 reached

/-- One step, and what follows it, once a problem was counted. -/
theorem after {step : Generate α} {next : α → Generate β} (first : Counts ctx step gen)
    (some : gen.errors ≠ 0)
    (later : ∀ value later, later.errors ≠ 0 → Counts ctx (next value) later) :
    Counts ctx (step >>= next) gen :=
  bind first (.inl some) (@False.elim (Ends ctx step gen fun _ _ => False))
    fun value last reached => later value last (reached.resolve_right id)

theorem ite {test : Prop} [Decidable test] {yes no : Generate α}
    (first : test → Counts ctx yes gen) (second : ¬ test → Counts ctx no gen) :
    Counts ctx (if test then yes else no) gen := by
  split
  · next holds => exact first holds
  · next fails => exact second fails

theorem get {next : Generator → Generate β} (later : Counts ctx (next gen) gen) :
    Counts ctx (get >>= next) gen := later

theorem read {next : FunctionContext → Generate β}
    (later : Counts ctx (next ctx) gen) :
    Counts ctx (read >>= next) gen := later

theorem environment {next : Environment → Generate β}
    (later : Counts ctx (next ctx.environment) gen) :
    Counts ctx (environment >>= next) gen := later

/-- A change of the state that counts no problem. -/
theorem modify {step : Generator → Generator} {next : Unit → Generate β}
    (same : (step gen).errors = gen.errors)
    (later : Counts ctx (next ()) (step gen)) :
    Counts ctx (modify step >>= next) gen := by
  unfold Counts at later
  rwa [same] at later

/-- A problem of the program, and what follows it once a problem was counted. -/
theorem reported {span : Span} {cause : ProblemCause} {next : Unit → Generate β}
    (plain : cause.internal = false)
    (later : ∀ later : Generator, later.errors ≠ 0 → Counts ctx (next ()) later) :
    Counts ctx (report span cause >>= next) gen :=
  bind ((emits_report span plain).counts ctx gen) (.inr trivial)
    (fun _ => show Ends ctx (report span cause) gen fun _ _ => False from trivial)
    fun _ last reached => later last (reached.resolve_right id)

/-- The check behind a statement does not fail. -/
theorem checkDepth {span : Span} {next : Unit → Generate β}
    (even : gen.errors ≠ 0 ∨ gen.piece.depth = wrapSigned gen.frame)
    (later : Counts ctx (next ()) gen) :
    Counts ctx (checkDepth span >>= next) gen := by
  have unfolded : Generate.checkDepth span ctx gen =
      (if gen.errors = 0 ∧ gen.piece.depth ≠ wrapSigned gen.frame then
        report span (.unbalanced gen.piece.depth (wrapSigned gen.frame))
      else Pure.pure () : Generate Unit) ctx gen := rfl
  have passes : ¬ (gen.errors = 0 ∧ gen.piece.depth ≠ wrapSigned gen.frame) :=
    fun wrong => even.elim (fun some => some wrong.1) wrong.2
  rw [if_neg passes] at unfolded
  show ((Generate.checkDepth span ctx gen).andThen _).Counts _
  rw [unfolded]
  exact later

end Counts

theorem Emits.next {step : Generate α} {next : α → Generate β} (emits : Emits step)
    (later : ∀ value later, Counts ctx (next value) later) :
    Counts ctx (step >>= next) gen :=
  Counts.next (emits.counts ctx gen) later

/-- No operand is left on the stack, and the frame may grow by some bytes. -/
def Ready (ctx : FunctionContext) (hand : Hand) (room : Nat) (gen : Generator) : Prop :=
  gen.Balanced ctx 0 hand ∧ (room : Int) < 2 ^ 31 + gen.frame

theorem Ready.mono {less : Nat} (ready : Ready ctx hand room gen) (fewer : less ≤ room) :
    Ready ctx hand less gen :=
  ⟨ready.1, Int.lt_of_le_of_lt (Int.ofNat_le.mpr fewer) ready.2⟩

theorem Turns.ready {step : Generate α} {yields : α → Prop}
    (turns : Turns ctx 0 step (fun _ => 0) yields) (ready : Ready ctx hand room gen) :
    Ends ctx step gen fun _ later =>
      Ready ctx hand room later ∧ later.frame = gen.frame :=
  (turns.ends ready.1).mono fun _ _ ⟨kept, alike, _⟩ =>
    ⟨⟨kept, alike.frame ▸ ready.2⟩, alike.frame⟩

theorem Runs.ready {step : Generate Bool} {needed : Nat} {stops : Bool}
    (runs : Runs ctx step needed 0 stops) (ready : Ready ctx hand room gen)
    (enough : needed ≤ room) : Ends ctx step gen fun _ later =>
      Ready ctx hand room later ∧ later.frame = gen.frame :=
  (runs hand gen ready.1 (ready.mono enough).2).mono fun _ _ ⟨_, settles, _⟩ =>
    ⟨⟨settles.balanced, settles.same ▸ ready.2⟩, settles.same⟩

/-- When all calls fit, the tracked depth of a balanced generator is never too high. -/
theorem even_of_balanced (strict : ¬ ctx.Loose)
    (balanced : gen.Balanced ctx 0 hand) :
    gen.piece.depth = gen.frame := by
  rcases balanced.depth with ⟨loose, -⟩ | ⟨even, -⟩
  · exact absurd loose strict
  · exact (Int.add_zero _).symm.trans even

theorem counts_release (depth : Int) : Counts ctx (release depth) gen :=
  .get (.ite (fun _ => (emits_increase _ _).counts _ _) fun _ => .pure)

theorem counts_declare (span : Span) (name : Text) (meaning : LocalMeaning) :
    Counts ctx (declare span name meaning) gen := by
  refine .get ?_
  split
  · exact .pure
  · exact .ite (fun _ => (emits_report _ rfl).counts _ _) fun _ => Nat.le_refl _

theorem counts_declareVariable (span : Span) (name : Text) (written : TypeExpr)
    (value : Option Expr) : Counts ctx (declareVariable span name written value) gen := by
  refine (emits_writtenType written).next fun found gen => ?_
  split
  · exact .pure
  · refine .ite (fun _ => (emits_report _ rfl).counts _ _) fun _ => .environment ?_
    refine (emits_increase _ _).next fun _ gen => .modify rfl (.get ?_)
    cases value with
    | none => exact (emits_clearLocal _ _).next fun _ _ => counts_declare _ _ _
    | some value =>
      exact (emits_expr value).next fun _ _ => (emits_coerce _ _).next fun _ _ =>
        (emits_fits _ _ _ _).next fun _ _ => .ite
          (fun _ => (emits_popTo _ _ _).next fun _ _ => counts_declare _ _ _)
          fun _ => (emits_discard _).next fun _ _ => counts_declare _ _ _

theorem counts_declareConstant (decl : ConstDecl) :
    Counts ctx (declareConstant decl) gen := by
  refine .environment ?_
  split
  · exact counts_declare _ _ _
  · next failed => exact (emits_report _ (Check.internal_of_constantOf failed)).counts _ _

theorem counts_jumpOut (span : Span) (leaves : Bool) :
    Counts ctx (jumpOut span leaves) gen := by
  refine .get ?_
  split
  · exact (emits_report _ (by cases leaves <;> rfl)).next fun _ _ => .pure
  · refine (counts_release _).next fun _ later => ?_
    have finish : ∀ (depth : Int) (last : Generator), Counts ctx (do
        moveDepth ((← MonadState.get).frame - depth)
        return true) last := fun depth last => .get (Counts.change.next fun _ _ => .pure)
    cases leaves with
    | true =>
      have jumped : Counts ctx (jump .jump .unused) later := Nat.le_refl _
      exact jumped.next fun _ _ => .modify rfl (finish _ _)
    | false => exact Counts.change.next fun _ _ => finish _ _

theorem counts_returnValue (value : Expr) : Counts ctx (returnValue value) gen :=
  .read <| (emits_expr value).next fun _ _ => (emits_coerce _ _).next fun _ _ =>
    (emits_fits _ _ _ _).next fun _ _ => .ite
      (fun _ => .ite (fun _ => (emits_pop _).counts _ _) fun _ =>
        .environment ((emits_popResult _ _).counts _ _))
      fun _ => (emits_discard _).counts _ _

theorem counts_land (cell : Nat) : Counts ctx (land cell) gen := Nat.le_refl _

theorem counts_landAll (cells : List Nat) : Counts ctx (cells.forM land) gen := by
  induction cells generalizing gen with
  | nil => exact .pure
  | cons cell cells ih => exact (counts_land cell).next fun _ _ => ih

theorem counts_endStatements (depth : Int) (halts : Bool) :
    Counts ctx (endStatements depth halts) gen :=
  .ite (fun _ => .get (Counts.change.next fun _ _ => Nat.le_refl _)) fun _ =>
    (counts_release _).next fun _ _ => Nat.le_refl _

variable (measured : ctx.Measured) (strict : ¬ ctx.Loose)

include measured strict in
/-- The check before a return does not fail. -/
theorem counts_returnFrom (span : Span) (value : Option Expr)
    (start : gen.errors ≠ 0 ∨ Ready ctx hand 0 gen) :
    Counts ctx (returnFrom span value) gen := by
  have finish : ∀ (depth : Int) (between : Generator),
      between.errors ≠ 0 ∨ Ready ctx hand 0 between → Counts ctx (do
        release 0
        let later ← MonadState.get
        if later.errors = 0 ∧ later.piece.depth ≠ 0 then
          report span (.unbalancedReturn later.piece.depth)
        emit .giveBack .unused .unused
        Generate.change fun piece => { piece with depth }) between := by
    intro depth between start
    have released : Ready ctx hand 0 between → Ends ctx (release 0) between
        fun _ later => later.piece.depth = 0 := by
      rintro ⟨balanced, small⟩
      refine (ends_release balanced.frame (by omega)).mono ?_
      rintro _ _ ⟨step, moves, rfl⟩
      have even := even_of_balanced strict balanced
      have moved := moves.depth between.piece
      dsimp only
      omega
    refine .bind (counts_release 0) start released fun _ later even => .get ?_
    rw [if_neg fun wrong => even.elim (fun some => some wrong.1) wrong.2]
    exact Counts.change.next fun _ _ => .change
  refine .read (.get ?_)
  cases value with
  | none => exact .ite (fun _ => .reported rfl fun _ some => finish _ _ (.inl some)) fun _ =>
      finish _ _ start
  | some value =>
    refine .ite (fun _ => .reported rfl fun between some => ?_) fun gives => ?_
    · exact .after ((emits_expr value).counts _ _) some fun type _ some =>
        .after ((emits_discard type).counts _ _) some fun _ _ some => finish _ _ (.inl some)
    · refine .bind (counts_returnValue value) start (fun ready =>
        (turns_returnValue measured value gives).ready ready) fun _ between start => ?_
      exact finish _ _ (start.imp_right And.left)

/-- A jump is in hand, with the depth of its frame. -/
theorem ready_jump (op : Opcode) (leaps : op.leaps) (reg : Register)
    (ready : Ready ctx hand room gen) :
    Ends ctx (jump op reg) gen fun cell later =>
      Ready ctx { hand with holes := (cell, later.frame) :: hand.holes } room later ∧
        later.frame = gen.frame := by
  refine (ends_jump op leaps reg ready.1).mono fun cell later ⟨alike, kept⟩ => ?_
  rw [alike.frame]
  exact ⟨⟨kept, alike.frame ▸ ready.2⟩, rfl⟩

theorem counts_jump (op : Opcode) (reg : Register) :
    Counts ctx (jump op reg) gen := Nat.le_refl _

section Statements

mutual

theorem counts_statement (measured : ctx.Measured) (strict : ¬ ctx.Loose) (body : Stmt)
    (hand : Hand) (gen : Generator) (start : gen.errors ≠ 0 ∨
      Ready ctx hand (ctx.environment.room body) gen) :
    Counts ctx (statement body) gen := by
  cases body with
  | declare span name type value =>
    unfold statement
    exact (counts_declareVariable _ _ _ _).next fun _ _ => .pure
  | constant decl =>
    unfold statement
    exact (counts_declareConstant _).next fun _ _ => .pure
  | evaluate span value =>
    unfold statement
    exact (emits_expr value).next fun _ _ => (emits_discard _).next fun _ _ => .pure
  | branch span test body otherwise =>
    unfold statement
    have inside : ctx.environment.blockRoom body ≤
        ctx.environment.room (.branch span test body otherwise) := by
      cases otherwise with
      | none => exact Nat.le_of_eq (by rw [Environment.room])
      | some other =>
        rw [Environment.room]
        exact Nat.le_max_left _ _
    have other : (otherwise.map ctx.environment.room).getD 0 ≤
        ctx.environment.room (.branch span test body otherwise) := by
      cases otherwise with
      | none => exact Nat.zero_le _
      | some other =>
        rw [Environment.room]
        exact Nat.le_max_right _ _
    refine .bind ((emits_condition test).counts _ _) start
      (fun ready => (turns_condition measured test).ready ready) fun _ tested start => ?_
    refine .bind (counts_jump _ _) start (fun ready => ready_jump .jumpZero rfl .a ready.1)
      fun skip jumped start => ?_
    refine .bind (counts_block measured strict body _ jumped
      (start.imp_right fun ready => ready.1.mono inside)) start
      (fun ready => (runs_block measured body).ready ready.1 inside) fun halts done start => ?_
    refine (counts_alternative measured strict skip halts otherwise hand done ?_).next
      fun _ _ => .pure
    exact start.imp_right fun ⟨ready, same⟩ => same ▸ ready.mono other
  | loop span test body =>
    unfold statement
    have counted : Counts ctx startLoop gen := Nat.le_refl _
    refine .bind counted start (fun ready => (ends_startLoop ready.1).mono
      fun start later ⟨kept, frame, _⟩ => show Ready ctx
        { hand with labels := (start, later.frame) :: hand.labels } _ later from
        ⟨frame ▸ kept, frame ▸ ready.2⟩) fun start started begun => ?_
    refine .bind ((emits_condition test).counts _ _) begun
      (fun ready => (turns_condition measured test).ready ready) fun _ tested begun => ?_
    refine .bind (counts_jump _ _) begun (fun ready => (ready_jump .jumpZero rfl .a ready.1).mono
      fun exit later known => And.intro known.1 (known.2.trans ready.2)) fun exit jumped begun => ?_
    have counted : Counts ctx (enterLoop start) jumped := Nat.le_refl _
    refine .bind counted begun (fun ⟨ready, same⟩ => (@ends_enterLoop _ _
      ⟨(exit, jumped.frame) :: hand.holes, hand.labels⟩ start (same ▸ ready.1)).mono
      fun _ later ⟨kept, frame, _⟩ => show Ready ctx
        ⟨(exit, jumped.frame) :: hand.holes, hand.labels⟩ _ later from ⟨kept, frame ▸ ready.2⟩)
      fun _ entered begun => ?_
    refine (counts_block measured strict body _ entered begun).next fun _ left => ?_
    have counted : Counts ctx leaveLoop left := Nat.le_refl _
    exact counted.next fun exits _ => Counts.change.next fun _ _ => (counts_land _).next
      fun _ _ => (counts_landAll exits).next fun _ _ => .pure
  | leave span =>
    unfold statement
    exact counts_jumpOut _ _
  | again span =>
    unfold statement
    exact counts_jumpOut _ _
  | result span value =>
    unfold statement
    exact (counts_returnFrom measured strict span value start).next fun _ _ => .pure
  | block body =>
    unfold statement
    exact counts_block measured strict body hand gen start

theorem counts_alternative (measured : ctx.Measured) (strict : ¬ ctx.Loose) (skip : Nat)
    (halts : Bool) (otherwise : Option Stmt) (hand : Hand) (gen : Generator)
    (start : gen.errors ≠ 0 ∨ Ready ctx
      { hand with holes := (skip, gen.frame) :: hand.holes }
      ((otherwise.map ctx.environment.room).getD 0) gen) :
    Counts ctx (alternative skip halts otherwise) gen := by
  cases otherwise with
  | none =>
    unfold alternative
    exact counts_land skip
  | some other =>
    have rest : ∀ (finish : Option Nat) (held : Hand) (started : Generator),
        started.errors ≠ 0 ∨ Ready ctx { held with holes := (skip, started.frame) :: held.holes }
          (ctx.environment.room other) started →
        Counts ctx (do
          land skip
          match other with
          | .block body => let _ ← block body
          | .branch span test body otherwise =>
            setLine span.start.line
            let _ ← statement (.branch span test body otherwise)
          | _ => pure ()
          match finish with
          | some cell => land cell
          | none => return ()) started := by
      intro finish held started start
      have last : ∀ later, Counts ctx (match finish with
          | some cell => land cell
          | none => return ()) later := fun later => by
        cases finish with
        | none => exact .pure
        | some cell => exact counts_land cell
      refine .bind (counts_land skip) start (fun ready => (ends_land ready.1).mono
        fun _ later ⟨settles, _⟩ => show Ready ctx held (ctx.environment.room other) later
          from ⟨settles.balanced, settles.same ▸ ready.2⟩) fun _ landed start => ?_
      cases other with
      | block body => exact (counts_block measured strict body held landed start).next fun _ => last
      | branch span test body otherwise =>
        have marked : Counts ctx (setLine span.start.line) landed := Nat.le_refl _
        refine .bind marked start (fun ready => (turns_setLine _).ready ready)
          fun _ later start => ?_
        exact (counts_statement measured strict (.branch span test body otherwise) held later
          (start.imp_right And.left)).next fun _ => last
      | _ => exact last landed
    unfold alternative
    dsimp only
    cases halts with
    | true => exact rest none hand gen start
    | false =>
      have counted : Counts ctx (some <$> jump .jump .unused) gen := Nat.le_refl _
      refine .bind counted start (fun ready => (ends_jump .jump rfl .unused ready.1).map
        fun cell later ⟨alike, kept⟩ => show Ready ctx { hand with holes := (skip, later.frame) ::
          (cell, later.frame) :: hand.holes } (ctx.environment.room other) later from
          ⟨alike.frame ▸ kept.regroup rfl (fun loop mem => .inr ⟨loop, mem, rfl⟩) ?_
            fun _ => id, alike.frame ▸ ready.2⟩)
        fun finish later start => rest finish { hand with
          holes := finish.toList.map (fun cell => (cell, later.frame)) ++ hand.holes } later start
      simp [or_left_comm]

theorem counts_block (measured : ctx.Measured) (strict : ¬ ctx.Loose) (body : Block)
    (hand : Hand) (gen : Generator) (start : gen.errors ≠ 0 ∨
      Ready ctx hand (ctx.environment.blockRoom body) gen) :
    Counts ctx (block body) gen := by
  obtain ⟨span, body⟩ := body
  unfold block
  refine .modify rfl (.get ?_)
  refine (counts_statements measured strict body hand
    { gen with scopes := [] :: gen.scopes } (start.imp_right fun ready => ?_)).next
    fun halts _ => (counts_endStatements _ _).next fun _ _ => .modify rfl .pure
  refine ⟨balanced_scopes ready.1 fun scope mem entry inside => ?_, ready.2⟩
  rcases List.mem_cons.mp mem with rfl | outer
  · simp at inside
  · exact ready.1.scopes scope outer entry inside

theorem counts_statements (measured : ctx.Measured) (strict : ¬ ctx.Loose)
    (body : List Stmt) (hand : Hand) (gen : Generator) (start : gen.errors ≠ 0 ∨
      Ready ctx hand (ctx.environment.roomOfAll body) gen) :
    Counts ctx (statements body) gen := by
  cases body with
  | nil => exact .pure
  | cons first rest =>
    unfold statements
    have marked : Counts ctx (setLine first.span.start.line) gen := Nat.le_refl _
    refine .bind marked start (fun ready => (turns_setLine _).ready ready) fun _ marked start => ?_
    have inside : ctx.environment.room first ≤ ctx.environment.roomOfAll (first :: rest) := by
      unfold Environment.roomOfAll
      split <;> omega
    refine .bind (counts_statement measured strict first hand marked
      (start.imp_right fun ready => ready.1.mono inside)) start
      (fun ready => (runs_statement measured first hand marked ready.1.1
        (ready.1.mono inside).2).mono fun halts later ⟨same, settles, _⟩ =>
          And.intro same (And.intro settles ready.1.2)) fun halts done start => ?_
    have kept : Ready ctx hand 0 done → done.piece.depth = wrapSigned done.frame := by
      rintro ⟨balanced, small⟩
      have under := balanced.frame
      rw [wrapSigned_eq (by omega) (by omega)]
      exact even_of_balanced strict balanced
    refine .checkDepth (start.imp_right fun ready => kept ⟨ready.2.1.balanced, ?_⟩) ?_
    · have frame := ready.2.1.frame
      have less := ctx.environment.taken_le_room first
      omega
    refine .ite (fun _ => .pure) fun goes => ?_
    refine counts_statements measured strict rest hand done (start.imp_right ?_)
    rintro ⟨rfl, settles, small⟩
    have room : ctx.environment.roomOfAll (first :: rest) = max (ctx.environment.room first)
        (ctx.environment.taken first + ctx.environment.roomOfAll rest) := by
      simp [Environment.roomOfAll, goes]
    have frame := settles.frame
    exact ⟨settles.balanced, by omega⟩

end

end Statements

theorem counts_declareParameters (function : Function) (params : List Parameter) :
    Counts ctx (declareParameters function params) gen := by
  induction params generalizing gen with
  | nil => exact .pure
  | cons parameter params ih => exact (counts_declare _ _ _).next fun _ _ => ih

theorem counts_initialGlobals (places : List Global) :
    Counts ctx (initialGlobals places) gen := by
  induction places generalizing gen with
  | nil => exact .pure
  | cons place places ih =>
    unfold initialGlobals
    split
    · exact ih
    · next value _ =>
      refine .get (.modify rfl (Counts.next ?_ fun _ _ => .modify rfl ih))
      refine Counts.next (Nat.le_refl _) fun _ _ => (emits_expr value).next fun _ _ =>
        (emits_coerce _ _).next fun _ _ => (emits_fits _ _ _ _).next fun _ _ => .ite (fun _ => ?_)
          fun _ => (emits_discard _).counts _ _
      exact (emits_setDataAddress _ _).next fun _ _ => (emits_popTo _ _ _).counts _ _

include measured strict in
theorem counts_function {name : Text} {file : SourceFile}
    (small : ctx.environment.frameSize ctx.function < 2 ^ 31) :
    Counts ctx function { piece := { name }, file } := by
  have start : Generator.Balanced ctx 0 {}
      { piece := { name }, file, scopes := [[]] } := by
    refine ⟨rfl, Int.le_refl 0, by simp, by simp, .inr ⟨rfl, fun _ => 0, ?_,
          by simp [Generator.starts]⟩⟩
    exact Piece.levelled_empty name
  rw [ctx.environment.frameSize_eq] at small
  have body : ∀ later : Generator, later.errors ≠ 0 ∨ Ready ctx {}
      (ctx.environment.roomOfAll ctx.function.declaration.body.statements) later →
      Counts ctx (do
        let depth := (← MonadState.get).frame
        let halts ← statements ctx.function.declaration.body.statements
        endStatements depth halts
        if ← needsReturn then
          if !ctx.function.result.isVoid then
            report ctx.function.declaration.span (.missingReturn ctx.function.name)
          setLine ctx.function.declaration.body.span.stop.line
          emit .giveBack .unused .unused
        closeScope) later := by
    intro later start
    refine .get ((counts_statements measured strict _ {} later start).next fun halts _ =>
      (counts_endStatements _ _).next fun _ _ => ?_)
    have returned : ∀ last, Counts ctx (do
        setLine ctx.function.declaration.body.span.stop.line
        emit .giveBack .unused .unused
        closeScope) last := fun last => .modify rfl (Counts.change.next fun _ _ => Nat.le_refl _)
    refine .get (.ite (fun _ => .ite (fun _ => ?_) fun _ => returned _) fun _ => Nat.le_refl _)
    exact (emits_report _ rfl).next fun _ _ => returned _
  refine .read (.modify rfl ?_)
  refine .bind (counts_declareParameters _ _) (.inr start)
    (fun balanced => (ends_declareParameters _ (fun _ => id) measured.sound.own balanced).mono
      fun _ later declared => show Ready ctx {}
        (ctx.environment.roomOfAll ctx.function.declaration.body.statements) later from
        ⟨declared.1.balanced, by rw [declared.1.same]; dsimp only; omega⟩)
    fun _ declared start => ?_
  have marked : Counts ctx (setLine ctx.function.declaration.span.start.line) declared :=
    Nat.le_refl _
  refine .bind marked start (fun ready => (turns_setLine _).ready ready) fun _ entered start => ?_
  refine .ite (fun main => .environment ?_) fun _ => body entered (start.imp_right And.left)
  refine .bind (counts_initialGlobals _) start (fun ready =>
    (ends_initialGlobals measured measured.sound.globals ready.1.1).mono
      fun _ later settles => show Ready ctx {} _ later from
        ⟨settles.balanced, settles.same ▸ ready.1.2⟩) fun _ later start => body later start

end Generate

/-- The task of generating a function reports only problems of the program. -/
theorem Function.reports_generate {env : Environment} {function : Function}
    (measured : FunctionContext.Measured ⟨env, function⟩)
    (strict : ¬ FunctionContext.Loose ⟨env, function⟩)
    (small : env.frameSize function < 2 ^ 31) :
    (function.generate env).Does Diagnostic.OfProgram (fun _ => True) fun _ => True :=
  (Generate.counts_function measured strict small).does.andThen fun _ _ => .done trivial

namespace Environment

variable {env : Environment}

/-- The values, argument blocks and frames of a program and the space that its calls reserve have
fewer bytes than an immediate counts. -/
structure Sized (env : Environment) : Prop extends env.Fits where
  calls : ∀ function ∈ env.functions,
    env.bytesOf (some function.result) + function.block ≤ 2 ^ 31
  frames : ∀ function ∈ env.functions, env.frameSize function < 2 ^ 31

/-- Parameters are places, and what main returns goes into one register. -/
structure Signed (env : Environment) : Prop where
  params : ∀ function ∈ env.functions, ∀ parameter ∈ function.params, Placed parameter.type
  main : ∀ function ∈ env.functions, function.name = "main" →
    function.result = .void ∨ env.bytesOf (some function.result) = wordSize

/-- The space for every call fits its immediate. -/
theorem Sized.strict (sized : env.Sized) (function : Function) :
    ¬ FunctionContext.Loose ⟨env, function⟩ :=
  fun ⟨_, called, mem, large⟩ => absurd (sized.calls called mem) (Nat.not_le_of_lt large)

end Environment

/-- The sizes around every function of checked files fit, whatever problems the files have. -/
theorem Checker.measured_ofFiles {files : List SourceFile}
    (sized : (ofFiles files).environment.Sized) (signed : (ofFiles files).environment.Signed)
    {function : Function} (listed : function ∈ (ofFiles files).environment.functions) :
    FunctionContext.Measured ⟨(ofFiles files).environment, function⟩ := by
  refine ⟨Build.around_ofFiles signed.params listed, fun name mem inside => ?_,
    sized.bytesOf_lt, sized.blocks, fun _ => sized.calls, signed.main function listed⟩
  rw [nested_ofFiles files name mem inside]
  rfl

namespace Build

variable {sources : List Source}

/-- Every diagnostic of a program that can be read shows a problem of the program itself: no check
of the depth fails, behind no statement and before no return, whatever else the program gets wrong.
-/
theorem ofProgram_of_signed
    (read : ∀ source ∈ sources, (SourceFile.parse source.name source.text).2 = [])
    (sized : (Checker.ofFiles (filesOf sources)).environment.Sized)
    (signed : (Checker.ofFiles (filesOf sources)).environment.Signed) :
    ∀ diagnostic ∈ (ofSources sources).diagnostics, diagnostic.OfProgram := by
  have each : ∀ function ∈ (Checker.ofFiles (filesOf sources)).environment.functions,
      (function.generate (Checker.ofFiles (filesOf sources)).environment).Does Diagnostic.OfProgram
        (fun _ => True) fun _ => True := fun function listed =>
    Function.reports_generate (Checker.measured_ofFiles sized signed listed)
      (sized.strict function) (sized.frames function listed)
  refine fun diagnostic mem => Task.diagnostics_runAll each (fun other found => ?_) diagnostic
    ((mem_diagnostics_iff read diagnostic).mp mem)
  obtain ⟨problem, inside, rfl⟩ := Array.mem_map.mp found
  exact ⟨problem, (Checker.placed_ofFiles (filesOf sources)).problems problem inside, rfl⟩

/-- A source with problems of many kinds, in declarations and in statements. -/
def muddled : List Source :=
  [⟨"muddle.tin", "struct Loop \x7b next: Loop; \x7d\nglobal lost: Nowhere = 1;\n" ++
    "fun half(n: int, c: char): float \x7b\n  n = lost + n.size; c(n); half(n);\n" ++
    "  while n \x7b m: Nowhere = n; return *n; break; \x7d\n\x7d\n" ++
    "fun main(): int \x7b return half(half(1, 2), null) + &3; \x7d\n"⟩]

theorem ofProgram_of_signed_muddled :
    (∀ source ∈ muddled, (SourceFile.parse source.name source.text).2 = []) ∧
    (Checker.ofFiles (filesOf muddled)).environment.Sized ∧
    (Checker.ofFiles (filesOf muddled)).environment.Signed ∧
    (ofSources muddled).failure = some (.errors 12) ∧
    ∀ diagnostic ∈ (ofSources muddled).diagnostics, diagnostic.OfProgram := by
  have known : (∀ source ∈ muddled, (SourceFile.parse source.name source.text).2 = []) ∧
      (∀ struct ∈ (Checker.ofFiles (filesOf muddled)).environment.structs,
        wordSize * struct.shape.leaves < 2 ^ 31) ∧
      (∀ function ∈ (Checker.ofFiles (filesOf muddled)).environment.functions,
        function.block < 2 ^ 31 ∧
        (Checker.ofFiles (filesOf muddled)).environment.bytesOf (some function.result) +
          function.block ≤ 2 ^ 31 ∧
        (Checker.ofFiles (filesOf muddled)).environment.frameSize function < 2 ^ 31 ∧
        (∀ parameter ∈ function.params,
          parameter.type.isSome ∧ parameter.type ≠ some .void) ∧
        (function.name = "main" → function.result = .void ∨
          (Checker.ofFiles (filesOf muddled)).environment.bytesOf (some function.result) =
            wordSize)) ∧
      (ofSources muddled).failure = some (.errors 12) := by decide +kernel
  obtain ⟨read, values, functions, many⟩ := known
  have sized : (Checker.ofFiles (filesOf muddled)).environment.Sized :=
    ⟨⟨values, fun function mem => (functions function mem).1,
      fun _ function mem => (functions function mem).2.1⟩,
      fun function mem => (functions function mem).2.1,
      fun function mem => (functions function mem).2.2.1⟩
  have signed : (Checker.ofFiles (filesOf muddled)).environment.Signed := by
    refine ⟨fun function mem parameter inside => ?_,
      fun function mem => (functions function mem).2.2.2.2⟩
    obtain ⟨known, place⟩ := (functions function mem).2.2.2.1 parameter inside
    obtain ⟨type, same⟩ := Option.isSome_iff_exists.mp known
    exact ⟨type, same, fun nothing => place (same.trans (congrArg some nothing))⟩
  exact ⟨read, sized, signed, many, ofProgram_of_signed read sized signed⟩

/-- A source that uses a parameter of a type that is not declared. -/
def untyped : List Source :=
  [⟨"test.tin", "fun f(a: unknown) \x7b a; \x7d fun main() \x7b \x7d"⟩]

/-- A use of a parameter without a type fails the check behind its statement. -/
theorem unbalanced_untyped :
    (∀ source ∈ untyped, (SourceFile.parse source.name source.text).2 = []) ∧
    (Checker.ofFiles (filesOf untyped)).environment.Sized ∧
    ∃ diagnostic ∈ (ofSources untyped).diagnostics,
      ("internal error: stack depth" : Text) <+: diagnostic.message := by
  have known : (∀ source ∈ untyped, (SourceFile.parse source.name source.text).2 = []) ∧
      (Checker.ofFiles (filesOf untyped)).environment.structs.length = 0 ∧
      (∀ function ∈ (Checker.ofFiles (filesOf untyped)).environment.functions,
        function.block < 2 ^ 31 ∧
        (Checker.ofFiles (filesOf untyped)).environment.bytesOf (some function.result) +
          function.block ≤ 2 ^ 31 ∧
        (Checker.ofFiles (filesOf untyped)).environment.frameSize function < 2 ^ 31) ∧
      ∃ diagnostic ∈ (Task.runAll (tasks (Checker.ofFiles (filesOf untyped)).environment)
          (checked (Checker.ofFiles (filesOf untyped)))).2.diagnostics,
        ("internal error: stack depth" : Text) <+: diagnostic.message := by decide +kernel
  obtain ⟨read, structs, functions, diagnostic, mem, message⟩ := known
  refine ⟨read, ⟨⟨by simp [List.eq_nil_of_length_eq_zero structs],
    fun function mem => (functions function mem).1,
    fun _ function mem => (functions function mem).2.1⟩,
    fun function mem => (functions function mem).2.1,
    fun function mem => (functions function mem).2.2⟩, diagnostic,
    (mem_diagnostics_iff read diagnostic).mpr mem, message⟩

end Build

end TinLang
