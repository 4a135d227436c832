import TinLang.Compile.Function
import TinLang.Proofs.Generate.Expression

/-!
# What generating a function keeps

The code of statements, and so of a whole function, keeps the invariant of `Generate.Keeps`: jumps
that are not fixed yet stay where they are until their ends are known, and loops jump back to
labels. It follows what the task of generating a function reports, stores and yields.
-/
namespace TinLang

variable {before : Generator → Prop} {marks : List Mark} {span : Span}

/-- A constant is refused at a place of its declaration. -/
theorem Environment.place_of_constantOf {env : Environment} {decl : ConstDecl}
    {cause : ProblemCause}
    (refused : env.constantOf decl = .error (span, cause)) :
    span.start ∈ decl.starts := by
  unfold Environment.constantOf at refused
  split at refused
  · obtain ⟨rfl, _⟩ := Prod.mk.inj (Except.error.inj refused)
    simp [ConstDecl.starts, decl.value.start_mem_starts]
  · split at refused
    · contradiction
    · next written type =>
      split at refused
      · obtain ⟨rfl, _⟩ := Prod.mk.inj (Except.error.inj refused)
        simp [ConstDecl.starts, type]
      · split at refused
        · contradiction
        · obtain ⟨rfl, _⟩ := Prod.mk.inj (Except.error.inj refused)
          exact List.mem_cons_self ..

end TinLang

namespace TinLang.Generate

variable {ground : Ground} {file : SourceFile}

theorem keeps_condition {test : Expr} (admits : Admits ground file test.starts test.strings) :
    Keeps ground file (condition test) := by
  refine (keeps_expr test admits).next fun type => ?_
  split
  · exact keeps_setNumber (by decide) _
  · exact keeps_environment.bind fun _ _ => .ite (fun _ => (keeps_report _ admits.start).next
      fun _ => (keeps_discard _).next fun _ => keeps_setNumber (by decide) _) fun _ =>
        keeps_pop (by decide)

theorem keeps_clearLocal (offset : Int) (size : Nat) : Keeps ground file (clearLocal offset size) :=
  (keeps_emit (by decide)).next fun _ => (keeps_increase (by decide) _).next fun _ =>
    (keeps_setNumber (by decide) _).next fun _ => keeps_emit (by decide)

/-- Moving the tracked frame keeps the invariant. -/
theorem keeps_moveFrame (move : Int → Int) : Keeps ground file
    (modify fun gen => { gen with frame := move gen.frame }) :=
  fun _ _ kept => .done ⟨kept.extend (.refl _ _) rfl rfl rfl, trivial⟩

theorem keeps_declareVariable {name : Text} {written : TypeExpr}
    {value : Option Expr} (admits : Admits ground file
      (span.start :: written.span.start :: Expr.startsOf? value) (Expr.stringsOf? value)) :
    Keeps ground file (declareVariable span name written value) := by
  refine (keeps_writtenType admits.tail.head).next fun type => ?_
  split
  · exact .pure trivial
  · next type =>
    refine .ite (fun _ => (keeps_report _ admits.head).any) fun nonvoid => ?_
    have holds : ground.Holds (some type) :=
      fun _ => ⟨type, rfl, by simpa [ValueType.isVoid] using nonvoid⟩
    refine keeps_environment.bind fun env _ => (keeps_increase (by decide) _).next fun _ => ?_
    refine (keeps_moveFrame (· - _)).next fun _ => keeps_get.next fun gen => ?_
    have declared : ∀ offset : Int,
        Keeps ground file (declare span name (.variable (some type) offset)) :=
      fun _ => keeps_declare admits.head holds
    dsimp only
    cases value with
    | none => exact (keeps_clearLocal _ _).next fun _ => declared _
    | some value =>
      exact (keeps_expr value admits.tail.tail).next fun _ => (keeps_coerce _ _).next fun _ =>
        (keeps_fits _ _ _ (Admits.start admits.tail.tail)).next fun _ =>
        .ite (fun _ => (keeps_popTo (by decide) _ holds).next fun _ => declared _) fun _ =>
          (keeps_discard _).next fun _ => declared _

theorem keeps_declareConstant {decl : ConstDecl}
    (admits : Admits ground file decl.starts decl.value.strings) :
    Keeps ground file (declareConstant decl) := by
  refine keeps_environment.bind fun env _ => ?_
  have result : ∀ constant, env.constantOf decl = .ok constant →
      constant.value = decl.value := by
    intro constant found
    unfold Environment.constantOf at found
    repeat' split at found
    all_goals first
      | contradiction
      | exact (congrArg Constant.value (Except.ok.inj found)).symm
  split
  · next constant found =>
    refine keeps_declare admits.head ⟨?_, fun _ => Check.isSome_of_constantOf found⟩
    exact result _ found ▸ admits.2
  · next span cause found =>
    exact (keeps_report _ (admits.1 _ (Environment.place_of_constantOf found))).any

theorem keeps_popResult (block : Nat) (indices : List Nat) :
    Keeps ground file (popResult block indices) := by
  induction indices with
  | nil => exact .pure trivial
  | cons index indices ih =>
    exact (keeps_pop (by decide)).next fun _ => (keeps_emitNumber (by decide)).next fun _ => ih

theorem keeps_returnValue {value : Expr}
    (admits : Admits ground file value.starts value.strings) :
    Keeps ground file (returnValue value) :=
  keeps_read.bind fun _ _ => (keeps_expr value admits).next fun _ => (keeps_coerce _ _).next
    fun _ => (keeps_fits _ _ _ admits.start).next fun _ =>
    .ite (fun _ => .ite (fun _ => keeps_pop (by decide)) fun _ => keeps_environment.bind fun _ _ =>
      keeps_popResult _ _) fun _ => keeps_discard _

theorem keeps_returnFrom {value : Option Expr}
    (admits : Admits ground file (span.start :: Expr.startsOf? value) (Expr.stringsOf? value)) :
    Keeps ground file (returnFrom span value) := by
  refine keeps_read.bind fun ctx _ => keeps_get.next fun gen => ?_
  have finish : ∀ depth : Int, Keeps ground file (do
      release 0
      let gen ← get
      if gen.errors = 0 ∧ gen.piece.depth ≠ 0 then
        report span (.unbalancedReturn gen.piece.depth)
      emit .giveBack .unused .unused
      change fun piece => { piece with depth }) := by
    intro depth
    have last : Keeps ground file (do
        emit .giveBack .unused .unused
        change fun piece => { piece with depth }) :=
      (keeps_emit (by decide)).next fun _ => keeps_change fun _ => Piece.extends_depth _
    exact (keeps_release _).next fun _ => keeps_get.next fun _ =>
      .ite (fun _ => (keeps_report _ admits.head).next fun _ => last) fun _ => last
  dsimp only
  cases value with
  | none =>
    exact .ite (fun _ => (keeps_report _ admits.head).next fun _ => finish _) fun _ => finish _
  | some value =>
    refine .ite (fun _ => ?_) fun _ => (keeps_returnValue admits.tail).next fun _ => finish _
    exact (keeps_report _ admits.head).next fun _ => (keeps_expr value admits.tail).next fun _ =>
      (keeps_discard _).next fun _ => finish _

theorem keeps_checkDepth (place : ground.places file.name span.start) :
    Keeps ground file (checkDepth span) :=
  keeps_get.next fun _ => .ite (fun _ => (keeps_report _ place).any) fun _ => .pure trivial

theorem keeps_endStatements (depth : Int) (halts : Bool) :
    Keeps ground file (endStatements depth halts) := by
  have last : Keeps ground file
      (modify fun gen => { gen with frame := depth }) := keeps_moveFrame fun _ => depth
  exact .ite (fun _ => keeps_get.next fun _ => (keeps_moveDepth _).next fun _ => last)
    fun _ => (keeps_release _).next fun _ => last

theorem Leads.mono {α : Type} {step : Generate α} {start : Generator → Prop}
    {after finish : α → Generator → Prop} (leads : Leads ground step before after)
    (stronger : ∀ gen, start gen → before gen)
    (weaker : ∀ value gen, after value gen → finish value gen) :
    Leads ground step start finish :=
  fun gen holds => (leads gen (stronger gen holds)).mono
    fun result reached => weaker result.1 result.2 reached

theorem Leads.pure {α : Type} {value : α}
    {after : α → Generator → Prop} (reached : ∀ gen, before gen → after value gen) :
    Leads ground (pure value) before after :=
  fun gen holds => .done (reached gen holds)

theorem Leads.map {α β : Type} {step : Generate α} {function : α → β}
    {between : α → Generator → Prop} {after : β → Generator → Prop}
    (leads : Leads ground step before between)
    (mapped : ∀ value gen, between value gen → after (function value) gen) :
    Leads ground (function <$> step) before after :=
  fun gen start => (leads gen start).andThen fun result reached =>
    .done (mapped result.1 result.2 reached)

/-- What a step yields does not matter. -/
theorem Leads.keeps {α : Type} {step : Generate α}
    (leads : ∀ marks, Leads ground step (ground.Kept file marks)
      fun _ later => ground.Kept file marks later) : Keeps ground file step :=
  fun marks gen kept => (leads marks gen kept).mono fun _ reached => ⟨reached, trivial⟩

theorem Keeps.leads' {α : Type} {step : Generate α} (keeps : Keeps ground file step)
    (marks : List Mark) : Leads ground step (ground.Kept file marks)
      fun _ later => ground.Kept file marks later :=
  (keeps.leads marks).mono (fun _ => id) fun _ _ reached => reached.1

/-- The cells of the loops around may be taken in hand. -/
theorem Kept.takeLoops {gen : Generator}
    (kept : ground.Kept file marks gen) :
    ground.Kept file (gen.loops.flatMap LoopFrame.marks ++ marks) gen := by
  refine { kept with marks := ?_ }
  intro mark mem
  rcases List.mem_append.mp mem with around | held
  · obtain ⟨loop, inside, found⟩ := List.mem_flatMap.mp around
    exact kept.loops loop inside mark found
  · exact kept.marks mark held

/-- A jump back leads to a label in hand. -/
theorem leads_jumpBack {start : Nat} (held : .label start ∈ marks) :
    Leads ground (change (·.emitJumpBack .jump .unused start)) (ground.Kept file marks)
      fun _ later => ground.Kept file marks later :=
  fun _ kept => .done (kept.extend (Piece.extends_emitJumpBack (kept.marks _ held)
    fun _ => by decide) rfl rfl rfl)

/-- Loops whose cells are in hand may be entered. -/
theorem leads_setLoops {loops : List LoopFrame}
    (held : ∀ loop ∈ loops, ∀ mark ∈ loop.marks, mark ∈ marks) :
    Leads ground (modify fun gen => { gen with loops }) (ground.Kept file marks)
      fun _ later => ground.Kept file marks later :=
  fun _ kept => .done { kept with
    loops := fun loop mem mark inside => kept.marks mark (held loop mem mark inside) }

theorem keeps_jumpOut (leaves : Bool) (place : ground.places file.name span.start) :
    Keeps ground file (jumpOut span leaves) := by
  refine .get fun marks gen kept => ?_
  have held := Kept.takeLoops kept
  cases loops : gen.loops with
  | nil =>
    have refused : ∀ cause, Keeps ground file (do report span cause; return false) :=
      fun cause => (keeps_report cause place).next fun _ => .pure trivial
    exact refused _ marks gen kept
  | cons loop outer =>
    rw [loops] at held
    have finish : ∀ held : List Mark, Leads ground (do
        moveDepth ((← get).frame - loop.depth)
        return true) (ground.Kept file (held ++ marks))
          fun value later => ground.Kept file marks later ∧ True := by
      intro held
      have moved : Keeps ground file (do
          moveDepth ((← get).frame - loop.depth)
          return true) :=
        keeps_get.next fun _ => (keeps_moveDepth _).next fun _ => .pure trivial
      refine (moved.leads _).mono (fun _ => id) fun value later reached => ⟨?_, trivial⟩
      exact reached.1.fewer fun mark => List.mem_append_right _
    have whole : ∀ step : Unit → Generate Bool,
        Leads ground (step ()) (ground.Kept file ((loop :: outer).flatMap LoopFrame.marks ++ marks))
          (fun _ later => ground.Kept file marks later ∧ True) →
        Leads ground (release loop.depth >>= step)
          (ground.Kept file ((loop :: outer).flatMap LoopFrame.marks ++ marks))
          fun _ later => ground.Kept file marks later ∧ True :=
      fun step leads => Leads.bind ((keeps_release loop.depth).leads' _) fun _ => leads
    refine whole _ ?_ gen held
    dsimp only
    cases leaves with
    | false =>
      exact Leads.bind (leads_jumpBack (by simp [LoopFrame.marks])) fun _ => finish _
    | true =>
      refine Leads.bind (leads_jump _ (by decide)) fun cell => ?_
      refine Leads.bind (leads_setLoops ?_) fun _ => finish (.jump cell :: _)
      intro found mem mark inside
      rcases List.mem_cons.mp mem with rfl | outside
      · simp only [LoopFrame.marks, List.map_append, List.map_cons, List.map_nil, List.mem_cons,
          List.mem_append, List.not_mem_nil, or_false] at inside
        rcases inside with start | exit | new
        · simp [LoopFrame.marks, start]
        · refine List.mem_cons_of_mem _ (List.mem_append_left _ ?_)
          exact List.mem_flatMap.mpr ⟨loop, by simp, List.mem_cons_of_mem _ exit⟩
        · simp [new]
      · refine List.mem_cons_of_mem _ (List.mem_append_left _ ?_)
        exact List.mem_flatMap.mpr ⟨found, List.mem_cons_of_mem _ outside, inside⟩

theorem leads_startLoop (marks : List Mark) : Leads ground startLoop (ground.Kept file marks)
    fun start later => ground.Kept file (.label start :: marks) later := by
  intro gen kept
  have moved : ground.Kept file marks { gen with piece := gen.piece.label.1 } :=
    kept.extend Piece.extends_label rfl rfl rfl
  refine .done { moved with marks := ?_ }
  intro mark mem
  rcases List.mem_cons.mp mem with rfl | old
  · exact Nat.le_refl _
  · exact moved.marks mark old

theorem leads_enterLoop {start : Nat} (held : .label start ∈ marks) :
    Leads ground (enterLoop start) (ground.Kept file marks)
      fun _ later => ground.Kept file marks later := by
  intro gen kept
  refine .done { kept with loops := ?_ }
  intro loop mem mark inside
  rcases List.mem_cons.mp mem with rfl | outer
  · obtain rfl : mark = .label start := by simpa [LoopFrame.marks] using inside
    exact kept.marks _ held
  · exact kept.loops loop outer mark inside

theorem leads_leaveLoop (marks : List Mark) : Leads ground leaveLoop (ground.Kept file marks)
    fun exits later => ground.Kept file (exits.map .jump ++ marks) later := by
  intro gen kept
  refine .done { kept with loops := ?_, marks := ?_ }
  · exact fun loop mem => kept.loops loop (List.mem_of_mem_tail mem)
  · intro mark mem
    rcases List.mem_append.mp mem with exit | held
    · cases loops : gen.loops with
      | nil => simp [loops] at exit
      | cons loop outer =>
        exact kept.loops loop (by simp [loops]) mark
          (List.mem_cons_of_mem _ (by simpa [loops] using exit))
    · exact kept.marks mark held

theorem leads_landAll (exits : List Nat) (marks : List Mark) :
    Leads ground (exits.forM land) (ground.Kept file (exits.map .jump ++ marks))
      fun _ later => ground.Kept file marks later := by
  induction exits with
  | nil => exact .pure fun _ => id
  | cons exit exits ih =>
    exact Leads.bind (leads_land exit (exits.map .jump ++ marks)) fun _ => ih

theorem Admits.stmtStart {statement : Stmt}
    (admits : Admits ground file statement.starts statement.strings) :
    ground.places file.name statement.span.start := by
  refine admits.1 _ ?_
  cases statement with
  | block body =>
    obtain ⟨span, statements⟩ := body
    simp [Stmt.span, Stmt.starts, Block.span, Block.starts]
  | _ => simp [Stmt.span, Stmt.starts, ConstDecl.starts]

mutual

theorem keeps_statement (body : Stmt) (admits : Admits ground file body.starts body.strings) :
    Keeps ground file (statement body) := by
  cases body with
  | declare span name type value =>
    unfold statement
    exact (keeps_declareVariable admits).next fun _ => .pure trivial
  | constant decl =>
    unfold statement
    exact (keeps_declareConstant admits).next fun _ => .pure trivial
  | evaluate span value =>
    unfold statement
    exact (keeps_expr value admits.tail).next fun _ => (keeps_discard _).next fun _ =>
      .pure trivial
  | branch span test body otherwise =>
    unfold statement
    have parts : Admits ground file (test.starts ++ body.starts ++ startsOfOtherwise otherwise)
        (test.strings ++ body.strings ++ stringsOfOtherwise otherwise) := admits.tail
    refine (keeps_condition parts.left.left).next fun _ => Leads.keeps fun marks => ?_
    refine Leads.bind (leads_jump marks (by decide)) fun skip => ?_
    refine Leads.bind ((keeps_block body parts.left.right).leads' _) fun halts => ?_
    refine Leads.bind (leads_alternative skip halts otherwise parts.right marks) fun _ => ?_
    exact .pure fun _ => id
  | loop span test body =>
    unfold statement
    have parts : Admits ground file (test.starts ++ body.starts) (test.strings ++ body.strings) :=
      admits.tail
    refine Leads.keeps fun marks => Leads.bind (leads_startLoop marks) fun start => ?_
    refine Leads.bind ((keeps_condition parts.left).leads' _) fun _ => ?_
    refine Leads.bind (leads_jump _ (by decide)) fun exit => ?_
    refine Leads.bind (leads_enterLoop (by simp)) fun _ => ?_
    refine Leads.bind ((keeps_block body parts.right).leads' _) fun _ => ?_
    refine Leads.bind (leads_leaveLoop _) fun exits => ?_
    refine Leads.bind (leads_jumpBack (by simp)) fun _ => ?_
    have swapped : ∀ gen,
        ground.Kept file (exits.map .jump ++ .jump exit :: .label start :: marks) gen →
        ground.Kept file (.jump exit :: (exits.map .jump ++ marks)) gen := fun _ kept =>
      kept.fewer fun mark mem => by
        simp only [List.mem_cons, List.mem_append] at mem ⊢
        tauto
    refine Leads.bind ((leads_land exit (exits.map .jump ++ marks)).mono swapped fun _ _ => id)
      fun _ => ?_
    exact Leads.bind (leads_landAll exits marks) fun _ => .pure fun _ => id
  | leave span =>
    unfold statement
    exact keeps_jumpOut _ admits.head
  | again span =>
    unfold statement
    exact keeps_jumpOut _ admits.head
  | result span value =>
    unfold statement
    exact (keeps_returnFrom admits).next fun _ => .pure trivial
  | block body =>
    unfold statement
    exact keeps_block body admits

theorem leads_alternative (skip : Nat) (halts : Bool) (otherwise : Option Stmt)
    (admits : Admits ground file (startsOfOtherwise otherwise) (stringsOfOtherwise otherwise))
    (marks : List Mark) :
    Leads ground (alternative skip halts otherwise) (ground.Kept file (.jump skip :: marks))
      fun _ later => ground.Kept file marks later := by
  cases otherwise with
  | none =>
    unfold alternative
    exact leads_land skip marks
  | some other =>
    have follow : ∀ (held : List Mark) (next : Generate Unit),
        Leads ground next (ground.Kept file held) (fun _ later => ground.Kept file marks later) →
        Leads ground (match other with
          | .block body => do
            let _ ← block body
            next
          | .branch span test body otherwise => do
            setLine span.start.line
            let _ ← statement (.branch span test body otherwise)
            next
          | _ => next) (ground.Kept file held) (fun _ later => ground.Kept file marks later) := by
      intro held next last
      cases other with
      | block body => exact Leads.bind ((keeps_block body admits).leads' held) fun _ => last
      | branch span test body otherwise =>
        exact Leads.bind ((keeps_setLine _).leads' held) fun _ =>
          Leads.bind ((keeps_statement (.branch span test body otherwise) admits).leads' held)
            fun _ => last
      | _ => exact last
    have rest : ∀ finish : Option Nat, Leads ground (do
        land skip
        match other with
        | .block body => let _ ← block body
        | .branch span test body otherwise =>
          setLine span.start.line
          let _ ← statement (.branch span test body otherwise)
        | _ => pure ()
        match finish with
        | some cell => land cell
        | none => return ()) (ground.Kept file (.jump skip :: (finish.toList.map .jump ++ marks)))
          fun _ later => ground.Kept file marks later := by
      intro finish
      refine Leads.bind (leads_land skip _) fun _ => follow _ _ ?_
      cases finish with
      | none => exact .pure fun _ => id
      | some cell => exact leads_land cell marks
    unfold alternative
    dsimp only
    cases halts with
    | true => exact fun gen kept => rest none gen kept
    | false =>
      have started : Leads ground (some <$> jump .jump .unused)
        (ground.Kept file (.jump skip :: marks))
          fun finish later => ground.Kept file (.jump skip :: (finish.toList.map .jump ++ marks))
            later := by
        refine (leads_jump (.jump skip :: marks) (by decide)).map fun finish later kept => ?_
        exact kept.fewer fun mark mem => by simp_all [or_left_comm]
      exact Leads.bind started fun finish => rest finish

theorem keeps_block (body : Block) (admits : Admits ground file body.starts body.strings) :
    Keeps ground file (block body) := by
  obtain ⟨span, body⟩ := body
  unfold block
  exact keeps_openScope.next fun _ => keeps_get.next fun _ =>
    (keeps_statements body admits.tail).next fun _ => (keeps_endStatements _ _).next fun _ =>
    keeps_closeScope.next fun _ => .pure trivial

theorem keeps_statements (body : List Stmt)
    (admits : Admits ground file (startsOfStatements body) (stringsOfStatements body)) :
    Keeps ground file (statements body) := by
  cases body with
  | nil => exact .pure trivial
  | cons first rest =>
    unfold statements
    exact (keeps_setLine _).next fun _ => (keeps_statement first admits.left).next fun _ =>
      (keeps_checkDepth (Admits.stmtStart admits.left)).next fun _ =>
      .ite (fun _ => .pure trivial) fun _ => keeps_statements rest admits.right

end

theorem keeps_declareParameters {function : Function} {params : List Parameter}
    (place : ground.places file.name function.declaration.span.start)
    (places : ∀ parameter ∈ params, ground.Holds parameter.type) :
    Keeps ground file (declareParameters function params) := by
  induction params with
  | nil => exact .pure trivial
  | cons parameter params ih =>
    have known : (LocalMeaning.variable parameter.type (16 + parameter.offset)).Allowed ground :=
      places parameter (by simp)
    exact (keeps_declare place known).next fun _ => ih fun other mem => places other (by simp [mem])

theorem keeps_initialGlobal {place : Global} {value : Expr}
    (admits : Admits ground file value.starts value.strings)
    (holds : ground.Holds (some place.type)) : Keeps ground file (initialGlobal place value) :=
  (keeps_setLine _).next fun _ => (keeps_expr value admits).next fun _ =>
    (keeps_coerce _ _).next fun _ => (keeps_fits _ _ _ admits.start).next fun _ =>
    .ite (fun _ => (keeps_setDataAddress (by decide) _).next fun _ =>
      keeps_popTo (by decide) _ holds) fun _ => keeps_discard _

/-- A generator may turn to another file. -/
theorem leads_setFile (file other : SourceFile) (marks : List Mark) :
    Leads ground (modify fun gen => { gen with file := other })
      (ground.Kept file marks) fun _ later => ground.Kept other marks later :=
  fun _ kept => .done { kept with file := rfl }

theorem keeps_initialGlobals (places : List Global) (admits : ∀ place ∈ places,
    Admits ground place.file place.declaration.starts (Expr.stringsOf? place.declaration.value))
    (declared : ∀ place ∈ places, place ∈ ground.context.environment.globals) :
    Keeps ground file (initialGlobals places) := by
  induction places with
  | nil => exact .pure trivial
  | cons place places ih =>
    have later : Keeps ground file (initialGlobals places) :=
      ih (fun other mem => admits other (List.mem_cons_of_mem _ mem))
        fun other mem => declared other (List.mem_cons_of_mem _ mem)
    have holds : ground.Holds (some place.type) := fun typed =>
      ⟨_, rfl, (ground.sound typed).globals place (declared place (by simp))⟩
    have first := admits place (by simp)
    unfold initialGlobals
    dsimp only
    cases found : place.declaration.value with
    | none => exact fun marks gen kept => later marks gen kept
    | some value =>
      have inner : Admits ground place.file value.starts value.strings := by
        simpa [GlobalDecl.starts, Expr.startsOf?, Expr.stringsOf?, found] using first
      have turned : ∀ marks, Leads ground (do
          modify fun gen => { gen with file := place.file }
          initialGlobal place value
          modify fun gen => { gen with file := file }
          initialGlobals places) (ground.Kept file marks)
            fun _ later => ground.Kept file marks later ∧ True :=
        fun marks => Leads.bind (leads_setFile file place.file marks) fun _ =>
          Leads.bind ((keeps_initialGlobal inner holds).leads' marks) fun _ =>
          Leads.bind (leads_setFile place.file file marks) fun _ => later.leads marks
      refine .get fun marks gen kept => ?_
      rw [kept.file]
      exact turned marks gen kept

theorem keeps_needsReturn : Keeps ground file needsReturn :=
  keeps_get.next fun _ => .pure trivial

/-- The part of main before its body: some global variables get their initial values. -/
def opening (places : List Global) : Generate Unit := do
  let function := (← read).function
  openScope
  declareParameters function function.params
  setLine function.declaration.span.start.line
  initialGlobals places

/-- The body of a function and its end. -/
def ending : Generate Unit := do
  let function := (← read).function
  let decl := function.declaration
  let depth := (← get).frame
  let halts ← statements decl.body.statements
  endStatements depth halts
  if ← needsReturn then
    if !function.result.isVoid then report decl.span (.missingReturn function.name)
    setLine decl.body.span.stop.line
    emit .giveBack .unused .unused
  closeScope

theorem keeps_opening {places : List Global}
    (place : ground.places file.name ground.context.function.declaration.span.start)
    (globals : ∀ place ∈ places, Admits ground place.file place.declaration.starts
      (Expr.stringsOf? place.declaration.value))
    (declared : ∀ place ∈ places, place ∈ ground.context.environment.globals) :
    Keeps ground file (opening places) := by
  refine keeps_read.bind fun ctx same => ?_
  subst same
  exact keeps_openScope.next fun _ => (keeps_declareParameters place fun parameter mem typed =>
    (ground.sound typed).own parameter mem).next fun _ =>
    (keeps_setLine _).next fun _ => keeps_initialGlobals _ globals declared

theorem keeps_ending (admits : Admits ground file ground.context.function.declaration.starts
    ground.context.function.declaration.body.strings) : Keeps ground file ending := by
  refine keeps_read.bind fun ctx same => ?_
  subst same
  have body : Admits ground file
      (startsOfStatements ground.context.function.declaration.body.statements)
      (stringsOfStatements ground.context.function.declaration.body.statements) := by
    have inner := admits.tail
    cases found : ground.context.function.declaration.body with
    | mk span statements =>
      rw [found] at inner
      exact inner.tail
  have ended : ∀ report' : Generate Unit, Keeps ground file report' → Keeps ground file (do
      report'
      setLine ground.context.function.declaration.body.span.stop.line
      emit .giveBack .unused .unused
      closeScope) := fun _ reported => reported.next fun _ => (keeps_setLine _).next fun _ =>
    (keeps_emit (by decide)).next fun _ => keeps_closeScope
  refine keeps_get.next fun _ => (keeps_statements _ body).next fun _ => ?_
  refine (keeps_endStatements _ _).next fun _ => keeps_needsReturn.next fun _ => ?_
  exact .ite (fun _ => .ite (fun _ => ended _ (keeps_report _ admits.head).any) fun _ =>
    (keeps_setLine _).next fun _ => (keeps_emit (by decide)).next fun _ => keeps_closeScope)
    fun _ => keeps_closeScope

/-- Main gives all global variables their initial values; other functions give none. -/
theorem function_eq (ctx : FunctionContext) (gen : Generator) :
    Generate.function ctx gen = (opening (if ctx.function.name = "main" then
      ctx.environment.globals else []) >>= fun _ => ending) ctx gen := by
  have opened : ∀ places, (opening places >>= fun _ => ending) ctx gen =
      ((declareParameters ctx.function ctx.function.params ctx
        { gen with scopes := [] :: gen.scopes }).andThen fun declared =>
          (do
            setLine ctx.function.declaration.span.start.line
            initialGlobals places) ctx declared.2).andThen fun stored =>
              ending ctx stored.2 := fun _ => rfl
  rw [opened, Task.andThen_assoc]
  show Task.andThen (declareParameters ctx.function ctx.function.params ctx
    { gen with scopes := [] :: gen.scopes }) _ = _
  refine congrArg (Task.andThen _) (funext fun declared => ?_)
  show (if ctx.function.name = "main" then _ else _ : Generate Unit) ctx _ = _
  split <;> rfl

theorem keeps_function
    (admits : Admits ground file ground.context.function.declaration.starts
      ground.context.function.declaration.body.strings)
    (globals : ground.context.function.name = "main" →
      ∀ place ∈ ground.context.environment.globals, Admits ground place.file
        place.declaration.starts (Expr.stringsOf? place.declaration.value)) :
    Keeps ground file Generate.function := by
  intro marks gen kept
  rw [function_eq]
  refine ((keeps_opening admits.head ?_ ?_).next fun _ => keeps_ending admits) marks gen kept
  · split
    · next main => exact globals main
    · exact fun _ none => absurd none List.not_mem_nil
  · split
    · exact fun _ => id
    · exact fun _ none => absurd none List.not_mem_nil

end TinLang.Generate

namespace TinLang

/-- Generating a function reports problems only where its nodes start, stores only strings of the
program and yields a sound piece with its name, whose instructions a listing shows. -/
theorem Function.tracks_generate (ground : Ground)
    (new : ground.since = { name := ground.context.function.name })
    (admits : Generate.Admits ground ground.context.function.file
      ground.context.function.declaration.starts ground.context.function.declaration.body.strings)
    (globals : ground.context.function.name = "main" →
      ∀ place ∈ ground.context.environment.globals, Generate.Admits ground place.file
        place.declaration.starts (Expr.stringsOf? place.declaration.value)) :
    (ground.context.function.generate ground.context.environment).Tracks ground.past
      ground.Reported ground.texts fun piece => (piece.Sound ground.functions ∧
        ∀ instr, .instruction instr ∈ piece.code → ground.Emitted instr) ∧
        piece.name = ground.context.function.name := by
  have start : ground.Kept ground.context.function.file []
      { piece := { name := ground.context.function.name }
        file := ground.context.function.file } :=
    ⟨Piece.sound_empty _ _, by simp, rfl, new ▸ .refl _, rfl, by simp, by simp, by simp⟩
  refine (Generate.keeps_function admits globals [] _ start).andThen fun result reached => ?_
  exact .done ⟨⟨reached.1.piece, reached.1.fields⟩, reached.1.name⟩

end TinLang
