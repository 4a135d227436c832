import TinLang.Proofs.Simulation.Choices

/-!
# Code of loops

The code of a loop tests its condition, runs its body and jumps back. The jump of the condition and
the jumps out of the body lead behind it. A bound on how often loops go round is a bound on the
instructions that a machine executes at least, since every round executes the jump of its condition.
-/
namespace TinLang

/-- The result of an evaluation is known where a machine meets it. -/
theorem Machine.Meets.known {prog : Program} {settings : Settings} {bound : Nat} {α : Type}
    {goal : α → Store → Machine → Prop} {machine : Machine} {result : Except Stop α × Store}
    (meets : machine.Meets prog settings bound goal result) :
    machine.Meets prog settings bound
      (fun value store last => goal value store last ∧ result = (.ok value, store)) result := by
  rcases result with ⟨stop | value, store⟩
  · cases stop <;> exact meets
  · exact Comes.mono meets fun _ reached => ⟨reached, rfl⟩

/-- What the end of the body of a loop leads to: the end of the loop, or some more rounds. -/
def Flow.turn (more : Eval Flow) : Flow → Eval Flow
  | .next | .again => more
  | .leave => return .next
  | .result value => return .result value

/-- A round of a loop. -/
def Eval.round (test : Eval Bool) (eval : Eval Flow) : Eval (Option Flow) := do
  if ← test then return (← eval).ofRound else return some .next

theorem Eval.repeated_round (test : Eval Bool) (eval : Eval Flow) (rounds : Nat) :
    repeated (round test eval) (rounds + 1) = (do
      if ← test then (← eval).turn (repeated (round test eval) rounds) else return .next) := by
  rw [repeated, round, bind_assoc]
  congr
  funext truth
  cases truth with
  | false => rfl
  | true =>
    rw [if_pos rfl, if_pos rfl, bind_assoc]
    congr
    funext flow
    cases flow <;> rfl

namespace Generate

variable {ctx : FunctionContext} {gen later : Generator} {halts : Bool}

/-- How the code of a loop is put together. -/
structure Looping (ctx : FunctionContext) (test : Expr) (body : Block) (gen later : Generator)
    (tested : Piece) (stopped : Bool) (inner : Generator) : Prop where
  tests : condition test ctx { gen with piece := gen.piece.label.1 } =
    .done ((), { gen with piece := tested })
  emitted : gen.piece.label.1.Emitted tested
  runs : block body ctx { gen with
    piece := (tested.emitJump .jumpZero .a).1
    loops := { start := gen.piece.size, depth := gen.frame } :: gen.loops } =
      .done (stopped, inner)
  lands : ((tested.size + 1) :: (inner.loops.head?.map LoopFrame.exits).getD []).forM land ctx
    { inner with
      piece := inner.piece.emitJumpBack .jump .unused gen.piece.size, loops := inner.loops.tail } =
      .done ((), later)

theorem loop_done {span : Span} {test : Expr} {body : Block}
    (done : statement (.loop span test body) ctx gen = .done (halts, later)) :
    halts = false ∧ ∃ tested stopped inner,
      Looping ctx test body gen later tested stopped inner := by
  unfold statement at done
  obtain ⟨_, _, started, done⟩ := bind_done.mp done
  obtain ⟨rfl, rfl⟩ := Prod.mk.inj (Task.done.inj started)
  obtain ⟨_, _, one, done⟩ := bind_done.mp done
  obtain ⟨tested, rfl, emitted⟩ := emits_condition test one (Nat.le_refl _)
  obtain ⟨_, _, jumped, done⟩ := bind_done.mp done
  obtain ⟨rfl, rfl⟩ := Prod.mk.inj (Task.done.inj jumped)
  obtain ⟨_, _, entered, done⟩ := bind_done.mp done
  obtain ⟨-, rfl⟩ := Prod.mk.inj (Task.done.inj entered)
  obtain ⟨stopped, inner, two, done⟩ := bind_done.mp done
  obtain ⟨_, _, left, done⟩ := bind_done.mp done
  obtain ⟨rfl, rfl⟩ := Prod.mk.inj (Task.done.inj left)
  obtain ⟨_, _, back, done⟩ := bind_done.mp done
  obtain ⟨-, rfl⟩ := Prod.mk.inj (Task.done.inj back)
  obtain ⟨_, _, three, done⟩ := bind_done.mp done
  obtain ⟨_, _, four, done⟩ := bind_done.mp done
  obtain ⟨rfl, rfl⟩ := Prod.mk.inj (pure_done.mp done)
  exact ⟨rfl, tested, stopped, inner, one, emitted, two, bind_done.mpr ⟨_, _, three, four⟩⟩

end Generate

namespace Generator

variable {env : Environment} {height : Nat} {gen later : Generator} {ctx : FunctionContext}

/-- Some open jumps were fixed. -/
structure Landed (env : Environment) (height : Nat) (gen : Generator) (cells : List Nat)
    (later : Generator) : Prop where
  moves : Moves env height cells gen [] later
  scopes : later.scopes = gen.scopes
  frame : later.frame = gen.frame
  loops : later.loops = gen.loops
  size : later.piece.size = gen.piece.size
  near : cells ≠ [] → later.piece.settled = gen.piece.size ∧ later.landing = gen.piece.size
  fixed : ∀ final others, later.piece.Completes final (others ++ gen.openExits) →
    ∀ cell ∈ cells, cell ∉ others ++ gen.openExits →
      final[cell]? = some (.immediate (BitVec.ofInt 32 ((gen.piece.size : Int) - cell)))

theorem Orderly.landed {cells : List Nat} (orderly : gen.Orderly env height)
    (done : cells.forM Generate.land ctx gen = .done ((), later))
    (branches : ∀ cell ∈ cells, cell < gen.piece.settled ∧ gen.piece.BranchAt cell)
    (distinct : cells.Nodup) : Landed env height gen cells later := by
  induction cells generalizing gen with
  | nil =>
    obtain ⟨-, rfl⟩ := Prod.mk.inj (Task.done.inj done)
    exact ⟨orderly.refl, rfl, rfl, rfl, rfl, fun none => absurd rfl none,
      fun _ _ _ _ mem => absurd mem List.not_mem_nil⟩
  | cons cell cells ih =>
    obtain ⟨_, _, first, done⟩ := Generate.bind_done.mp done
    obtain ⟨-, rfl⟩ := Prod.mk.inj (Task.done.inj first)
    obtain ⟨small, branch⟩ := branches cell List.mem_cons_self
    obtain ⟨new, distinct⟩ := List.nodup_cons.mp distinct
    have lands := fun holes => orderly.lands branch holes gen.piece.size
    have size := Piece.size_fixJump branch
    have settled := Piece.settled_fixJump branch
    have rest := ih (lands []).orderly done (fun other mem => by
      obtain ⟨low, found⟩ := branches other (List.mem_cons_of_mem _ mem)
      exact ⟨Nat.lt_of_lt_of_le low (lands []).follows.settled, (lands []).follows.branches
        other low found⟩)
      distinct
    refine ⟨(lands cells).trans rest.moves, rest.scopes, rest.frame, rest.loops, rest.size.trans
      size, fun _ => ?_,
      fun final others complete other mem closed => ?_⟩
    · cases cells with
      | nil =>
        obtain ⟨-, rfl⟩ := Prod.mk.inj (Task.done.inj done)
        exact ⟨settled, rfl⟩
      | cons other cells =>
        obtain ⟨settled, landing⟩ := rest.near (by simp)
        exact ⟨settled.trans size, landing.trans size⟩
    · rcases List.mem_cons.mp mem with rfl | later
      · have exits : later.openExits = gen.openExits := by
          rw [openExits, openExits, rest.loops]
        refine Piece.Completes.fixed branch (rest.moves.follows.completes final others
          (exits ▸ complete)) fun inside => ?_
        rcases List.mem_append.mp inside with other | inside
        · exact closed (List.mem_append_left _ other)
        · rcases List.mem_append.mp inside with again | exit
          · exact new again
          · exact closed (List.mem_append_right _ exit)
      · have fixed := rest.fixed final others complete other later closed
        dsimp only at fixed
        rwa [size] at fixed

end Generator

namespace Activation

open Generate

variable {act : Activation} {bound : Nat} {gen later inner : Generator} {machine : Machine}
  {shown : Shown} {test : Expr} {body : Block} {tested : Piece} {stopped : Bool}

/-- Jumps that are fixed lead to where the next statement starts. -/
theorem Starts.behind {cells : List Nat}
    (landed : gen.Landed act.environment act.height cells later) (some : cells ≠ [])
    (plain : act.site.Plain gen.piece.size machine shown)
    (at' : act.At gen.frame shown) : act.Starts later machine shown := by
  obtain ⟨settled, landing⟩ := landed.near some
  have size := landed.size
  have total := later.piece.settled_add
  refine ⟨.ofPlain (List.length_eq_zero_iff.mp (by omega)) landed.moves.orderly.bounded
    (size.symm ▸ plain),
    landed.frame.symm ▸ at', .inl (landing.trans settled.symm)⟩

/-- What is known of the code of a loop. -/
structure Circles (act : Activation) (test : Expr) (body : Block) (gen later : Generator)
    (tested : Piece) (stopped : Bool) (inner : Generator) (exits : List Nat) : Prop
    extends Looping act.context test body gen later tested stopped inner where
  settled : (tested.emitJump .jumpZero .a).1.settled = tested.size + 2
  starts : gen.Goes act.environment act.height
    { gen with piece := gen.piece.label.1 }
  entered : ({ gen with
    piece := (tested.emitJump .jumpZero .a).1
    loops := { start := gen.piece.size, depth := gen.frame } :: gen.loops } :
      Generator).Orderly act.environment act.height
  goes : ({ gen with
    piece := (tested.emitJump .jumpZero .a).1
    loops := { start := gen.piece.size, depth := gen.frame } :: gen.loops } :
      Generator).Goes act.environment act.height inner
  loops : inner.loops = { start := gen.piece.size, depth := gen.frame, exits } :: gen.loops
  scopes : inner.scopes = gen.scopes
  frame : inner.frame = gen.frame
  fresh : ∀ cell ∈ exits, tested.size + 2 ≤ cell ∧ cell < inner.piece.settled ∧
    cell ∉ gen.openExits
  landed : ({ inner with
    piece := inner.piece.emitJumpBack .jump .unused gen.piece.size, loops := gen.loops } :
      Generator).Landed act.environment act.height ((tested.size + 1) :: exits) later
  moves : gen.Moves act.environment act.height [] ((tested.size + 1) :: exits) { inner with
    piece := inner.piece.emitJumpBack .jump .unused gen.piece.size, loops := gen.loops }

theorem circles_of_looping {eval : Eval Flow} (acts : act.Acts bound (block body) eval)
    (keeps : act.Keeps (block body)) (orderly : gen.Orderly act.environment act.height)
    (looping : Looping act.context test body gen later tested stopped inner) :
    ∃ exits, act.Circles test body gen later tested stopped inner exits := by
  have labelled := Piece.grows_label gen.piece
  have starts : gen.Goes act.environment act.height
      { gen with piece := gen.piece.label.1 } := orderly.goes labelled rfl rfl rfl
  have first := (emits_condition test).goes starts.orderly looping.tests
  have opened := first.orderly.opens .jumpZero .a []
  have settled := Piece.settled_emitJump looping.emitted.bounded .jumpZero .a
  have grown := looping.emitted.settled
  have start : gen.piece.label.1.settled = gen.piece.size := by
    rw [Piece.settled, Piece.pending_label]
    rfl
  have below := tested.settled_le
  have entered : ({ gen with
      piece := (tested.emitJump .jumpZero .a).1
      loops := { start := gen.piece.size, depth := gen.frame } :: gen.loops } :
        Generator).Orderly act.environment act.height := by
    refine ⟨opened.orderly.bounded, orderly.names, orderly.inner, orderly.frame, fun loop mem => ?_,
      opened.orderly.exits, opened.orderly.distinct⟩
    rcases List.mem_cons.mp mem with rfl | outer
    · refine ⟨Int.le_refl _, orderly.frame, ?_⟩
      dsimp only
      omega
    · exact opened.orderly.loops loop outer
  have goes := acts.goes looping.runs entered
  obtain ⟨scopes, frame⟩ := keeps looping.runs entered
  obtain ⟨exits, loops⟩ := goes.loops
  have loops : inner.loops = { start := gen.piece.size, depth := gen.frame, exits } :: gen.loops :=
    loops
  have open' : inner.openExits = exits ++ gen.openExits := by rw [Generator.openExits, loops]; rfl
  have distinct := goes.orderly.distinct
  rw [open'] at distinct
  obtain ⟨alone, -, apart⟩ := List.nodup_append.mp distinct
  have fresh : ∀ cell ∈ exits, tested.size + 2 ≤ cell ∧ cell < inner.piece.settled ∧
      cell ∉ gen.openExits := by
    intro cell mem
    have inside : cell ∈ inner.openExits := open' ▸ List.mem_append_left _ mem
    refine ⟨?_, (goes.orderly.exits cell inside).1, fun old => apart cell mem cell old rfl⟩
    rcases goes.fresh cell inside with old | new
    · exact absurd rfl (apart cell mem cell old)
    · exact settled ▸ new
  have back := Piece.grows_emitJumpBack goes.orderly.bounded .jump .unused gen.piece.size
  have follows : (tested.emitJump .jumpZero .a).1.Follows
      (inner.piece.emitJumpBack .jump .unused gen.piece.size) ((tested.size + 1) :: gen.openExits)
      ((tested.size + 1) :: exits ++ gen.openExits) := by
    have inside := ((goes.keep (tested.size + 1)).follows.trans (back.follows _))
    rw [open'] at inside
    exact inside
  have moves : gen.Moves act.environment act.height [] ((tested.size + 1) :: exits) { inner with
      piece := inner.piece.emitJumpBack .jump .unused gen.piece.size, loops := gen.loops } :=
    orderly.moves (starts.follows.trans (first.follows.trans
      (opened.follows.trans follows))) rfl scopes frame
  have lands := looping.lands
  rw [loops] at lands
  refine ⟨exits, looping, settled, starts, entered, goes, loops, scopes, frame, fresh,
    moves.orderly.landed lands (fun cell mem => ?_) (List.nodup_cons.mpr ⟨fun mem => ?_, alone⟩),
      moves⟩
  · rcases List.mem_cons.mp mem with rfl | exit
    · have later := follows.settled
      have small : tested.size + 1 < (tested.emitJump .jumpZero .a).1.settled := by omega
      exact ⟨Nat.lt_of_lt_of_le small later,
        follows.branches _ small (tested.branchAt_emitJump .a (.inr rfl))⟩
    · obtain ⟨small, branch⟩ := goes.orderly.exits cell (open' ▸ List.mem_append_left _ exit)
      exact ⟨Nat.lt_of_lt_of_le small back.settled, back.branchAt small branch⟩
  · have low := (fresh _ mem).1
    omega

/-- No evaluation of the body of a loop leaves more names bound than there were. -/
def Tidy (eval : Eval Flow) : Prop := ∀ ⦃store flow after⦄, eval.run.run store = (.ok flow, after) →
  after.locals.length ≤ store.locals.length

/-- A tidy evaluation leaves no names bound that were not bound before. -/
theorem Leaps.tidy {cell : Nat} {depth : Int} {store : Store}
    (leaps : act.Leaps cell depth gen store machine)
    (few : store.locals.length ≤ (act.store gen shown).locals.length) :
    ∃ reached, act.site.Plain cell machine reached ∧ act.At depth reached ∧
      store = act.store gen reached := by
  obtain ⟨reached, inner, plain, at', rfl⟩ := leaps
  refine ⟨reached, plain, at', ?_⟩
  have count := act.length_locals gen
  rw [List.length_append, count, count] at few
  obtain rfl := List.length_eq_zero_iff.mp (by omega : inner.length = 0)
  rfl

/-- What the rounds of a loop come to. -/
theorem Circles.meets {exits others : List Nat} {eval : Eval Flow} (set : act.Set bound)
    (direct : test.isDirect) (acts : act.Acts bound (block body) eval) (tidy : Tidy eval)
    (circles : act.Circles test body gen later tested stopped inner exits)
    (orderly : gen.Orderly act.environment act.height)
    (earlier : ∀ cell ∈ others, cell < gen.piece.settled)
    (complete : later.piece.Completes act.site.code (others ++ later.openExits)) :
    ∀ rounds ≤ bound, ∀ machine shown, act.site.Plain gen.piece.size machine shown →
      act.At gen.frame shown →
      machine.Meets act.site.program act.site.settings rounds
        (fun flow store last => act.Ends gen later false store last flow)
        ((Eval.repeated (Eval.round (do Eval.test (← test.eval act.environment
          (act.environment.callWithin bound))) eval) rounds).run.run (act.store gen shown)) := by
  have landed := circles.landed
  have left := Generator.openExits_congr landed.loops
  have behind := landed.moves.follows.completes _ others complete
  have back := Piece.grows_emitJumpBack circles.goes.orderly.bounded .jump .unused gen.piece.size
  have inside : inner.piece.Completes act.site.code
      (((tested.size + 1) :: others) ++ inner.openExits) := (back.completes behind).mono
        fun cell mem => by
    have open' : inner.openExits = exits ++ gen.openExits := by
      rw [Generator.openExits, circles.loops]
      rfl
    rw [open']
    simp only [List.mem_append, List.mem_cons, List.cons_append, Generator.openExits] at mem ⊢
    tauto
  have opened : (tested.emitJump .jumpZero .a).1.Completes act.site.code
      (others ++ (tested.size + 1) :: gen.openExits) :=
    (circles.goes.keep (tested.size + 1)).follows.completes _ others (inside.mono fun cell mem => by
      simp only [List.mem_append, List.mem_cons, List.cons_append, List.nil_append] at mem ⊢
      tauto)
  have before := (Piece.follows_emitJump circles.emitted.bounded .jumpZero .a
    gen.openExits).completes
    _ others opened
  have chain : gen.piece.settled ≤ tested.size ∧ tested.size + 2 ≤ inner.piece.settled ∧
      inner.piece.settled ≤ inner.piece.size := by
    have first := circles.starts.follows.settled
    have second := circles.emitted.settled
    have third := circles.goes.follows.settled
    have settled := circles.settled
    have below := tested.settled_le
    have above := inner.piece.settled_le
    dsimp only at first third
    omega
  obtain ⟨low, middle, high⟩ := chain
  have near : (inner.piece.emitJumpBack .jump .unused gen.piece.size).size ≤ act.site.code.size +
    1 :=
    (landed.near (by simp)).1 ▸ complete.settled_le
  have there : ∀ cell ∈ (tested.size + 1) :: exits,
        act.site.code[cell]? = some (.immediate (BitVec.ofInt 32
      (((inner.piece.emitJumpBack .jump .unused gen.piece.size).size : Int) - cell))) := by
    refine fun cell mem => landed.fixed _ others (left ▸ complete) cell mem fun closed => ?_
    have least : tested.size + 1 ≤ cell := by
      rcases List.mem_cons.mp mem with rfl | exit
      · exact Nat.le_refl _
      · have fresh := (circles.fresh cell exit).1
        omega
    rcases List.mem_append.mp closed with other | exit
    · have small := earlier cell other
      omega
    · have small := (orderly.exits cell exit).1
      omega
  obtain ⟨jump, distance⟩ := behind.back circles.goes.orderly.bounded (.inl rfl) (by
    intro mem
    rcases List.mem_append.mp mem with other | inner
    · have small := earlier _ other
      omega
    rcases List.mem_append.mp inner with fixed | exit
    · rcases List.mem_cons.mp fixed with same | exit
      · omega
      · have small := (circles.fresh _ exit).2.1
        omega
    · have small := (orderly.exits _ exit).1
      omega)
  have ends : ∀ last shown, act.site.Plain
      (inner.piece.emitJumpBack .jump .unused gen.piece.size).size last shown →
      act.At gen.frame shown → act.Ends gen later false
        (act.store gen shown) last .next := by
    intro last shown plain at'
    refine ⟨rfl, shown, Starts.behind landed (by simp) plain (circles.frame.symm ▸ at'), ?_⟩
    rw [store, store, landed.scopes, circles.scopes]
  intro rounds
  induction rounds with
  | zero => exact fun _ machine _ _ _ => .zero machine
  | succ rounds ih =>
    intro within machine shown plain at'
    rw [Eval.repeated_round]
    have shows : act.site.Shows gen.piece.label.1 machine shown :=
      .ofPlain (Piece.pending_label _) (Nat.le_refl _) plain
    have stands := at'.stands set orderly others
    have runs := Scene.runs_condition _ (Scene.runs_expr test direct set.answers shown stands
      (Nat.le_refl _))
    refine ((runs circles.tests rfl before shows).fewer within).bind ?_
    rintro truth _ last ⟨final, shows, rfl, rfl, stack, quiet⟩
    have at' := at'.quiet quiet orderly.frame (stack.trans at'.empty)
    refine .of_takes (takes_test shows at' opened near (there _ List.mem_cons_self))
      fun after reached => ?_
    by_cases zero : final.a = 0
    · rw [if_pos zero] at reached
      rw [bne_eq_false_iff_eq.mpr zero, if_neg Bool.false_ne_true]
      exact .here (ends after final reached at')
    · rw [if_neg zero] at reached
      rw [bne_iff_ne.mpr zero, if_pos rfl]
      have again : ∀ last shown, act.site.Plain gen.piece.size last shown →
          act.At gen.frame shown → last.Meets act.site.program act.site.settings rounds
            (fun flow store last => act.Ends gen later false store last flow)
            ((Eval.repeated _ rounds).run.run (act.store gen shown)) :=
        ih (by omega)
      refine Machine.Meets.bind (((acts.meets ((tested.size + 1) :: others) circles.runs
        circles.entered
        (fun cell mem => ?_) inside ⟨reached.shows, reached.at', reached.live⟩).known).fewer
          (by omega)) ?_
      · have settled := circles.settled
        dsimp only
        rcases List.mem_cons.mp mem with rfl | other
        · omega
        · have small := earlier cell other
          omega
      rintro flow store last ⟨ended, done⟩
      have few := tidy done
      cases flow with
      | next =>
        obtain ⟨-, reached, starts, rfl⟩ := ended
        have near : gen.piece.size ≤ act.site.code.size + 1 := by
          have start : gen.piece.label.1.settled = gen.piece.size := by
            rw [Piece.settled, Piece.pending_label]
            rfl
          have grown := circles.emitted.settled
          have below := tested.settled_le
          have inside := (Array.getElem?_eq_some_iff.mp distance).1
          omega
        have distance' := act.site.distance near (Nat.succ_pos _) distance
        refine .of_comes (starts.plain.comes_jump jump distance distance') fun back plain => ?_
        have same : act.store inner reached = act.store gen reached := by
          rw [Activation.store, Activation.store, circles.scopes]
        rw [same]
        exact again back reached plain (circles.frame ▸ starts.at')
      | again =>
        obtain ⟨loop, mem, leaps⟩ := ended
        obtain rfl := Option.some.inj mem
        obtain ⟨reached, plain, at', rfl⟩ := leaps.tidy few
        exact again last reached plain at'
      | leave =>
        obtain ⟨loop, mem, cell, exit, leap, positive, leaps⟩ := ended
        rw [circles.loops] at mem
        obtain rfl := Option.some.inj mem
        obtain ⟨first, rfl⟩ : ∃ first, cell = first + 1 := ⟨cell - 1, by omega⟩
        rw [Nat.add_sub_cancel] at leap leaps
        obtain ⟨reached, plain, at', rfl⟩ := leaps.tidy few
        have target := there (first + 1) (List.mem_cons_of_mem _ exit)
        have distance' := act.site.distance near positive target
        refine Machine.Comes.mono (plain.comes_jump leap target distance') fun last plain => ?_
        exact ends last reached plain at'
      | result value => exact .here ended

/-- A loop goes round until its condition does not hold or its body jumps out of it. -/
theorem acts_loop {eval : Eval Flow} (set : act.Set bound) (direct : test.isDirect)
    (acts : act.Acts bound (block body) eval) (keeps : act.Keeps (block body)) (tidy : Tidy eval)
    (span : Span) : act.Acts bound (statement (.loop span test body))
      (Eval.repeated (Eval.round (do Eval.test (← test.eval act.environment
        (act.environment.callWithin bound))) eval) bound) := by
  refine ⟨fun gen halts later done orderly => ?_,
    fun gen halts later others done orderly earlier complete machine shown starts => ?_⟩
  all_goals
    obtain ⟨rfl, tested, stopped, inner, looping⟩ := loop_done done
    obtain ⟨exits, circles⟩ := circles_of_looping acts keeps orderly looping
  · exact circles.moves.trans circles.landed.moves
  · exact circles.meets set direct acts tidy orderly earlier complete bound (Nat.le_refl _)
      machine shown
      starts.plain starts.at'

end Activation

namespace Generate

variable {ctx : FunctionContext} {gen later : Generator} {halts leaves : Bool} {span : Span}

theorem jumpOut_stops (done : jumpOut span leaves ctx gen = .done (halts, later)) :
    halts = true := by
  obtain ⟨_, _, look, done⟩ := bind_done.mp done
  obtain ⟨rfl, rfl⟩ := Prod.mk.inj (Task.done.inj look)
  cases loops : gen.loops with
  | nil =>
    rw [loops] at done
    obtain ⟨_, _, reports, -⟩ := bind_done.mp done
    cases reports
  | cons loop outer =>
    rw [loops] at done
    obtain ⟨_, between, -, done⟩ := bind_done.mp done
    cases leaves with
    | true => exact (Prod.mk.inj (Task.done.inj done)).1.symm
    | false => exact (Prod.mk.inj (Task.done.inj done)).1.symm

mutual

/-- Generating a statement says whether it jumps away. -/
theorem statement_stops : (s : Stmt) → ∀ {ctx gen halts later},
    statement s ctx gen = .done (halts, later) → halts = s.stops
  | .declare _ _ _ _ => fun done => by
    unfold statement at done
    obtain ⟨_, _, -, done⟩ := bind_done.mp done
    exact (Prod.mk.inj (pure_done.mp done)).1.symm
  | .constant _ => fun done => by
    unfold statement at done
    obtain ⟨_, _, -, done⟩ := bind_done.mp done
    exact (Prod.mk.inj (pure_done.mp done)).1.symm
  | .evaluate _ _ => fun done => by
    unfold statement at done
    obtain ⟨_, _, -, done⟩ := bind_done.mp done
    obtain ⟨_, _, -, done⟩ := bind_done.mp done
    exact (Prod.mk.inj (pure_done.mp done)).1.symm
  | .branch _ _ _ _ => fun done => by
    unfold statement at done
    obtain ⟨_, _, -, done⟩ := bind_done.mp done
    obtain ⟨_, _, -, done⟩ := bind_done.mp done
    obtain ⟨_, _, -, done⟩ := bind_done.mp done
    obtain ⟨_, _, -, done⟩ := bind_done.mp done
    exact (Prod.mk.inj (pure_done.mp done)).1.symm
  | .loop _ _ _ => fun done => (loop_done done).1
  | .leave _ => fun done => by
    unfold statement at done
    exact jumpOut_stops done
  | .again _ => fun done => by
    unfold statement at done
    exact jumpOut_stops done
  | .result _ _ => fun done => by
    unfold statement at done
    obtain ⟨_, _, -, done⟩ := bind_done.mp done
    exact (Prod.mk.inj (pure_done.mp done)).1.symm
  | .block body => fun done => by
    unfold statement at done
    exact block_stops body done

theorem block_stops : (body : Block) → ∀ {ctx gen halts later},
    block body ctx gen = .done (halts, later) → halts = body.stops
  | .mk _ body => fun done => by
    obtain ⟨_, step, -⟩ := block_done done
    exact statements_stops body step

theorem statements_stops : (body : List Stmt) → ∀ {ctx gen halts later},
    statements body ctx gen = .done (halts, later) → halts = stopsAny body
  | [] => fun done => by
    unfold statements at done
    exact (Prod.mk.inj (pure_done.mp done)).1.symm
  | first :: rest => fun done => by
    obtain ⟨_, _, stopped, between, step, ends⟩ := statements_done done
    have same := statement_stops first step
    rcases ends with ⟨rfl, rfl, -⟩ | ⟨rfl, done⟩
    · rw [stopsAny, ← same, Bool.true_or]
    · rw [stopsAny, ← same, Bool.false_or]
      exact statements_stops rest done

end

end Generate

namespace Activation

open Generate

variable {act : Activation} {bound : Nat}

theorem tidy_inScope (eval : Eval Flow) : Tidy (Eval.inScope eval) := by
  intro store flow after done
  rcases found : eval.run.run store with ⟨stop | value, last⟩
  · have run : (Eval.inScope eval).run.run store = (.error stop, last) := by
      unfold Eval.inScope
      refine (@Eval.run_bind_ok Store _ _ _ _ _ store rfl).trans ?_
      rw [Eval.run_bind, found]
    rw [run] at done
    cases done
  · rw [Eval.run_inScope found] at done
    obtain ⟨-, rfl⟩ := Prod.mk.inj done
    dsimp only
    rw [List.length_drop]
    omega

mutual

/-- The code of a statement of a program without pointers does what its execution says. -/
theorem acts_statement (set : act.Set bound) : (s : Stmt) → s.isDirect →
    act.environment.room s < 2 ^ 31 → act.Acts bound (statement s)
      (s.exec act.environment (act.environment.callWithin bound) bound
        act.context.function.result) ∧ (s.isAlternative → act.Keeps (statement s))
  | .declare span name written value => fun direct small => by
    obtain ⟨plain, inner⟩ := Bool.and_eq_true_iff.mp direct
    exact ⟨acts_declare set span name plain inner small _, nofun⟩
  | .constant decl => fun direct _ => ⟨acts_constant direct _, nofun⟩
  | .evaluate span value => fun direct _ => ⟨acts_evaluate set span direct _, nofun⟩
  | .branch span test body otherwise => fun direct small => by
    obtain ⟨inner, other⟩ := Bool.and_eq_true_iff.mp direct
    obtain ⟨condition, direct⟩ := Bool.and_eq_true_iff.mp inner
    have room : act.environment.blockRoom body < 2 ^ 31 ∧
        ∀ other ∈ otherwise, act.environment.room other < 2 ^ 31 := by
      cases otherwise with
      | none => exact ⟨small, nofun⟩
      | some next =>
        have most : max (act.environment.blockRoom body) (act.environment.room next) < 2 ^ 31 :=
          small
        refine ⟨by omega, fun other mem => ?_⟩
        obtain rfl := Option.mem_some_iff.mp mem
        omega
    obtain ⟨acts, keeps⟩ := acts_blockOf set body direct room.1
    have both := acts_branch set condition acts keeps (alternates set otherwise other room.2) span
    exact ⟨both.1, fun _ => both.2⟩
  | .loop span test body => fun direct small => by
    obtain ⟨condition, direct⟩ := Bool.and_eq_true_iff.mp direct
    obtain ⟨acts, keeps⟩ := acts_blockOf set body direct small
    have tidy : Tidy (body.exec act.environment (act.environment.callWithin bound) bound
        act.context.function.result) := by
      cases body with
      | mk span body => exact tidy_inScope _
    refine ⟨?_, nofun⟩
    have acts := acts_loop set condition acts keeps tidy span
    unfold Eval.round at acts
    simp only [bind_assoc] at acts
    exact acts
  | .leave span => fun _ _ => by
    refine ⟨?_, nofun⟩
    have acts := acts_jumpOut set span true
    unfold statement
    exact acts
  | .again span => fun _ _ => by
    refine ⟨?_, nofun⟩
    have acts := acts_jumpOut set span false
    unfold statement
    exact acts
  | .result span value => fun direct _ => ⟨acts_result set span direct, nofun⟩
  | .block body => fun direct small => by
    obtain ⟨acts, keeps⟩ := acts_blockOf set body direct small
    unfold statement
    exact ⟨acts, fun _ => keeps⟩

theorem alternates (set : act.Set bound) : (otherwise : Option Stmt) → isDirectOtherwise otherwise →
    (∀ other ∈ otherwise, act.environment.room other < 2 ^ 31) → act.Alternates bound otherwise
      (execAlternative act.environment (act.environment.callWithin bound) bound
        act.context.function.result otherwise)
  | none => fun _ _ => alternates_none
  | some other => fun direct small => by
    obtain ⟨follows, direct⟩ := Bool.and_eq_true_iff.mp direct
    obtain ⟨acts, keeps⟩ := acts_statement set other direct (small other rfl)
    exact acts.alternates follows (keeps follows)

theorem acts_blockOf (set : act.Set bound) : (body : Block) → body.isDirect →
    act.environment.blockRoom body < 2 ^ 31 → act.Acts bound (block body)
      (body.exec act.environment (act.environment.callWithin bound) bound
        act.context.function.result) ∧ act.Keeps (block body)
  | .mk span body => fun direct small => acts_block (acts_statements set body direct small) set span

theorem acts_statements (set : act.Set bound) : (body : List Stmt) → isDirectStatements body →
    act.environment.roomOfAll body < 2 ^ 31 → act.Acts bound (statements body)
      (execAll act.environment (act.environment.callWithin bound) bound
        act.context.function.result body)
  | [] => fun _ _ => acts_nil
  | first :: rest => fun direct small => by
    obtain ⟨one, more⟩ := Bool.and_eq_true_iff.mp direct
    rw [execAll_cons]
    unfold Environment.roomOfAll at small
    refine Acts.cons (acts_statement set first one ?_).1 fun goes => acts_statements set
      rest more ?_
    · split at small <;> omega
    · obtain ⟨gen, later, done⟩ := goes
      rw [if_neg (by rw [← statement_stops first done]; exact Bool.false_ne_true)] at small
      omega

end

end Activation

end TinLang
