import TinLang.Proofs.Simulation.Statements

/-!
# Code of blocks and choices

Statements follow one another until one jumps away. A block gives back what its variables take of
the frame, and a choice runs one of two blocks and goes on behind both.
-/
namespace TinLang

namespace Generate

variable {ctx : FunctionContext} {gen later : Generator} {halts : Bool}

/-- The code of some statements is that of the first and, unless it jumps away, of the rest. -/
theorem statements_done {first : Stmt} {rest : List Stmt}
    (done : statements (first :: rest) ctx gen = .done (halts, later)) :
    ∃ lines currentLine stopped between, statement first ctx
        { gen with piece := { gen.piece with lines, currentLine } } = .done (stopped, between) ∧
      (stopped = true ∧ halts = true ∧ later = between ∨
        stopped = false ∧ statements rest ctx between = .done (halts, later)) := by
  unfold statements at done
  obtain ⟨_, _, line, done⟩ := bind_done.mp done
  obtain ⟨lines, currentLine, rfl⟩ := setLine_done line
  obtain ⟨stopped, between, one, done⟩ := bind_done.mp done
  obtain ⟨_, between', check, ends⟩ := bind_done.mp done
  have same := checkDepth_done check
  subst between'
  refine ⟨lines, currentLine, stopped, between, one, ?_⟩
  cases stopped with
  | true =>
    obtain ⟨rfl, rfl⟩ := Prod.mk.inj (pure_done.mp ends)
    exact .inl ⟨rfl, rfl, rfl⟩
  | false => exact .inr ⟨rfl, ends⟩

/-- The code of a block is that of its statements in a scope of its own. -/
theorem block_done {span : Span} {body : List Stmt}
    (done : block (.mk span body) ctx gen = .done (halts, later)) :
    ∃ inner, statements body ctx { gen with scopes := [] :: gen.scopes } =
        .done (halts, inner) ∧ (inner.piece.barrier ≤ inner.piece.size →
      ∃ released, inner.piece.Grows released ∧ (halts = false →
          release gen.frame ctx inner = .done ((), { inner with piece := released }) ∧
            inner.piece.Emitted released) ∧
        later = { inner with
          piece := released, frame := gen.frame, scopes := inner.scopes.tail }) := by
  unfold block at done
  obtain ⟨_, _, opened, done⟩ := bind_done.mp done
  obtain ⟨-, rfl⟩ := Prod.mk.inj (Task.done.inj opened)
  obtain ⟨_, _, look, done⟩ := bind_done.mp done
  obtain ⟨rfl, rfl⟩ := Prod.mk.inj (Task.done.inj look)
  obtain ⟨stopped, inner, one, done⟩ := bind_done.mp done
  obtain ⟨_, between, ended, done⟩ := bind_done.mp done
  obtain ⟨_, _, closed, done⟩ := bind_done.mp done
  obtain ⟨-, rfl⟩ := Prod.mk.inj (Task.done.inj closed)
  obtain ⟨rfl, rfl⟩ := Prod.mk.inj (pure_done.mp done)
  refine ⟨inner, one, fun bounded => ?_⟩
  clear done
  unfold endStatements at ended
  cases stopped with
  | true =>
    obtain ⟨_, _, look, ended⟩ := bind_done.mp ended
    obtain ⟨rfl, rfl⟩ := Prod.mk.inj (Task.done.inj look)
    obtain ⟨_, _, moved, ended⟩ := bind_done.mp ended
    obtain ⟨-, rfl⟩ := Prod.mk.inj (Task.done.inj moved)
    obtain ⟨-, rfl⟩ := Prod.mk.inj (Task.done.inj ended)
    exact ⟨{ inner.piece with depth := inner.piece.depth + wrapSigned (gen.frame - inner.frame) },
      Piece.grows_of_same bounded rfl rfl fun _ => id, nofun, rfl⟩
  | false =>
    obtain ⟨_, _, given, ended⟩ := bind_done.mp ended
    obtain ⟨-, rfl⟩ := Prod.mk.inj (Task.done.inj ended)
    obtain ⟨released, rfl, emitted⟩ := emits_release _ given bounded
    exact ⟨released, emitted.toGrows, fun _ => ⟨given, emitted⟩, rfl⟩

/-- The code of another statement stands where the jump that skips the body lands; a jump over it
stands before, unless the body jumps away itself. -/
theorem alternative_done {skip : Nat} {other : Stmt} (follows : other.isAlternative)
    (done : alternative skip halts (some other) ctx gen = .done ((), later)) :
    ∃ opened lines currentLine stopped inner, statement other ctx { gen with
        piece := { (Piece.fixJump opened skip).1 with lines, currentLine }, landing :=
          opened.size } =
          .done (stopped, inner) ∧
      (halts = true ∧ opened = gen.piece ∧ later = inner ∨
        halts = false ∧ opened = (gen.piece.emitJump .jump .unused).1 ∧
          later = { inner with
            piece := (inner.piece.fixJump (gen.piece.size + 1)).1, landing :=
              inner.piece.size }) := by
  have middle : ∀ {opened : Piece} {next : Generate Unit},
      (∀ body, other = .block body → (do land skip; let _ ← block body; next)
        ctx { gen with piece := opened } = .done ((), later)) →
      (∀ span test body otherwise, other = .branch span test body otherwise → (do
        land skip
        setLine span.start.line
        let _ ← statement (.branch span test body otherwise)
        next) ctx { gen with piece := opened } = .done ((), later)) →
      ∃ lines currentLine stopped inner, statement other ctx { gen with
        piece := { (Piece.fixJump opened skip).1 with lines, currentLine }, landing :=
          opened.size } =
          .done (stopped, inner) ∧ next ctx inner = .done ((), later) := by
    intro opened next blocks branches
    cases other with
    | block body =>
      obtain ⟨_, _, lands, done⟩ := bind_done.mp (blocks body rfl)
      obtain ⟨-, rfl⟩ := Prod.mk.inj (Task.done.inj lands)
      obtain ⟨stopped, inner, one, done⟩ := bind_done.mp done
      exact ⟨_, _, stopped, inner, by unfold statement; exact one, done⟩
    | branch span test body otherwise =>
      obtain ⟨_, _, lands, done⟩ := bind_done.mp (branches span test body otherwise rfl)
      obtain ⟨-, rfl⟩ := Prod.mk.inj (Task.done.inj lands)
      obtain ⟨_, _, line, done⟩ := bind_done.mp done
      obtain ⟨lines, currentLine, rfl⟩ := setLine_done line
      obtain ⟨stopped, inner, one, done⟩ := bind_done.mp done
      exact ⟨lines, currentLine, stopped, inner, one, done⟩
    | _ => cases follows
  unfold alternative at done
  cases halts with
  | true =>
    obtain ⟨_, _, nothing, done⟩ := bind_done.mp done
    obtain ⟨rfl, rfl⟩ := Prod.mk.inj (pure_done.mp nothing)
    obtain ⟨lines, currentLine, stopped, inner, one, last⟩ := middle
      (fun body same => by subst same; exact done)
      fun span test body otherwise same => by subst same; exact done
    obtain ⟨-, rfl⟩ := Prod.mk.inj (pure_done.mp last)
    exact ⟨gen.piece, lines, currentLine, stopped, inner, one, .inl ⟨rfl, rfl, rfl⟩⟩
  | false =>
    obtain ⟨_, _, opened, done⟩ := bind_done.mp done
    obtain ⟨rfl, rfl⟩ := Prod.mk.inj (Task.done.inj opened)
    obtain ⟨lines, currentLine, stopped, inner, one, last⟩ := middle
      (fun body same => by subst same; exact done)
      fun span test body otherwise same => by subst same; exact done
    obtain ⟨-, rfl⟩ := Prod.mk.inj (Task.done.inj last)
    exact ⟨_, lines, currentLine, stopped, inner, one, .inr ⟨rfl, rfl, rfl⟩⟩

/-- The code of a choice is that of its condition, a jump over the body, the body and what follows
it. -/
theorem branch_done {span : Span} {test : Expr} {body : Block} {otherwise : Option Stmt}
    (done : statement (.branch span test body otherwise) ctx gen = .done (halts, later))
    (bounded : gen.piece.barrier ≤ gen.piece.size) :
    halts = false ∧ ∃ tested stopped inner,
      condition test ctx gen = .done ((), { gen with piece := tested }) ∧
      gen.piece.Emitted tested ∧
      block body ctx { gen with piece := (tested.emitJump .jumpZero .a).1 } =
        .done (stopped, inner) ∧
      alternative (tested.size + 1) stopped otherwise ctx inner = .done ((), later) := by
  unfold statement at done
  obtain ⟨_, _, one, done⟩ := bind_done.mp done
  obtain ⟨tested, rfl, emitted⟩ := emits_condition test one bounded
  obtain ⟨_, _, jumped, done⟩ := bind_done.mp done
  obtain ⟨rfl, rfl⟩ := Prod.mk.inj (Task.done.inj jumped)
  obtain ⟨stopped, inner, two, done⟩ := bind_done.mp done
  obtain ⟨_, _, three, done⟩ := bind_done.mp done
  obtain ⟨rfl, rfl⟩ := Prod.mk.inj (pure_done.mp done)
  exact ⟨rfl, tested, stopped, inner, one, emitted, two, three⟩

end Generate

/-- What follows a statement, unless it jumps away. -/
def Flow.onward (others : Eval Flow) : Flow → Eval Flow
  | .next => others
  | flow => return flow

/-- Statements are executed one after another. -/
theorem execAll_cons (env : Environment) (call : Caller) (bound : Nat) (result : ValueType)
    (first : Stmt) (rest : List Stmt) : execAll env call bound result (first :: rest) = (do
      (← first.exec env call bound result).onward (execAll env call bound result rest)) := by
  rw [execAll]
  rfl

namespace Eval

/-- A scope leaves the names that were known before. -/
theorem run_inScope {α : Type} {inner : Eval α} {store after : Store} {value : α}
    (done : inner.run.run store = (.ok value, after)) : (inScope inner).run.run store =
      (.ok value, { after with locals := after.locals.drop (after.locals.length -
        store.locals.length) }) := by
  unfold inScope
  refine (@run_bind_ok Store _ _ _ _ _ store rfl).trans ?_
  refine (run_bind_ok done).trans ?_
  rfl

end Eval

/-- What a machine comes to is what the result of the evaluation asks for. -/
theorem Machine.Meets.inScope {prog : Program} {settings : Settings} {bound : Nat} {α : Type}
    {goal : α → Store → Machine → Prop} {machine : Machine} {inner : Eval α} {store : Store}
    (meets : machine.Meets prog settings bound (fun value after => goal value { after with
      locals := after.locals.drop (after.locals.length - store.locals.length) })
        (inner.run.run store)) :
    machine.Meets prog settings bound goal ((Eval.inScope inner).run.run store) := by
  rcases found : inner.run.run store with ⟨stop | value, after⟩ <;> rw [found] at meets
  · have run : (Eval.inScope inner).run.run store = (.error stop, after) := by
      unfold Eval.inScope
      refine (@Eval.run_bind_ok Store _ _ _ _ _ store rfl).trans ?_
      rw [Eval.run_bind, found]
    rw [run]
    cases stop <;> exact meets
  · rw [Eval.run_inScope found]
    exact meets

namespace Activation

open Generate

variable {act : Activation} {bound : Nat} {gen before after : Generator} {machine : Machine}
  {shown : Shown}

/-- Line numbers change nothing. -/
theorem Starts.lined (starts : act.Starts gen machine shown) (lines : Array SourceLine)
    (currentLine : Option Nat) : act.Starts
      { gen with piece := { gen.piece with lines, currentLine } } machine shown where
  shows := ⟨starts.shows.bounded, starts.shows.pushes, starts.shows.plain⟩
  at' := starts.at'
  live := starts.live.congr rfl fun _ _ => rfl

/-- No statements do nothing. -/
theorem acts_nil : act.Acts bound (statements []) (return .next) := by
  refine ⟨fun gen halts later done orderly => ?_,
    fun gen halts later others done orderly _ complete machine shown starts => ?_⟩
  all_goals
    unfold statements at done
    obtain ⟨rfl, rfl⟩ := Prod.mk.inj (pure_done.mp done)
  · exact orderly.refl
  · exact .here ⟨rfl, shown, starts, rfl⟩

/-- Statements follow one another until one jumps away. -/
theorem Acts.cons {first : Stmt} {rest : List Stmt} {eval others' : Eval Flow}
    (one : act.Acts bound (statement first) eval)
    (more : (∃ gen later, statement first act.context gen = .done (false, later)) →
      act.Acts bound (statements rest) others') :
    act.Acts bound (statements (first :: rest)) (do (← eval).onward others') := by
  refine ⟨fun gen halts later done orderly => ?_,
    fun gen halts later others done orderly earlier complete machine shown starts => ?_⟩
  all_goals
    obtain ⟨lines, currentLine, stopped, between, step, ends⟩ := statements_done done
    have lined := orderly.lined lines currentLine
    have goes := one.goes step lined.orderly
  · rcases ends with ⟨-, -, rfl⟩ | ⟨rfl, done⟩
    · exact lined.trans goes
    · exact lined.trans (goes.trans ((more ⟨_, _, step⟩).goes done goes.orderly))
  · rcases ends with ⟨rfl, rfl, rfl⟩ | ⟨rfl, done⟩
    · refine (one.meets others step lined.orderly earlier complete
        (starts.lined lines currentLine)).bind ?_
      rintro flow store last ends
      cases flow with
      | next => cases ends.1
      | _ => exact .here (ends.from lined true fun impossible => by cases impossible)
    · have more := more ⟨_, _, step⟩
      have goes' := more.goes done goes.orderly
      refine (one.meets others step lined.orderly earlier (goes'.follows.completes _
        others complete)
        (starts.lined lines currentLine)).bind ?_
      rintro flow store last ends
      cases flow with
      | next =>
        obtain ⟨-, shown', starts', rfl⟩ := ends
        refine (more.meets others done goes.orderly (fun cell mem => ?_) complete starts').mono
          fun flow store last ends => ends.from (lined.trans goes) halts fun _ => rfl
        exact Nat.lt_of_lt_of_le (earlier cell mem) (lined.trans goes).follows.settled
      | _ =>
        exact .here ((ends.moves (by simp) goes' halts).from lined halts fun _ => rfl)

/-- A step leaves the scopes and the frame as they were. -/
def Keeps (act : Activation) (step : Generate Bool) : Prop :=
  ∀ ⦃gen halts later⦄, step act.context gen = .done (halts, later) →
    gen.Orderly act.environment act.height →
    later.scopes = gen.scopes ∧ later.frame = gen.frame

/-- A store has a value for each name in scope. -/
theorem length_locals (act : Activation) (gen : Generator) (shown : Shown) :
    (act.store gen shown).locals.length = gen.scopes.flatten.length := by
  simp only [store, Environment.storeIn, Bytes.bindings, frameReferents, List.length_map]

/-- Outside a scope the names are known that were known before it. -/
theorem Leaps.outside {cell : Nat} {depth : Int} {store : Store} (leaps : act.Leaps cell depth
      { gen with scopes := [] :: gen.scopes } store machine) (shown : Shown) :
    act.Leaps cell depth gen { store with
      locals := store.locals.drop (store.locals.length - (act.store gen shown).locals.length) }
      machine := by
  obtain ⟨reached, inner, plain, at', rfl⟩ := leaps
  refine ⟨reached, [], plain, at', ?_⟩
  have count := act.length_locals gen
  show Store.mk ((inner ++ (act.store gen reached).locals).drop _) _ _ = Store.mk ([] ++ _) _ _
  dsimp only
  rw [List.length_append, show (act.store { gen with scopes := [] :: gen.scopes }
    reached).locals = (act.store gen reached).locals from rfl, count, count,
    Nat.add_sub_cancel, List.drop_left, List.nil_append]
  rfl

/-- A block gives back what its variables take, and forgets their names. -/
theorem acts_block {body : List Stmt} {eval : Eval Flow}
    (acts : act.Acts bound (statements body) eval)
    (set : act.Set bound) (span : Span) :
    act.Acts bound (block (.mk span body)) (Eval.inScope eval) ∧
      act.Keeps (block (.mk span body)) := by
  have parts : ∀ {gen halts later},
      block (.mk span body) act.context gen = .done (halts, later) →
      gen.Orderly act.environment act.height → ∃ inner released,
      statements body act.context { gen with scopes := [] :: gen.scopes } =
        .done (halts, inner) ∧ ({ gen with scopes := [] :: gen.scopes } : Generator).Orderly
          act.environment act.height ∧
      ({ gen with scopes := [] :: gen.scopes } : Generator).Goes act.environment
        act.height inner ∧ inner.piece.Grows released ∧ (halts = false →
          release gen.frame act.context inner = .done ((), { inner with piece := released }) ∧
            inner.piece.Emitted released) ∧ later = { inner with
          piece := released, frame := gen.frame, scopes := inner.scopes.tail } := by
    intro gen halts later done orderly
    obtain ⟨inner, step, ends⟩ := block_done done
    have entered : ({ gen with scopes := [] :: gen.scopes } : Generator).Orderly
        act.environment act.height :=
      ⟨orderly.bounded, orderly.names.congr rfl, List.cons_ne_nil _ _, orderly.frame, orderly.loops,
        orderly.exits, orderly.distinct⟩
    have goes := acts.goes step entered
    obtain ⟨released, grows, given, same⟩ := ends goes.orderly.bounded
    exact ⟨inner, released, step, entered, goes, grows, given, same⟩
  refine ⟨⟨fun gen halts later done orderly => ?_,
    fun gen halts later others done orderly earlier complete machine shown starts => ?_⟩,
    fun gen halts later done orderly => ?_⟩
  all_goals
    obtain ⟨inner, released, step, entered, goes, grows, given, rfl⟩ := parts done orderly
    have leave := orderly.leave goes grows (rfl : ({ inner with
      piece := released, frame := gen.frame, scopes := inner.scopes.tail } : Generator).loops = _)
      rfl rfl
  · exact leave.1
  · have base := starts.at'.base
    refine Machine.Meets.inScope ((acts.meets others step entered earlier (grows.completes complete)
      ⟨starts.shows, starts.at', starts.live⟩).next ?_)
    rintro flow store last ends
    cases flow with
    | next =>
      obtain ⟨rfl, reached, starts', rfl⟩ := ends
      obtain ⟨release, emitted⟩ := given rfl
      have base' := starts'.at'.base
      refine (comes_release starts'.shows starts'.at'.empty (base' ▸ starts'.at'.floor) ?_ release
        goes.frame orderly.frame complete).mono ?_
      · have roof := set.roof
        omega
      rintro last ⟨floor, shows, level⟩
      refine ⟨rfl, { reached with floor }, ⟨shows, ⟨starts'.at'.empty, base', ?_, starts'.at'.kept⟩,
        emitted.live _ starts'.live⟩, ?_⟩
      · dsimp only
        omega
      · obtain ⟨added, scopes⟩ := goes.scopes
        have locals : (act.store inner reached).locals =
            reached.bytes.bindings act.environment.structs (frameReferents reached.base [added]) ++
              (act.store gen reached).locals := by
          show reached.bytes.bindings _ (frameReferents reached.base inner.scopes) = _ ++
            reached.bytes.bindings _ (frameReferents reached.base gen.scopes)
          rw [← bindings_append, scopes, frameReferents, frameReferents, frameReferents,
            ← List.map_append]
          simp [List.modifyHead]
        have outer : inner.scopes.tail = gen.scopes := leave.2
        have count := act.length_locals gen
        show Store.mk ((act.store inner reached).locals.drop
          ((act.store inner reached).locals.length -
          (act.store gen shown).locals.length)) _ _ =
            Store.mk (reached.bytes.bindings _ (frameReferents reached.base inner.scopes.tail)) _ _
        rw [locals, List.length_append, count shown, ← count reached, Nat.add_sub_cancel,
          List.drop_left, outer]
        rfl
    | leave =>
      obtain ⟨loop, mem, cell, exit, jump, some, leaps⟩ := ends
      exact .here ⟨loop, mem, cell, exit, jump, some, leaps.outside shown⟩
    | again =>
      obtain ⟨loop, mem, leaps⟩ := ends
      exact .here ⟨loop, mem, leaps.outside shown⟩
    | result value => exact .here ends
  · exact ⟨leave.2, rfl⟩

end Activation

namespace Piece

variable {piece : Piece} {final : Code} {holes : List Nat} {cell : Nat}

/-- All but the last of the cells that stay are in the final code, and the last is there or open. -/
theorem Completes.settled_le (complete : piece.Completes final holes) :
    piece.settled ≤ final.size + 1 := by
  have known := piece.settled_le
  rcases Nat.eq_zero_or_pos piece.settled with none | positive
  · omega
  have small : piece.settled - 1 < piece.settled := by omega
  have before : ∀ decoded, piece.code[piece.settled - 1 - 1]? = some (.instruction decoded) →
      piece.settled - 1 - 1 < final.size := fun decoded found =>
    (Array.getElem?_eq_some_iff.mp (complete.instruction (by omega) found)).1
  rcases complete.cells _ small with same | ⟨-, decoded, _, found, -⟩ | ⟨decoded, found, -⟩
  · have inside : piece.settled - 1 < piece.code.size := Nat.lt_of_lt_of_le small known
    rw [Array.getElem?_eq_getElem inside] at same
    have last := (Array.getElem?_eq_some_iff.mp same).1
    omega
  · have last := before decoded found
    omega
  · have last := before decoded found
    omega

end Piece

/-- The immediate of a jump leads to its target. -/
theorem Site.distance (site : Site) {target cell : Nat} {value : Cell}
    (near : target ≤ site.code.size + 1)
    (positive : 0 < cell) (there : site.code[cell]? = some value) :
    (target : Int) = cell + (BitVec.ofInt 32 ((target : Int) - cell)).toInt := by
  have inside := (Array.getElem?_eq_some_iff.mp there).1
  have small := site.small
  rw [Scene.toInt_ofInt] <;> omega

namespace Activation

open Generate

variable {act : Activation} {bound : Nat} {gen before after : Generator} {machine : Machine}
  {shown : Shown}

/-- Code starts at a plain machine. -/
theorem Starts.plain (starts : act.Starts gen machine shown) :
    act.site.Plain gen.piece.size machine shown :=
  starts.shows.toPlain (starts.shows.pending_eq_nil starts.at'.empty)

/-- A jump that is fixed leads to where the next statement starts. -/
theorem Starts.landed {cell : Nat} (branch : gen.piece.BranchAt cell)
    (plain : act.site.Plain gen.piece.size machine shown)
    (at' : act.At gen.frame shown) : act.Starts { gen with
      piece := (gen.piece.fixJump cell).1, landing := gen.piece.size } machine shown where
  shows := .ofPlain (Piece.pending_fixJump branch) (Piece.follows_fixJump branch []).bounded
    (by rw [Piece.size_fixJump branch]; exact plain)
  at' := at'
  live := .inl (Piece.settled_fixJump branch).symm

/-- A statement that may jump away may also not. -/
theorem Ends.relax {halts : Bool} {store : Store} {flow : Flow}
    (ends : act.Ends before after halts store machine flow) :
    act.Ends before after false store machine flow := by
  cases flow with
  | next => exact ⟨rfl, ends.2⟩
  | _ => exact ends

/-- The code of a statement that an open jump leads to. -/
theorem Acts.landed {step : Generate Bool} {eval : Eval Flow} (acts : act.Acts bound step eval)
    {skip : Nat} {lines : Array SourceLine} {currentLine : Option Nat} {halts : Bool}
    {inner : Generator}
    (done : step act.context { gen with
      piece := { (gen.piece.fixJump skip).1 with lines, currentLine }
      landing := gen.piece.size } = .done (halts, inner))
    (orderly : gen.Orderly act.environment act.height)
    (branch : gen.piece.BranchAt skip) :
    gen.Moves act.environment act.height [skip] [] inner ∧
      ∀ others, (∀ cell ∈ others, cell < gen.piece.settled) →
        inner.piece.Completes act.site.code (others ++ inner.openExits) →
        gen.piece.size ≤ act.site.code.size + 1 ∧
        (skip ∉ others ++ gen.openExits → act.site.code[skip]? =
          some (.immediate (BitVec.ofInt 32 ((gen.piece.size : Int) - skip)))) ∧
        ∀ machine shown, act.site.Plain gen.piece.size machine shown →
          act.At gen.frame shown →
          machine.Meets act.site.program act.site.settings bound
            (fun flow store last => act.Ends gen inner halts store last flow)
            (eval.run.run (act.store gen shown)) := by
  have lands := orderly.lands branch [] gen.piece.size
  have lined := lands.orderly.lined lines currentLine
  have goes := acts.goes done lined.orderly
  have enters := lands.trans lined
  refine ⟨enters.trans goes, fun others earlier complete => ?_⟩
  have begun := (lined.trans goes).follows.completes _ others complete
  refine ⟨?_, fun closed => Piece.Completes.fixed branch begun closed,
    fun machine shown plain at' => ?_⟩
  · have near := begun.settled_le
    exact Piece.settled_fixJump branch ▸ near
  · refine (acts.meets others done lined.orderly (fun cell mem => ?_) complete
      ((Starts.landed branch plain at').lined lines currentLine)).mono
        fun flow store last ends => ends.from enters halts fun _ => rfl
    exact Nat.lt_of_lt_of_le (earlier cell mem) enters.follows.settled

/-- The code of what follows the body of a choice starts where the jump over the body leads to, and
control goes on behind it from the end of the body. -/
structure Alternates (act : Activation) (bound : Nat) (otherwise : Option Stmt) (eval : Eval Flow) :
    Prop where
  moves : ∀ ⦃skip halts gen later⦄,
    alternative skip halts otherwise act.context gen = .done ((), later) →
    gen.Orderly act.environment act.height → skip < gen.piece.settled →
    gen.piece.BranchAt skip →
    gen.Moves act.environment act.height [skip] [] later ∧
      later.scopes = gen.scopes ∧ later.frame = gen.frame
  meets : ∀ ⦃skip halts gen later⦄ (others : List Nat),
    alternative skip halts otherwise act.context gen = .done ((), later) →
    gen.Orderly act.environment act.height → skip < gen.piece.settled →
    gen.piece.BranchAt skip → (∀ cell ∈ others, cell < gen.piece.settled) →
    skip ∉ others ++ gen.openExits →
    later.piece.Completes act.site.code (others ++ later.openExits) →
    ∃ target : Nat, target ≤ act.site.code.size + 1 ∧ act.site.code[skip]? =
        some (.immediate (BitVec.ofInt 32 ((target : Int) - skip))) ∧
      (∀ machine shown, act.site.Plain target machine shown → act.At gen.frame shown →
        machine.Meets act.site.program act.site.settings bound
          (fun flow store last => act.Ends gen later false store last flow)
          (eval.run.run (act.store gen shown))) ∧
      (halts = false → ∀ machine shown, act.Starts gen machine shown →
        machine.Comes act.site.program act.site.settings fun last =>
          act.Starts later last shown)

/-- A branch without another side just goes on. -/
theorem alternates_none : act.Alternates bound none (return .next) := by
  refine ⟨fun skip halts gen later done orderly small branch => ?_,
    fun skip halts gen later others done orderly small branch earlier closed complete => ?_⟩
  all_goals
    obtain ⟨-, rfl⟩ := Prod.mk.inj (Task.done.inj done)
  · exact ⟨orderly.lands branch [] _, rfl, rfl⟩
  · have settled := Piece.settled_fixJump branch
    have near := complete.settled_le
    refine ⟨gen.piece.size, settled ▸ near, Piece.Completes.fixed branch complete closed,
      fun machine shown plain at' => .here ⟨rfl, shown, .landed branch plain at', rfl⟩,
      fun _ machine shown starts => .here (.landed branch starts.plain starts.at')⟩

/-- The other side of a branch acts as a statement. -/
theorem Acts.alternates {other : Stmt} {eval : Eval Flow} (follows : other.isAlternative)
    (acts : act.Acts bound (statement other) eval) (keeps : act.Keeps (statement other)) :
    act.Alternates bound (some other) eval := by
  have opens : ∀ {gen : Generator}, gen.Orderly act.environment act.height →
      ∀ {skip : Nat}, skip < gen.piece.settled → gen.piece.BranchAt skip →
      gen.Moves act.environment act.height [skip] [gen.piece.size + 1, skip]
        { gen with piece := (gen.piece.emitJump .jump .unused).1 } ∧
      (gen.piece.emitJump .jump .unused).1.BranchAt skip := by
    intro gen orderly skip small branch
    have opened := orderly.opens .jump .unused [skip]
    exact ⟨opened, opened.follows.branches skip small branch⟩
  refine ⟨fun skip halts gen later done orderly small branch => ?_,
    fun skip halts gen later others done orderly small branch earlier closed complete => ?_⟩
  all_goals
    obtain ⟨opened, lines, currentLine, stopped, inner, step, shape⟩ := alternative_done
      follows done
  · rcases shape with ⟨rfl, rfl, rfl⟩ | ⟨rfl, rfl, rfl⟩
    · obtain ⟨moves, -⟩ := acts.landed step orderly branch
      have lined := (orderly.lands branch [] gen.piece.size).orderly.lined lines currentLine
      obtain ⟨scopes, frame⟩ := keeps step lined.orderly
      exact ⟨moves, scopes, frame⟩
    · obtain ⟨first, branch'⟩ := opens orderly small branch
      obtain ⟨moves, -⟩ := acts.landed (by exact step) first.orderly branch'
      have lined := (first.orderly.lands branch' [] (gen.piece.emitJump .jump
        .unused).1.size).orderly.lined
        lines currentLine
      obtain ⟨scopes, frame⟩ := keeps step lined.orderly
      have settled := Piece.settled_emitJump orderly.bounded .jump .unused
      have finish := moves.follows.branches (gen.piece.size + 1) (by rw [settled]; omega)
        (gen.piece.branchAt_emitJump .unused (.inl rfl))
      exact ⟨(first.trans (moves.keep (gen.piece.size + 1))).trans
        (moves.orderly.lands finish [] inner.piece.size), scopes, frame⟩
  · rcases shape with ⟨rfl, rfl, rfl⟩ | ⟨rfl, rfl, rfl⟩
    · obtain ⟨moves, meets⟩ := acts.landed step orderly branch
      obtain ⟨near, imm, meets⟩ := meets others earlier complete
      exact ⟨_, near, imm closed, fun machine shown plain at' =>
        (meets machine shown plain at').mono fun _ _ _ => Ends.relax, fun wrong => by cases wrong⟩
    · obtain ⟨first, branch'⟩ := opens orderly small branch
      obtain ⟨moves, meets⟩ := acts.landed (by exact step) first.orderly branch'
      have settled := Piece.settled_emitJump orderly.bounded .jump .unused
      have below := gen.piece.settled_le
      have finish := moves.follows.branches (gen.piece.size + 1) (by rw [settled]; omega)
        (gen.piece.branchAt_emitJump .unused (.inl rfl))
      have lands := moves.orderly.lands finish [] inner.piece.size
      have inside := lands.follows.completes _ others complete
      obtain ⟨near, imm, meets⟩ := meets ((gen.piece.size + 1) :: others) (fun cell mem => by
          dsimp only
          rcases List.mem_cons.mp mem with rfl | other
          · omega
          · have low := earlier cell other
            omega) (inside.mono fun cell mem => by
          simp only [List.mem_append, List.mem_cons, List.cons_append, List.nil_append] at mem ⊢
          tauto)
      refine ⟨_, near, imm ?_, fun machine shown plain at' => ?_, fun _ machine shown starts => ?_⟩
      · intro mem
        rcases List.mem_cons.mp mem with same | other
        · omega
        · exact closed other
      · refine (meets machine shown plain at').mono fun flow store last ends => ?_
        cases flow with
        | next =>
          obtain ⟨-, reached, starts, rfl⟩ := ends
          exact ⟨rfl, reached, .landed finish starts.plain starts.at', rfl⟩
        | _ => exact (ends.moves (by simp) lands false).from first false fun _ => rfl
      · have opened := (moves.keep (gen.piece.size + 1)).follows.completes _ others inside
        have here := opened.emitted_instruction orderly.bounded
        have there := Piece.Completes.fixed finish complete fun mem => by
          rcases List.mem_append.mp mem with other | exit
          · have low := earlier _ other
            omega
          · rcases moves.fresh _ exit with old | new
            · have low := (orderly.exits _ old).1
              omega
            · dsimp only at new
              omega
        have distance := act.site.distance (Piece.settled_fixJump finish ▸ complete.settled_le)
          (Nat.succ_pos _) there
        have lined := (first.orderly.lands branch' [] (gen.piece.emitJump .jump
          .unused).1.size).orderly.lined
          lines currentLine
        obtain ⟨-, frame⟩ := keeps step lined.orderly
        refine (starts.plain.comes_jump here there distance).mono fun last plain => ?_
        exact .landed finish plain (frame ▸ starts.at')

/-- A jump that is left open leads on, or to its target when the condition does not hold. -/
theorem takes_test {tested : Piece} {holes : List Nat} {target : Nat}
    (shows : act.site.Shows tested machine shown) (at' : act.At gen.frame shown)
    (complete : (tested.emitJump .jumpZero .a).1.Completes act.site.code holes)
    (near : target ≤ act.site.code.size + 1) (there : act.site.code[tested.size + 1]? =
      some (.immediate (BitVec.ofInt 32 ((target : Int) - (tested.size + 1 : Nat))))) :
    machine.Takes act.site.program act.site.settings fun after =>
      if shown.a = 0 then act.site.Plain target after shown
      else act.Starts { gen with piece := (tested.emitJump .jumpZero .a).1 } after shown := by
  have distance := act.site.distance near (Nat.succ_pos _) there
  have plain := shows.toPlain (shows.pending_eq_nil at'.empty)
  refine (plain.takes_jumpZero (complete.emitted_instruction shows.bounded) there distance).mono
    fun after reached => ?_
  split
  · next zero =>
    rw [if_pos zero] at reached
    exact reached
  · next other =>
    rw [if_neg other] at reached
    have grows := Piece.grows_emitImmediate shows.bounded ⟨.jumpZero, .a, .unused, 0⟩ 0
    refine ⟨.ofPlain (tested.pending_emitImmediate shows.bounded _ _) grows.bounded ?_, at',
      Piece.live_emitImmediate shows.bounded 0 _ (by decide)⟩
    dsimp only [Piece.emitJump]
    rw [tested.size_emitImmediate]
    exact reached

/-- A choice runs one of two blocks. -/
theorem acts_branch {test : Expr} {body : Block} {otherwise : Option Stmt}
    {eval others' : Eval Flow}
    (set : act.Set bound) (direct : test.isDirect) (acts : act.Acts bound (block body) eval)
    (keeps : act.Keeps (block body)) (alternates : act.Alternates bound otherwise others')
    (span : Span) : act.Acts bound (statement (.branch span test body otherwise)) (do
        if ← Eval.test (← test.eval act.environment (act.environment.callWithin bound)) then eval
        else others') ∧ act.Keeps (statement (.branch span test body otherwise)) := by
  have parts : ∀ {gen halts later},
      statement (.branch span test body otherwise) act.context gen = .done (halts, later) →
      gen.Orderly act.environment act.height → halts = false ∧ ∃ tested stopped inner,
      condition test act.context gen = .done ((), { gen with piece := tested }) ∧
      gen.piece.Emitted tested ∧
      block body act.context { gen with piece := (tested.emitJump .jumpZero .a).1 } =
        .done (stopped, inner) ∧
      alternative (tested.size + 1) stopped otherwise act.context inner = .done ((), later) ∧
      gen.Goes act.environment act.height { gen with piece := tested } ∧
      ({ gen with piece := tested } : Generator).Moves act.environment act.height []
        [tested.size + 1] { gen with piece := (tested.emitJump .jumpZero .a).1 } ∧
      ({ gen with piece := (tested.emitJump .jumpZero .a).1 } : Generator).Goes act.environment
        act.height inner ∧ (tested.emitJump .jumpZero .a).1.settled = tested.size + 2 ∧
      inner.piece.BranchAt (tested.size + 1) := by
    intro gen halts later done orderly
    obtain ⟨rfl, tested, stopped, inner, one, emitted, two, three⟩ := branch_done done
      orderly.bounded
    have first := (emits_condition test).goes orderly one
    have opened := first.orderly.opens .jumpZero .a []
    have goes := acts.goes two opened.orderly
    have settled := Piece.settled_emitJump emitted.bounded .jumpZero .a
    refine ⟨rfl, tested, stopped, inner, one, emitted, two, three, first, opened, goes, settled, ?_⟩
    exact goes.follows.branches _ (by dsimp only; omega) (tested.branchAt_emitJump .a (.inr rfl))
  refine ⟨⟨fun gen halts later done orderly => ?_,
    fun gen halts later others done orderly earlier complete machine shown starts => ?_⟩,
    fun gen halts later done orderly => ?_⟩
  all_goals
    obtain ⟨rfl, tested, stopped, inner, one, emitted, two, three, first, opened, goes,
      settled, branch⟩ :=
      parts done orderly
    have small : tested.size + 1 < inner.piece.settled := by
      have later := goes.follows.settled
      dsimp only at later
      omega
    obtain ⟨moves, scopes, frame⟩ := alternates.moves three goes.orderly small branch
  · exact first.trans (opened.trans ((goes.keep (tested.size + 1)).trans moves))
  · have behind := moves.follows.completes _ others complete
    have within : inner.piece.Completes act.site.code
        (((tested.size + 1) :: others) ++ inner.openExits) := behind.mono fun cell mem => by
      simp only [List.mem_append, List.mem_cons, List.cons_append, List.nil_append] at mem ⊢
      tauto
    have jumped := (goes.keep (tested.size + 1)).follows.completes _ others behind
    have before := opened.follows.completes _ others jumped
    have below := tested.settled_le
    have grown := emitted.settled
    have inside := goes.follows.settled
    dsimp only at inside
    obtain ⟨target, near, there, arrive, leave⟩ := alternates.meets others three goes.orderly
      small branch
      (fun cell mem => by
        have low := earlier cell mem
        omega) (fun mem => by
        rcases List.mem_append.mp mem with other | exit
        · have low := earlier _ other
          omega
        · rcases goes.fresh _ exit with old | new
          · have low := (orderly.exits _ old).1
            omega
          · dsimp only at new
            omega) complete
    have stands := starts.at'.stands set orderly others
    have runs := Scene.runs_condition _ (Scene.runs_expr test direct set.answers shown stands
      (Nat.le_refl _))
    have eval_eq : (do
        if ← Eval.test (← test.eval act.environment (act.environment.callWithin bound)) then eval
        else others') = (do Eval.test (← test.eval act.environment
          (act.environment.callWithin bound))) >>= fun truth => if truth then eval else
            others' := by
      simp only [bind_assoc]
    rw [eval_eq]
    refine (runs one rfl before starts.shows).bind ?_
    rintro truth _ last ⟨final, shows, rfl, rfl, stack, quiet⟩
    have at' := starts.at'.quiet quiet orderly.frame (stack.trans starts.at'.empty)
    refine .of_comes (takes_test shows at' jumped near there).comes fun after reached => ?_
    obtain ⟨scopes', frame'⟩ := keeps two opened.orderly
    by_cases zero : final.a = 0
    · rw [if_pos zero] at reached
      rw [bne_eq_false_iff_eq.mpr zero, if_neg Bool.false_ne_true]
      have same : act.store inner final = act.store gen final := by
        rw [store, store, scopes']
      have meets := arrive after final reached (frame' ▸ at')
      rw [same] at meets
      exact meets.mono fun flow store last ends =>
        ends.from (first.trans (opened.trans (goes.keep (tested.size + 1)))) false fun _ => rfl
    · rw [if_neg zero] at reached
      rw [bne_iff_ne.mpr zero, if_pos rfl]
      refine (acts.meets ((tested.size + 1) :: others) two opened.orderly (fun cell mem => ?_)
        within
        reached).next fun flow store last ends => ?_
      · dsimp only
        rcases List.mem_cons.mp mem with rfl | other
        · omega
        · have low := earlier cell other
          omega
      · cases flow with
        | next =>
          obtain ⟨rfl, reached, starts, rfl⟩ := ends
          refine (leave rfl last reached starts).mono fun last starts => ⟨rfl, reached, starts, ?_⟩
          rw [Activation.store, Activation.store, scopes]
        | _ =>
          exact .here ((ends.moves (by simp) moves false).from (first.trans opened) false fun _ =>
            rfl)
  · obtain ⟨scopes', frame'⟩ := keeps two opened.orderly
    exact ⟨scopes.trans scopes', frame.trans frame'⟩

end Activation

end TinLang
