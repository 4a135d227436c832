import TinLang.Proofs.Simulation.Evaluation

/-!
# How runs end

A machine that meets an evaluation ends as the evaluation does. What it comes to is where its run
gets to in some number of rounds, and the rounds that it lasts are rounds without an end; in both
cases the stack may overflow before. A run that ended stays ended when it is given more rounds, so
it ends in one way only.
-/
namespace TinLang

/-- Running a program within a bound ends in one way only. -/
theorem Environment.EndsWithin.unique {env : Environment} {main : Function} {bound : Nat}
    {ending other : Ending}
    (ends : env.EndsWithin main bound ending) (ends' : env.EndsWithin main bound other) :
    ending = other := by
  cases ending <;> cases other
  · obtain ⟨_, _, found, rfl, rfl⟩ := ends
    obtain ⟨_, _, found', rfl, rfl⟩ := ends'
    obtain ⟨same, rfl⟩ := Prod.mk.inj (found.symm.trans found')
    cases same
    rfl
  · obtain ⟨_, _, found, -⟩ := ends
    obtain ⟨_, found', -⟩ := ends'
    cases found.symm.trans found'
  · obtain ⟨_, found, -⟩ := ends
    obtain ⟨_, _, found', -⟩ := ends'
    cases found.symm.trans found'
  · obtain ⟨_, found, rfl⟩ := ends
    obtain ⟨_, found', rfl⟩ := ends'
    obtain ⟨-, rfl⟩ := Prod.mk.inj (found.symm.trans found')
    rfl

namespace Machine

variable {prog : Program} {settings : Settings} {goal : Machine → Prop} {machine after : Machine}
  {bound count : Nat}

/-- A run from the machine overflows the stack. -/
def Overruns (prog : Program) (settings : Settings) (machine : Machine) : Prop :=
  ∃ bound after fault, machine.outcome prog settings bound = (after, some (.fault fault)) ∧
    fault.kind = .stackOverflow

/-- A run from the machine ends so, when the program returns a value of a type. -/
def Ends (prog : Program) (settings : Settings) (result : ValueType) (machine : Machine) :
    Ending → Prop
  | .returned words output => ∃ bound after, machine.outcome prog settings bound = (after, none) ∧
      (if result = .void then [] else [after.registers.get slotA]) = words ∧ after.output = output
  | .divided output => ∃ bound after fault,
      machine.outcome prog settings bound = (after, some (.fault fault)) ∧
        fault.kind = .divideByZero ∧ after.output = output

/-- How a run of a program without pointers may stop: the program has returned and given back its
stack, it has divided by zero, its stack has overflowed, or it was given no more steps. -/
inductive StopsSafely (after : Machine) : Option StopReason → Prop where
  | returned (stack : after.registers.get slotSP = BitVec.ofNat 64 after.memory.stackTop)
      (frame : after.registers.get slotBP = BitVec.ofNat 64 after.memory.stackTop) :
        StopsSafely after none
  | fault (fault : Fault) (kind : fault.kind = .divideByZero ∨ fault.kind = .stackOverflow) :
      StopsSafely after (some (.fault fault))
  | limit (limit : Nat) : StopsSafely after (some (.stepLimit limit))
  | unfinished : StopsSafely after (some .unfinished)

/-- A run that stopped stays as it is, given more rounds. -/
theorem outcome_mono (stopped : (machine.outcome prog settings bound).2 ≠ some .unfinished)
    (more : bound ≤ count) :
    machine.outcome prog settings count = machine.outcome prog settings bound := by
  induction bound generalizing machine count with
  | zero => exact absurd rfl stopped
  | succ bound ih =>
    obtain ⟨count, rfl⟩ := Nat.exists_eq_succ_of_ne_zero (show count ≠ 0 by omega)
    cases running : machine.running with
    | false => rw [outcome_ended running, outcome_ended running]
    | true =>
      by_cases limit : 0 < settings.maxSteps ∧ settings.maxSteps ≤ machine.steps
      · rw [outcome_limit running limit, outcome_limit running limit]
      · rcases stepped : machine.step prog settings with ⟨after, _ | fault⟩
        · rw [outcome_step running limit stepped] at stopped ⊢
          rw [outcome_step running limit stepped]
          exact ih stopped (Nat.le_of_succ_le_succ more)
        · rw [outcome_fault running limit stepped, outcome_fault running limit stepped]

/-- Two runs that both stopped have stopped alike. -/
theorem outcome_unique (stopped : (machine.outcome prog settings bound).2 ≠ some .unfinished)
    (stopped' : (machine.outcome prog settings count).2 ≠ some .unfinished) :
    machine.outcome prog settings bound = machine.outcome prog settings count := by
  rcases Nat.le_total bound count with less | less
  · exact (outcome_mono stopped less).symm
  · exact outcome_mono stopped' less

/-- A step that overflows the stack or divides by zero ends the run in a fault. -/
theorem outcome_of_fault (unlimited : settings.maxSteps = 0) (running : machine.running = true)
    {fault : Fault} (stepped : machine.step prog settings = (after, some fault)) :
    machine.outcome prog settings 1 = ({ after with running := false }, some (.fault fault)) :=
  outcome_fault running (by omega) stepped 0

/-- A machine comes to where its run gets to in some rounds. -/
theorem Comes.outcome (unlimited : settings.maxSteps = 0)
    (comes : machine.Comes prog settings goal) :
    machine.Overruns prog settings ∨ ∃ after, goal after ∧ ∃ rounds, ∀ bound,
      machine.outcome prog settings (rounds + bound) = after.outcome prog settings bound := by
  induction comes with
  | here reached => exact .inr ⟨_, reached, 0, fun bound => by rw [Nat.zero_add]⟩
  | step running stepped _ ih =>
    have first := outcome_step running (by omega) stepped
    rcases ih with ⟨bound, last, fault, ended, kind⟩ | ⟨last, reached, rounds, later⟩
    · exact .inl ⟨bound + 1, last, fault, (first bound).trans ended, kind⟩
    · refine .inr ⟨last, reached, rounds + 1, fun bound => ?_⟩
      rw [Nat.add_right_comm, first, later]
  | overflow running overflows =>
    obtain ⟨last, fault, stepped, kind⟩ := overflows
    exact .inl ⟨1, _, fault, outcome_of_fault unlimited running stepped, kind⟩

/-- The rounds that a machine lasts do not end its run. -/
theorem Lasts.outcome (unlimited : settings.maxSteps = 0)
    (lasts : machine.Lasts prog settings count) :
    machine.Overruns prog settings ∨ (machine.outcome prog settings count).2 =
      some .unfinished := by
  induction lasts with
  | zero => exact .inr rfl
  | step running stepped _ ih =>
    have first := outcome_step running (by omega) stepped
    rcases ih with ⟨bound, last, fault, ended, kind⟩ | unfinished
    · exact .inl ⟨bound + 1, last, fault, (first bound).trans ended, kind⟩
    · exact .inr ((congrArg Prod.snd (first _)).trans unfinished)
  | overflow running overflows =>
    obtain ⟨last, fault, stepped, kind⟩ := overflows
    exact .inl ⟨1, _, fault, outcome_of_fault unlimited running stepped, kind⟩

/-- However many rounds it is given, a run from the machine stops safely. -/
def Stopping (prog : Program) (settings : Settings) (machine : Machine) : Prop :=
  ∀ bound, StopsSafely (machine.outcome prog settings bound).1
    (machine.outcome prog settings bound).2

/-- A machine stops at a division by zero or an overflow of the stack. -/
theorem stopping_fault (running : machine.running = true) {fault : Fault}
    (stepped : machine.step prog settings = (after, some fault))
    (kind : fault.kind = .divideByZero ∨ fault.kind = .stackOverflow) :
    Stopping prog settings machine := by
  intro bound
  cases bound with
  | zero => exact .unfinished
  | succ bound =>
    by_cases limit : 0 < settings.maxSteps ∧ settings.maxSteps ≤ machine.steps
    · exact outcome_limit running limit bound ▸ .limit _
    · exact outcome_fault running limit stepped bound ▸ .fault fault kind

/-- A step on the way does not matter, whether it is still taken or not. -/
theorem stopsSafely_step (running : machine.running = true)
    (stepped : machine.step prog settings = (after, none))
    (later : StopsSafely (after.outcome prog settings bound).1
    (after.outcome prog settings bound).2) :
    StopsSafely (machine.outcome prog settings (bound + 1)).1
      (machine.outcome prog settings (bound + 1)).2 := by
  by_cases limit : 0 < settings.maxSteps ∧ settings.maxSteps ≤ machine.steps
  · exact outcome_limit running limit bound ▸ .limit _
  · exact outcome_step running limit stepped bound ▸ later

/-- What comes to a machine that stops will stop. -/
theorem Comes.stopping (comes : machine.Comes prog settings goal)
    (stops : ∀ after, goal after → Stopping prog settings after) :
    Stopping prog settings machine := by
  induction comes with
  | here reached => exact stops _ reached
  | step running stepped _ ih =>
    intro bound
    cases bound with
    | zero => exact .unfinished
    | succ bound => exact stopsSafely_step running stepped (ih bound)
  | overflow running overflows =>
    obtain ⟨last, fault, stepped, kind⟩ := overflows
    exact stopping_fault running stepped (.inr kind)

/-- A run that lasts ends as it may. -/
theorem Lasts.stopsSafely (lasts : machine.Lasts prog settings count) :
    StopsSafely (machine.outcome prog settings count).1 (machine.outcome prog settings
      count).2 := by
  induction lasts with
  | zero => exact .unfinished
  | step running stepped _ ih => exact stopsSafely_step running stepped ih
  | overflow running overflows =>
    obtain ⟨last, fault, stepped, kind⟩ := overflows
    exact stopping_fault running stepped (.inr kind) _

/-- A machine that meets an evaluation stops safely if it does where the evaluation ends. -/
theorem Meets.stopsSafely {α : Type} {goal : α → Store → Machine → Prop}
    {result : Except Stop α × Store}
    (meets : machine.Meets prog settings bound goal result)
    (stops : ∀ value store last, goal value store last → Stopping prog settings last) :
    StopsSafely (machine.outcome prog settings bound).1 (machine.outcome prog settings
      bound).2 := by
  rcases result with ⟨stop | value, store⟩
  · cases stop with
    | divided =>
      refine Comes.stopping meets (fun last ends => ?_) bound
      obtain ⟨⟨running, after, fault, stepped, kind, -⟩, -⟩ := ends
      exact stopping_fault running stepped (.inl kind)
    | unfinished => exact Lasts.stopsSafely meets
    | stuck => exact Comes.stopping meets (fun _ => False.elim) bound
  · exact Comes.stopping meets (stops value store) bound

/-- A run ends in one way only. -/
theorem Ends.unique {result : ValueType} {ending other : Ending}
    (ends : machine.Ends prog settings result ending) (ends' : machine.Ends prog settings
    result other) :
    ending = other := by
  have same : ∀ {bound count : Nat} {after last : Machine} {reason reason' : Option StopReason},
      machine.outcome prog settings bound = (after, reason) → reason ≠ some .unfinished →
      machine.outcome prog settings count = (last, reason') → reason' ≠ some .unfinished →
      after = last ∧ reason = reason' := by
    intro bound count after last reason reason' first stopped second stopped'
    have alike := @outcome_unique prog settings machine bound count (by rwa [first])
      (by rwa [second])
    rw [first, second] at alike
    exact Prod.mk.inj alike
  cases ending <;> cases other
  · obtain ⟨_, after, run, rfl, rfl⟩ := ends
    obtain ⟨_, last, run', rfl, rfl⟩ := ends'
    obtain ⟨rfl, -⟩ := same run nofun run' nofun
    rfl
  · obtain ⟨_, after, run, -⟩ := ends
    obtain ⟨_, last, fault, run', -⟩ := ends'
    cases (same run nofun run' nofun).2
  · obtain ⟨_, after, fault, run, -⟩ := ends
    obtain ⟨_, last, run', -⟩ := ends'
    cases (same run nofun run' nofun).2
  · obtain ⟨_, after, fault, run, -, rfl⟩ := ends
    obtain ⟨_, last, fault', run', -, rfl⟩ := ends'
    obtain ⟨rfl, -⟩ := same run nofun run' nofun
    rfl

/-- A run that ends has stopped. -/
theorem Ends.stopped {result : ValueType} {ending : Ending} (ends : machine.Ends prog settings
    result ending) :
    ∃ bound, (machine.outcome prog settings bound).2 ≠ some .unfinished := by
  cases ending with
  | returned =>
    obtain ⟨bound, _, run, -⟩ := ends
    exact ⟨bound, run ▸ nofun⟩
  | divided =>
    obtain ⟨bound, _, _, run, -⟩ := ends
    exact ⟨bound, run ▸ nofun⟩

/-- A run and a program end alike, and the run ends in no other way. -/
structure EndsAs (prog : Program) (settings : Settings) (machine : Machine) (env : Environment)
    (main : Function) : Prop where
  endings : ∀ ending, machine.Ends prog settings main.result ending ↔ env.Ends main ending
  only : ∀ bound, (machine.outcome prog settings bound).2 ≠ some .unfinished →
    ∃ ending, machine.Ends prog settings main.result ending

/-- A machine has ended with a value. -/
structure Ended (value : Value) (output : Array UInt8) (machine : Machine) : Prop where
  running : machine.running = false
  stack : machine.registers.get slotSP = BitVec.ofNat 64 machine.memory.stackTop
  frame : machine.registers.get slotBP = BitVec.ofNat 64 machine.memory.stackTop
  output : machine.output = output
  result : ∀ word, value.words = [word] → machine.registers.get slotA = word

/-- A machine that has ended stops. -/
theorem Ended.stopping {value : Value} {output : Array UInt8} (ended : machine.Ended value output) :
    Stopping prog settings machine := by
  intro bound
  cases bound with
  | zero => exact .unfinished
  | succ bound => exact outcome_ended ended.running bound ▸ .returned ended.stack ended.frame

section

variable {env : Environment} {main : Function} {value : Value} {store : Store}

/-- What a run comes to within the bound of an evaluation of its program. -/
theorem Meets.outcome (unlimited : settings.maxSteps = 0)
    (meets : machine.Meets prog settings bound (fun value store last => last.Ended value
    store.output ∧
      value.words.length = if main.result = .void then 0 else 1) (env.outcome main bound)) :
    machine.Overruns prog settings ∨
      (∃ ending, machine.Ends prog settings main.result ending ∧ env.EndsWithin main bound ending) ∨
      ((∀ ending, ¬ env.EndsWithin main bound ending) ∧
        (machine.outcome prog settings bound).2 = some .unfinished) := by
  rcases found : env.outcome main bound with ⟨stop | value, store⟩ <;> rw [found] at meets
  · cases stop with
    | divided =>
      refine (Comes.outcome unlimited meets).imp_right fun ⟨last, ⟨divides, output⟩, rounds, run⟩ =>
        .inl ?_
      obtain ⟨running, after, fault, stepped, kind, same⟩ := divides
      exact ⟨.divided store.output, ⟨rounds + 1, _, fault, (run 1).trans (outcome_of_fault unlimited
        running stepped),
        kind, same.trans output⟩, store, found, rfl⟩
    | unfinished =>
      refine (Lasts.outcome unlimited meets).imp_right fun unfinished => .inr ⟨fun ending ends =>
        ?_, unfinished⟩
      cases ending with
      | returned =>
        obtain ⟨_, _, other, -⟩ := ends
        cases found.symm.trans other
      | divided =>
        obtain ⟨_, other, -⟩ := ends
        cases found.symm.trans other
    | stuck => exact (Comes.outcome unlimited meets).imp_right fun ⟨_, reached, _⟩ => reached.elim
  · refine (Comes.outcome unlimited meets).imp_right fun ⟨last, ⟨ended, count⟩, rounds, run⟩ =>
      .inl ?_
    refine ⟨.returned value.words store.output, ⟨rounds + 1, last, (run 1).trans
      (outcome_ended ended.running 0), ?_,
      ended.output⟩, value, store, found, rfl, rfl⟩
    split at count
    · next void => rw [if_pos void, List.length_eq_zero_iff.mp count]
    · next some =>
      obtain ⟨word, single⟩ := List.length_eq_one_iff.mp count
      rw [if_neg some, single, ended.result word single]

/-- A machine that meets every evaluation of its program ends as the program does, unless its stack
overflows. -/
theorem endsAs_of_meets (unlimited : settings.maxSteps = 0)
    (meets : ∀ bound, machine.Meets prog settings bound (fun value store last =>
      last.Ended value store.output ∧
      value.words.length = if main.result = .void then 0 else 1) (env.outcome main bound)) :
    machine.Overruns prog settings ∨ machine.EndsAs prog settings env main := by
  refine Classical.or_iff_not_imp_left.mpr fun never => ?_
  have each := fun bound => (Meets.outcome unlimited (meets bound)).resolve_left never
  refine ⟨fun ending => ⟨fun ends => ?_, fun ⟨bound, ends⟩ => ?_⟩, fun bound stopped => ?_⟩
  · obtain ⟨bound, stopped⟩ := ends.stopped
    rcases each bound with ⟨other, ends', within⟩ | ⟨-, unfinished⟩
    · exact ⟨bound, ends.unique ends' ▸ within⟩
    · exact absurd unfinished stopped
  · rcases each bound with ⟨other, ends', within⟩ | ⟨none, -⟩
    · exact ends.unique within ▸ ends'
    · exact absurd ends (none ending)
  · rcases each bound with ⟨other, ends, -⟩ | ⟨-, unfinished⟩
    · exact ⟨other, ends⟩
    · exact absurd unfinished stopped

end

end Machine

end TinLang
