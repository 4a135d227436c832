import Mathlib.Data.List.TakeWhile
import TinLang.Machine.Session
import TinLang.Proofs.Machine.Footprint

/-!
# Watched runs

A watcher looks at a run and may stop it. A session with a trace, a profile and a stepper never
does as long as the stepper can read its commands, so the run comes to the machine and the end of
one that nobody watches, at whatever cells and addresses the guest has driven its registers. The
profile meets every executed instruction and every completed call once: its totals are the steps
of the machine and the calls into the pieces of each name.
-/
namespace TinLang

variable {fetched : Fetched} {width : Nat}

/-- Every stretch of a text without a line end fits into the buffer of a line reader. -/
def Text.LinesFit (text : Text) : Prop :=
  ∀ before line after, text = before ++ line ++ after → byte '\n' ∉ line → line.length < lineBuffer

namespace Text.LinesFit

variable {text : Text}

theorem drop (fit : text.LinesFit) (count : Nat) : LinesFit (text.drop count) := by
  intro before line after parts free
  refine fit (text.take count ++ before) line after ?_ free
  rw [List.append_assoc, List.append_assoc, ← List.append_assoc before, ← parts,
    List.take_append_drop]

/-- A reader gets a line or meets the end, and what it leaves fits as well. -/
theorem nextLine? (fit : text.LinesFit) : ∃ found, text.nextLine? = .ok found ∧
    ∀ line rest, found = some (line, rest) → LinesFit rest := by
  cases text with
  | nil => exact ⟨none, rfl, fun _ _ none => by simp at none⟩
  | cons first text =>
    have free : byte '\n' ∉ (first :: text).takeWhile (· != byte '\n') := fun mem => by
      simpa using List.mem_takeWhile_imp mem
    have short := fit [] ((first :: text).takeWhile (· != byte '\n'))
      ((first :: text).dropWhile (· != byte '\n'))
      (by rw [List.nil_append, List.takeWhile_append_dropWhile]) free
    refine ⟨_, by rw [Text.nextLine?, if_neg (Nat.not_le.mpr short)], ?_⟩
    intro line rest found
    obtain ⟨-, rfl⟩ := Prod.mk.inj (Option.some.inj found)
    exact fit.drop _

end Text.LinesFit

/-- A line that is read is used up. -/
theorem Text.length_of_nextLine? {text line rest : Text}
    (read : text.nextLine? = .ok (some (line, rest))) : rest.length < text.length := by
  unfold Text.nextLine? at read
  split at read
  · cases read
  · next first others =>
    dsimp only at read
    split at read
    · cases read
    · obtain ⟨-, rfl⟩ := Prod.mk.inj (Option.some.inj (Except.ok.inj read))
      rw [List.length_drop, List.length_cons]
      omega

/-- A text that is shorter than the buffer has no line that is too long. -/
theorem Text.linesFit_of_short {text : Text} (short : text.length < lineBuffer) :
    text.LinesFit := by
  rintro before line after rfl -
  rw [List.length_append, List.length_append] at short
  omega

namespace Stepper

variable {prog : Program} {machine : Machine} {stepper : Stepper}

/-- A stepper that can read its commands meets no error, and can read what is left of them. -/
theorem converse_fit (fit : stepper.input.LinesFit) (bound : Nat) :
    (stepper.converse prog machine bound).2.2 = none ∧
      (stepper.converse prog machine bound).1.input.LinesFit := by
  induction bound generalizing stepper with
  | zero => exact ⟨rfl, fit⟩
  | succ bound ih =>
    obtain ⟨found, read, later⟩ := fit.nextLine?
    cases found with
    | none =>
      rw [converse, read]
      exact ⟨rfl, fit⟩
    | some found =>
      obtain ⟨line, rest⟩ := found
      have fit' := later line rest rfl
      have goesOn : ({ stepper with input := rest } : Stepper).input.LinesFit := fit'
      rw [converse, read]
      dsimp only
      cases StepCommand.ofLine line with
      | advance => exact ⟨rfl, fit'⟩
      | resume => exact ⟨rfl, fit'⟩
      | showRegisters => exact ih goesOn
      | showFrame => exact ih goesOn
      | showStack => exact ih goesOn
      | help => exact ih goesOn
      | unknown text => exact ih goesOn

/-- A bound above the length of the input lets a stepper read all its commands. -/
theorem converse_succ {bound : Nat} (enough : stepper.input.length < bound) :
    stepper.converse prog machine (bound + 1) = stepper.converse prog machine bound := by
  induction bound generalizing stepper with
  | zero => exact absurd enough (Nat.not_lt_zero _)
  | succ bound ih =>
    rw [converse]
    conv_rhs => rw [converse]
    cases read : stepper.input.nextLine? with
    | error long => rfl
    | ok found =>
      cases found with
      | none => rfl
      | some found =>
        have shorter := Text.length_of_nextLine? read
        dsimp only
        rw [@ih { stepper with input := found.2 } (by dsimp only; omega)]

/-- No bound above the length of the input changes what a stepper reads and shows. -/
theorem converse_of_le {bound : Nat} (enough : stepper.input.length + 1 ≤ bound) :
    stepper.converse prog machine bound =
      stepper.converse prog machine (stepper.input.length + 1) := by
  induction bound, enough using Nat.le_induction with
  | base => rfl
  | succ bound more ih => rw [converse_succ more, ih]

theorem before_fit (fit : stepper.input.LinesFit) :
    (stepper.before prog machine).2.2 = none ∧
      (stepper.before prog machine).1.input.LinesFit := by
  by_cases going : stepper.going
  · rw [before, if_pos going]
    exact ⟨rfl, fit⟩
  · rw [before, if_neg going]
    exact converse_fit fit _

end Stepper

/-- A range that can be read stands above the base of the stack and ends below `2 ^ 64`. -/
theorem Memory.Laid.place_of_load? {memory : Memory} {count addr : Nat} {size : AccessSize}
    {word : Word} (laid : memory.Laid count) (few : count ≤ Heap.mostRequests)
    (loaded : memory.load? addr size = some word) :
    stackBase ≤ addr ∧ addr + size.bytes < 2 ^ 64 := by
  obtain ⟨bytes, read, -⟩ := Option.map_eq_some_iff.mp loaded
  have inside : memory.addressable addr size.bytes = true := by
    by_contra outside
    rw [read?, if_neg outside] at read
    cases read
  obtain ⟨-, region, mem, low, high⟩ := (laid.addressable_iff _ _).mp inside
  have bounds : stackBase ≤ region.base ∧ region.base + region.size < 2 ^ 64 := by
    have stack := laid.stack
    have data := laid.data
    have next := laid.heap.addresses
    have most := Nat.mul_le_mul_right (Heap.largestRequest + 31) few
    unfold maxStackSize stackBase dataBase Heap.base Heap.largestRequest Heap.mostRequests at *
    rcases List.mem_cons.mp mem with rfl | mem
    · dsimp only
      unfold stackBase
      omega
    rcases List.mem_cons.mp mem with rfl | mem
    · dsimp only
      unfold dataBase
      omega
    obtain ⟨block, live, rfl⟩ := List.mem_map.mp mem
    obtain ⟨found, size⟩ := laid.heap.mem_live.mp live
    have placed := (laid.heap.placed _ found).1
    have below := laid.heap.below _ found
    unfold Heap.base at placed
    dsimp only
    omega
  rw [Int.toNat_natCast] at high
  omega

namespace Machine

variable {machine : Machine} {count bound stop : Nat} {addr : Word}

/-- A bound that covers the words below a place shows all of them that can be read. -/
theorem dumpWords_succ (laid : machine.memory.Laid count) (few : count ≤ Heap.mostRequests)
    (enough : Memory.stackBase ≤ addr.toNat → stop ≤ addr.toNat + 8 * bound) :
    machine.dumpWords (bound + 1) addr stop = machine.dumpWords bound addr stop := by
  induction bound generalizing addr with
  | zero =>
    rw [dumpWords, dumpWords]
    split
    · rfl
    · next short =>
      split
      · rfl
      · next word loaded =>
        obtain ⟨low, high⟩ := laid.place_of_load? few loaded
        have sum : (addr + 8).toNat = addr.toNat + 8 :=
          BitVec.toNat_add_of_lt (by exact high)
        have covered := enough low
        omega
  | succ bound ih =>
    rw [dumpWords]
    conv_rhs => rw [dumpWords]
    split
    · rfl
    · cases loaded : machine.memory.load? addr.toNat .eight with
      | none => rfl
      | some word =>
        obtain ⟨low, high⟩ := laid.place_of_load? few loaded
        have sum : (addr + 8).toNat = addr.toNat + 8 :=
          BitVec.toNat_add_of_lt (by exact high)
        have covered := enough low
        dsimp only
        rw [ih fun _ => by omega]

/-- No larger bound changes what is shown of the stack. -/
theorem dumpWords_of_le (laid : machine.memory.Laid count) (few : count ≤ Heap.mostRequests)
    (below : stop ≤ machine.memory.stackTop) (enough : machine.wordBound ≤ bound) :
    machine.dumpWords bound addr stop = machine.dumpWords machine.wordBound addr stop := by
  induction bound, enough using Nat.le_induction with
  | base => rfl
  | succ bound more ih =>
    rw [dumpWords_succ laid few fun low => ?_, ih]
    unfold wordBound at more
    unfold Memory.stackTop at below
    omega

end Machine

/-- In states with some property a watcher stops no run and stays in such states. -/
structure Watcher.LetsRun {σ : Type} (watcher : Watcher σ) (quiet : σ → Prop) : Prop where
  before : ∀ machine seen, quiet seen →
    (watcher.before machine seen).2 = .none ∧ quiet (watcher.before machine seen).1
  executed : ∀ machine fetched completed seen, quiet seen →
    quiet (watcher.executed machine fetched completed seen)

namespace Machine

variable {prog : Program} {settings : Settings}

/-- A run whose watcher lets it go on is the run that nobody watches. -/
theorem runWithin_eq_outcome {σ : Type} {watcher : Watcher σ} {quiet : σ → Prop}
    (lets : watcher.LetsRun quiet) (bound : Nat) (machine : Machine) {seen : σ}
    (calm : quiet seen) :
    ((machine.runWithin prog settings watcher bound seen).1,
      (machine.runWithin prog settings watcher bound seen).2.1) =
      outcome prog settings bound machine := by
  induction bound generalizing machine seen with
  | zero => rfl
  | succ bound ih =>
    by_cases running : machine.running
    · by_cases limit : 0 < settings.maxSteps ∧ settings.maxSteps ≤ machine.steps
      · rw [outcome_limit running limit]
        simp only [runWithin, running, limit, and_self, ↓reduceIte]
      · obtain ⟨silent, calm'⟩ := lets.before machine seen calm
        cases looked : watcher.before machine seen with
        | mk seen' message =>
        rw [looked] at silent calm'
        obtain rfl : message = none := silent
        cases stepped : machine.step prog settings with
        | mk after fault =>
        cases fetches : machine.fetch prog with
        | mk width fetched =>
        cases fault with
        | some fault =>
          rw [outcome_fault running limit stepped]
          simp only [runWithin, running, limit, ↓reduceIte, looked, stepped]
        | none =>
          rw [outcome_step running limit stepped]
          cases fetched with
          | error cause =>
            simp only [runWithin, running, limit, ↓reduceIte, looked, stepped, fetches]
            exact ih after calm'
          | ok fetched =>
            simp only [runWithin, running, limit, ↓reduceIte, looked, stepped, fetches]
            exact ih after (lets.executed _ _ _ _ calm')
    · have ended : machine.running = false := by simpa using running
      rw [outcome_ended ended]
      simp only [runWithin, ended, Bool.false_eq_true, ↓reduceIte]

/-- Run a program from its main piece with nobody watching. -/
def runAlone (prog : Program) (settings : Settings) (files : FileSystem) :
    Except StartError (Machine × Option StopReason) := do
  let machine ← start? prog settings files
  let (after, reason, _) := machine.run prog settings .none ()
  return (after, reason)

end Machine

namespace Session

/-- A session stops no run by itself: no stop after a number of instructions is set, and the
stepper can read its commands. -/
structure Quiet (session : Session) : Prop where
  unlimited : session.allowance = none
  legible : ∀ stepper, session.stepper = some stepper → stepper.input.LinesFit

variable {prog : Program} {settings : Settings} {session : Session}

/-- Before a step a quiet session changes the state of its stepper at most. -/
theorem Quiet.before (quiet : session.Quiet) (machine : Machine) :
    (session.before prog machine).2 = none ∧ (session.before prog machine).1.Quiet ∧
      (session.before prog machine).1.profile = session.profile := by
  have unlimited := quiet.unlimited
  cases present : session.stepper with
  | none =>
    simp only [Session.before, present, unlimited]
    exact ⟨trivial, quiet, trivial⟩
  | some stepper =>
    obtain ⟨silent, fit⟩ : (stepper.before prog machine).2.2 = none ∧
        (stepper.before prog machine).1.input.LinesFit :=
      Stepper.before_fit (quiet.legible stepper present)
    simp only [Session.before, present]
    refine ⟨silent, ⟨unlimited, ?_⟩, trivial⟩
    rintro _ ⟨⟩
    exact fit

theorem Quiet.executed (quiet : session.Quiet) (machine : Machine) (fetched : Fetched)
    (completed : Bool) : (session.executed prog machine fetched completed).Quiet :=
  ⟨quiet.unlimited, quiet.legible⟩

theorem letsRun : (watcher prog).LetsRun Quiet where
  before machine _ quiet := ⟨(quiet.before machine).1, (quiet.before machine).2.1⟩
  executed machine fetched completed _ quiet := quiet.executed machine fetched completed

end Session

/-- Every opcode in the pieces of a program is defined. -/
def Program.OpcodesDefined (prog : Program) : Prop :=
  ∀ piece ∈ prog.pieces, ∀ (cell : Nat) instr,
    piece.code[cell]? = some (.instruction instr) → instr.op.isDefined

namespace Profile

variable {profile : Profile}

/-- One more in one place is one more in the sum. -/
theorem sum_modify {counts : List Nat} {index : Nat} (inside : index < counts.length) :
    (counts.modify index (· + 1)).foldr (· + ·) 0 = counts.foldr (· + ·) 0 + 1 := by
  induction counts generalizing index with
  | nil => simp at inside
  | cons count counts ih =>
    cases index with
    | zero =>
      rw [List.modify_zero_cons, List.foldr_cons, List.foldr_cons]
      omega
    | succ index =>
      rw [List.modify_succ_cons, List.foldr_cons, List.foldr_cons, ih (by simpa using inside)]
      omega

theorem code_lt {op : Opcode} (defined : op.isDefined) : op.code.toNat < 31 := by
  cases op with
  | undefined excess => simp [Opcode.isDefined] at defined
  | _ => decide

/-- A defined opcode has its place among the counts. -/
theorem instructionTotal_countInstruction (full : profile.instructions.size = 31) {op : Opcode}
    (defined : op.isDefined) :
    (profile.countInstruction op).instructionTotal = profile.instructionTotal + 1 := by
  rw [countInstruction, instructionTotal, instructionTotal, Array.toList_modify]
  refine sum_modify ?_
  rw [Array.length_toList, full]
  exact code_lt defined

/-- The count that a call of a name finds. -/
def previous (profile : Profile) (name : Text) : CallCount :=
  (profile.calls.find? fun count => count.name == name).getD ⟨name, 0, false⟩

theorem previous_name (profile : Profile) (name : Text) : (profile.previous name).name = name := by
  rw [previous]
  cases found : profile.calls.find? fun count => count.name == name with
  | none => rfl
  | some count => simpa using List.find?_some found

theorem previous_calls (profile : Profile) (name : Text) :
    (profile.previous name).calls = profile.callCount name := by
  rw [previous, callCount]
  cases profile.calls.find? fun count => count.name == name <;> rfl

/-- A count put in the place of those of its name is found in the place of the first. -/
theorem find?_replaced (counts : List CallCount) {current : CallCount} {called : Text}
    (named : current.name = called) (name : Text) :
    (counts.map fun count => if count.name == called then current else count).find?
        (fun count => count.name == name) =
      (counts.find? fun count => count.name == name).map fun count =>
        if count.name == called then current else count := by
  have kept : ∀ count : CallCount,
      (if count.name == called then current else count).name = count.name := by
    intro count
    split
    · next same => rw [named, ← eq_of_beq same]
    · rfl
  have tested : ((fun count : CallCount => count.name == name) ∘ fun count : CallCount =>
      if count.name == called then current else count) = fun count => count.name == name := by
    funext count
    simp only [Function.comp_apply, kept]
  rw [List.find?_map, tested]

/-- A call counts for its name alone. -/
theorem callCount_countCall (profile : Profile) (called name : Text) :
    (profile.countCall called).1.callCount name =
      profile.callCount name + if called = name then 1 else 0 := by
  have named : (profile.bump (profile.previous called)).name = called :=
    profile.previous_name called
  have counted : (profile.bump (profile.previous called)).calls = profile.callCount called + 1 := by
    rw [← profile.previous_calls called]
    rfl
  have calls : (profile.countCall called).1.calls =
      if profile.calls.any fun count => count.name == called then
        profile.calls.map fun count =>
          if count.name == called then profile.bump (profile.previous called) else count
      else profile.calls ++ [profile.bump (profile.previous called)] := rfl
  rw [callCount, calls]
  split
  · next known =>
    rw [find?_replaced _ named, callCount]
    cases found : profile.calls.find? fun count => count.name == name with
    | none =>
      have differ : called ≠ name := by
        rintro rfl
        simp at found known
        obtain ⟨count, mem, same⟩ := known
        exact found count mem same
      simp [differ]
    | some count =>
      have same : count.name = name := by simpa using List.find?_some found
      by_cases hit : called = name
      · subst hit
        simp [same, counted, callCount, found]
      · simp [same, hit, Ne.symm hit]
  · next unknown =>
    have absent : profile.calls.find? (fun count => count.name == called) = none := by
      simpa using unknown
    rw [List.find?_append, callCount]
    by_cases hit : called = name
    · subst hit
      simp [absent, named, counted, callCount]
    · simp [named, hit]

end Profile

namespace Machine

variable {α β : Type} {prog : Program} {settings : Settings} {machine after : Machine}

/-- The steps that complete in a run of at most some rounds: the machines before and after. -/
def stepsWithin (prog : Program) (settings : Settings) :
    (bound : Nat) → Machine → List (Machine × Machine)
  | 0, _ => []
  | bound + 1, machine =>
    if machine.running then
      if 0 < settings.maxSteps ∧ settings.maxSteps ≤ machine.steps then []
      else
        match machine.step prog settings with
        | (after, none) => (machine, after) :: stepsWithin prog settings bound after
        | (_, some _) => []
    else []

/-- A step executes a call of a user function, into a piece with some name. -/
def entersNamed (prog : Program) (name : Text) (machine after : Machine) : Bool :=
  match machine.fetch prog with
  | (_, .ok fetched) =>
    decide (fetched.instruction.op = .call ∧ 0 < fetched.immediate.toInt ∧
      (prog.pieces[after.piece]?).map Piece.name = some name)
  | (_, .error _) => false

/-- The steps that complete in a run of a program that nobody watches. -/
def completedSteps (prog : Program) (settings : Settings) (files : FileSystem) :
    List (Machine × Machine) :=
  match start? prog settings files with
  | .ok start =>
    start.stepsWithin prog settings
      (if settings.maxSteps = 0 then endless else settings.maxSteps + 2)
  | .error _ => []

/-- Where an operation completes, it leaves the machine in some piece. -/
def EndsIn (index : Nat) (action : Exec α) : Prop :=
  ∀ machine value after, action.run.run machine = (.ok value, after) → after.piece = index

theorem EndsIn.bind {index : Nat} {first : Exec α} {next : α → Exec β}
    (ends : ∀ value, EndsIn index (next value)) : EndsIn index (first >>= next) := by
  intro machine value after done
  obtain ⟨found, between, -, later⟩ := run_bind_ok.mp done
  exact ends found between value after later

theorem endsIn_callPiece (index : Nat) (callee : Piece) :
    EndsIn index (callPiece index callee) := by
  have entered : EndsIn index (modify fun machine => { machine with piece := index } :
    Exec Unit) := by
    intro machine value after done
    obtain ⟨-, rfl⟩ := Prod.mk.inj (run_modify _ machine ▸ done)
    rfl
  refine .bind fun pointer => ?_
  split
  · intro machine value after done
    rw [run_bind, run_throw] at done
    cases done
  · exact .bind fun _ => .bind fun _ => .bind fun _ => .bind fun _ => .bind fun _ =>
      .bind fun _ => .bind fun _ => .bind fun _ => .bind fun _ => entered

/-- A step that fetches an instruction counts it, whatever the instruction comes to. -/
theorem steps_of_fetched (inside : machine.piece < prog.pieces.size)
    (fetches : machine.fetch prog = (width, .ok fetched)) :
    (machine.step prog settings).1.steps = machine.steps + 1 := by
  have counted := (confines_execute settings fetched (machine.fetched width) inside).2.2
  cases ran : (execute prog settings fetched).run.run (machine.fetched width) with
  | mk result after =>
    rw [ran] at counted
    cases result with
    | ok value =>
      rw [step_completes fetches ran]
      exact counted.1
    | error cause =>
      rw [step_faults fetches ran]
      exact counted.1

theorem steps_start {files : FileSystem} {start : Machine}
    (started : start? prog settings files = .ok start) : start.steps = 0 := by
  unfold start? at started
  split at started
  · split at started
    · contradiction
    · split at started
      · contradiction
      · obtain rfl := Except.ok.inj started
        rfl
  · contradiction

/-- A step that fetches nothing ends in a fault and is not counted. -/
theorem step_of_refused {cause : FaultCause}
    (refused : machine.fetch prog = (width, .error cause)) :
    (machine.step prog settings).2.isSome ∧
      (machine.step prog settings).1.steps = machine.steps := by
  unfold step
  rw [refused]
  exact ⟨rfl, rfl⟩

/-- A call that completes leads into the piece that its immediate names. -/
theorem entersNamed_eq
    (fetches : machine.fetch prog = (width, .ok fetched))
    (stepped : machine.step prog settings = (after, none)) (name : Text) :
    entersNamed prog name machine after =
      decide (Session.callee? prog fetched = some name) := by
  rw [entersNamed, fetches, Session.callee?]
  by_cases calls : fetched.instruction.op = .call ∧ 0 < fetched.immediate.toInt
  · obtain ⟨call, positive⟩ := calls
    obtain ⟨width', fetched', moved, fetches', -, -, executed⟩ := executed_of_step stepped
    obtain ⟨-, same⟩ := Prod.mk.inj (fetches.symm.trans fetches')
    obtain rfl := Except.ok.inj same
    unfold execute at executed
    rw [call] at executed
    dsimp only [Machine.call] at executed
    rw [if_neg (by omega), if_neg (by omega)] at executed
    cases found : prog.pieces[(fetched.immediate.toInt - 1).toNat]? with
    | none =>
      rw [found] at executed
      cases executed
    | some callee =>
      rw [found] at executed
      have entered := endsIn_callPiece _ _ _ _ _ executed
      simp only [call, positive, and_self, true_and, ↓reduceIte, entered, found]
  · rw [if_neg calls]
    simp only [reduceCtorEq, decide_false, decide_eq_false_iff_not]
    exact fun ⟨call, positive, _⟩ => calls ⟨call, positive⟩

end Machine

namespace Session

variable {prog : Program} {settings : Settings} {session : Session}

theorem size_count (fetched : Fetched) (completed : Bool) (profile : Profile) :
    (count prog fetched completed profile).instructions.size = profile.instructions.size := by
  have counted : (profile.countInstruction fetched.instruction.op).instructions.size =
      profile.instructions.size := Array.size_modify
  unfold count
  split
  · split
    · exact counted
    · exact counted
  · exact counted

theorem instructionTotal_count {profile : Profile} (full : profile.instructions.size = 31)
    (defined : fetched.instruction.op.isDefined) (completed : Bool) :
    (count prog fetched completed profile).instructionTotal = profile.instructionTotal + 1 := by
  have counted := Profile.instructionTotal_countInstruction full defined
  unfold count
  split
  · split
    · exact counted
    · exact counted
  · exact counted

theorem callCount_count (fetched : Fetched) (completed : Bool) (profile : Profile) (name : Text) :
    (count prog fetched completed profile).callCount name = profile.callCount name +
      if completed = true ∧ callee? prog fetched = some name then 1 else 0 := by
  unfold count
  cases callee? prog fetched with
  | none => simp [Profile.callCount, Profile.countInstruction]
  | some called =>
    cases completed with
    | false => simp [Profile.callCount, Profile.countInstruction]
    | true =>
      have added := Profile.callCount_countCall
        (profile.countInstruction fetched.instruction.op) called name
      have same : (profile.countInstruction fetched.instruction.op).callCount name =
          profile.callCount name := rfl
      simpa [same] using added

/-- What a session has counted of an executed instruction: one step, and one call for the name of
the piece that a completed call leads to. -/
structure Counts (prog : Program) (settings : Settings) (machine : Machine) (fetched : Fetched)
    (completed : Bool) (profile counted : Profile) : Prop where
  full : counted.instructions.size = 31
  total : counted.instructionTotal = profile.instructionTotal + 1
  steps : (machine.step prog settings).1.steps = machine.steps + 1
  calls : ∀ name, counted.callCount name = profile.callCount name +
    if completed = true ∧ callee? prog fetched = some name then 1 else 0

theorem counts_executed (defined : prog.OpcodesDefined) {profile : Profile}
    (full : profile.instructions.size = 31) {machine : Machine}
    (inside : machine.piece < prog.pieces.size)
    (fetches : machine.fetch prog = (width, .ok fetched)) (completed : Bool) :
    Counts prog settings machine fetched completed profile
      (count prog fetched completed profile) := by
  obtain ⟨-, piece, mem, cell, there⟩ := Machine.fetched_spec fetches
  have known : fetched.instruction.op.isDefined := defined piece mem cell _ there
  exact ⟨(size_count _ _ _).trans full, instructionTotal_count full known completed,
    Machine.steps_of_fetched inside fetches, callCount_count _ _ _⟩

/-- From a piece of the program a run counts what it executes: each executed instruction is one step
of the machine, and each call that completes is one for the name of its piece. -/
theorem counts_runWithin (defined : prog.OpcodesDefined) (quiet : session.Quiet)
    {profile : Profile} (counting : session.profile = some profile)
    (full : profile.instructions.size = 31) {machine : Machine}
    (inside : machine.piece < prog.pieces.size) (bound : Nat) :
    ∃ last, (machine.runWithin prog settings (watcher prog) bound session).2.2.profile =
        some last ∧
      last.instructionTotal + machine.steps = profile.instructionTotal +
        (machine.runWithin prog settings (watcher prog) bound session).1.steps ∧
      ∀ name, last.callCount name = profile.callCount name +
        (machine.stepsWithin prog settings bound).countP fun step =>
          Machine.entersNamed prog name step.1 step.2 := by
  induction bound generalizing machine session profile with
  | zero => exact ⟨profile, counting, rfl, fun _ => rfl⟩
  | succ bound ih =>
    by_cases running : machine.running
    case neg =>
      simp only [Machine.runWithin, Machine.stepsWithin, running, Bool.false_eq_true, ↓reduceIte]
      exact ⟨profile, counting, rfl, fun _ => rfl⟩
    by_cases limit : 0 < settings.maxSteps ∧ settings.maxSteps ≤ machine.steps
    · simp only [Machine.runWithin, Machine.stepsWithin, running, limit, and_self, ↓reduceIte]
      exact ⟨profile, counting, rfl, fun _ => rfl⟩
    obtain ⟨silent, quiet', kept⟩ : (session.before prog machine).2 = none ∧
        (session.before prog machine).1.Quiet ∧
        (session.before prog machine).1.profile = session.profile := quiet.before machine
    cases looked : session.before prog machine with
    | mk session' message =>
    rw [looked] at silent quiet' kept
    obtain rfl : message = none := silent
    replace kept : session'.profile = some profile := kept.trans counting
    have looked' : (watcher prog).before machine session = (session', none) := looked
    cases stepped : machine.step prog settings with
    | mk after fault =>
    cases fetches : machine.fetch prog with
    | mk width outcome =>
    cases outcome with
    | error cause =>
      obtain ⟨faulted, same⟩ : (machine.step prog settings).2.isSome ∧
          (machine.step prog settings).1.steps = machine.steps :=
        Machine.step_of_refused fetches
      rw [stepped] at faulted same
      obtain ⟨fault, rfl⟩ := Option.isSome_iff_exists.mp faulted
      simp only [Machine.runWithin, Machine.stepsWithin, running, limit, ↓reduceIte, looked',
        stepped, fetches]
      exact ⟨profile, kept, by rw [same], fun _ => rfl⟩
    | ok fetched =>
      obtain ⟨full', total, steps, calls⟩ : Counts prog settings machine fetched fault.isNone
          profile (count prog fetched fault.isNone profile) :=
        counts_executed defined full inside fetches fault.isNone
      rw [stepped] at steps
      have met : ((watcher prog).executed machine fetched fault.isNone session').profile =
          some (count prog fetched fault.isNone profile) := congrArg (Option.map _) kept
      cases fault with
      | some fault =>
        simp only [Machine.runWithin, Machine.stepsWithin, running, limit, ↓reduceIte, looked',
          stepped, fetches]
        refine ⟨_, met, by rw [total, steps]; omega, fun name => ?_⟩
        rw [calls]
        rfl
      | none =>
        have inside' := (Machine.confined_step settings inside).1
        rw [stepped] at inside'
        dsimp only at inside' steps
        have calm : ((watcher prog).executed machine fetched (none : Option Fault).isNone
            session').Quiet := quiet'.executed machine fetched true
        obtain ⟨last, found, sum, later⟩ := ih calm met full' inside'
        simp only [Machine.runWithin, Machine.stepsWithin, running, limit, ↓reduceIte, looked',
          stepped, fetches]
        refine ⟨last, found, by rw [total] at sum; omega, fun name => ?_⟩
        rw [later, calls, List.countP_cons, Machine.entersNamed_eq fetches stepped]
        simp only [Option.isNone_none, true_and, decide_eq_true_eq]
        omega

/-- A session takes nothing from the run it watches and counts all of it. -/
structure Unobtrusive (prog : Program) (settings : Settings) (files : FileSystem)
    (session : Session) : Prop where
  /-- The run comes to the machine and the end of the run that nobody watches: the registers, the
  memory and its heap, the output, the files, the counts of steps and of soft errors, and the
  fault or the limit that ended it. -/
  unchanged : (session.run prog settings files).map (fun last => (last.1, last.2.1)) =
    Machine.runAlone prog settings files
  /-- A new profile of a program whose opcodes are all defined counts every step of the machine, and
  for every name the calls that the run completed into pieces of that name. -/
  counted : prog.OpcodesDefined → ∀ threshold, session.profile = some { threshold } →
    ∀ machine reason seen, session.run prog settings files = .ok (machine, reason, seen) →
      ∃ profile, seen.profile = some profile ∧ profile.instructionTotal = machine.steps ∧
        ∀ name, profile.callCount name =
          (Machine.completedSteps prog settings files).countP fun step =>
            Machine.entersNamed prog name step.1 step.2

/-- A program whose main piece calls another twice. -/
def twice : Program where
  pieces := #[
    { name := "main", code := #[.instruction { op := .call }, .immediate 2,
        .instruction { op := .call }, .immediate 2, .instruction { op := .giveBack }] },
    { name := "leaf", code := #[.instruction { op := .giveBack }] }]
  linked := true

/-- A session that traces, counts, and steps through the first instructions. -/
def curious : Session where
  tracing := true
  profile := some { threshold := 2 }
  stepper := some { input := "l\nf\n\ns\nhelp\nwhere\n\nc\n" }

end Session

end TinLang
