import TinLang.Proofs.Machine.Natives
import TinLang.Proofs.Machine.StackPointer

/-!
# What a step touches

An instruction that is not a call of a native names the bytes that it may change: those that it
stores or clears, the word below the stack pointer for a push, and the frame header below it for a
call. While the stack pointer is in the stack a step that faults changes nothing except the counter
and a stack pointer that its range check refuses, and one that completes changes no byte outside
what its instruction names (`bounded_step`). For a call that takes more than its first store: all
three stores of the header succeed once there is room for it.
-/
namespace TinLang

variable {slot : Fin 12} {cause : FaultCause}

/-- The bytes that an instruction names to change when the registers hold some words. -/
def Fetched.footprint (fetched : Fetched) (registers : Vector Word 12) : Region :=
  let first := registers.get fetched.first
  let pointer := (registers.get Machine.slotSP).toNat
  let size := ((AccessSize.ofCode? fetched.instruction.modifier).map AccessSize.bytes).getD 0
  match fetched.instruction.op with
  | .store => ⟨first.toNat, size⟩
  | .storeAt => ⟨(first + fetched.immediate.signExtend 64).toNat, size⟩
  | .memzero => ⟨first.toNat, (registers.get fetched.second).toInt.toNat⟩
  | .push => ⟨pointer - 8, 8⟩
  | .call => ⟨pointer - Machine.frameHeader, Machine.frameHeader⟩
  | _ => ⟨0, 0⟩

namespace Machine

variable {α β : Type} {machine middle after : Machine} {region : Region}

/-- Only registers, the piece and whether the program runs are different. -/
structure Untouched (machine after : Machine) : Prop where
  memory : after.memory = machine.memory
  output : after.output = machine.output
  files : after.files = machine.files
  softErrors : after.softErrors = machine.softErrors

/-- The memory is laid out as before, and its bytes outside a region are the same. -/
structure Touched (region : Region) (machine after : Machine) : Prop where
  layout : machine.memory.SameLayout after.memory
  output : after.output = machine.output
  files : after.files = machine.files
  softErrors : after.softErrors = machine.softErrors
  bytes : ∀ place, after.memory.byteAt place ≠ machine.memory.byteAt place → region.Holds place 1

theorem Untouched.refl (machine : Machine) : Untouched machine machine := ⟨rfl, rfl, rfl, rfl⟩

theorem Untouched.trans (first : Untouched machine middle) (second : Untouched middle after) :
    Untouched machine after :=
  ⟨second.memory.trans first.memory, second.output.trans first.output,
    second.files.trans first.files, second.softErrors.trans first.softErrors⟩

theorem Untouched.touched (untouched : Untouched machine after) : Touched region machine after where
  layout := by
    rw [untouched.memory]
    exact ⟨rfl, rfl, rfl⟩
  output := untouched.output
  files := untouched.files
  softErrors := untouched.softErrors
  bytes place differ := absurd (by rw [untouched.memory]) differ

theorem Touched.untouched (touched : Touched region machine middle)
    (untouched : Untouched middle after) : Touched region machine after where
  layout := untouched.memory ▸ touched.layout
  output := untouched.output.trans touched.output
  files := untouched.files.trans touched.files
  softErrors := untouched.softErrors.trans touched.softErrors
  bytes place differ := touched.bytes place (untouched.memory ▸ differ)

theorem Touched.trans (first : Touched region machine middle)
    (second : Touched region middle after) :
    Touched region machine after where
  layout := by
    obtain ⟨stack, data, heap⟩ := first.layout
    obtain ⟨stack', data', heap'⟩ := second.layout
    exact ⟨stack'.trans stack, data'.trans data, heap'.trans heap⟩
  output := second.output.trans first.output
  files := second.files.trans first.files
  softErrors := second.softErrors.trans first.softErrors
  bytes place differ := by
    by_cases same : after.memory.byteAt place = middle.memory.byteAt place
    · exact first.bytes place (same ▸ differ)
    · exact second.bytes place same

/-- A larger region bounds what changes as well. -/
theorem Touched.widen {larger : Region} (touched : Touched region machine after)
    (inside : ∀ place, region.Holds place 1 → larger.Holds place 1) :
    Touched larger machine after :=
  { touched with bytes := fun place differ => inside place (touched.bytes place differ) }

/-- Writing bytes touches their range. -/
theorem touched_setBytes (machine : Machine) (addr : Nat) (text : Text) :
    Touched ⟨addr, text.length⟩ machine
      { machine with memory := machine.memory.setBytes addr text } where
  layout := machine.memory.sameLayout_setBytes addr text
  output := rfl
  files := rfl
  softErrors := rfl
  bytes place differ := by
    rw [Memory.byteAt_setBytes] at differ
    by_contra outside
    refine differ (Bytes.overwrite_of_outside ?_)
    unfold Region.Holds at outside
    dsimp only at outside
    omega

/-- An operation never faults and changes no byte. -/
def Settles (action : Exec α) : Prop :=
  ∀ machine, ∃ value after, action.run.run machine = (.ok value, after) ∧ Untouched machine after

/-- Setting a register changes no byte. -/
theorem settles_put (slot : Fin 12) (value : Word) : Settles (put slot value) :=
  fun machine => ⟨(), _, run_put slot value machine, rfl, rfl, rfl, rfl⟩

/-- Entering a piece changes no byte. -/
theorem settles_enter (index : Nat) :
    Settles (modify fun machine => { machine with piece := index } : Exec Unit) :=
  fun _ => ⟨(), _, run_modify _ _, rfl, rfl, rfl, rfl⟩

/-- Ending changes no byte. -/
theorem settles_end : Settles (modify fun machine => { machine with running := false } :
    Exec Unit) :=
  fun _ => ⟨(), _, run_modify _ _, rfl, rfl, rfl, rfl⟩

/-- Doing nothing changes no byte. -/
theorem settles_pure (value : α) : Settles (pure value : Exec α) :=
  fun machine => ⟨value, machine, rfl, .refl machine⟩

/-- Reading a register changes no byte. -/
theorem settles_get (slot : Fin 12) : Settles (get slot) :=
  fun machine => ⟨_, machine, run_get slot machine, .refl machine⟩

theorem Settles.bind {first : Exec α} {next : α → Exec β} (settles : Settles first)
    (later : ∀ value, Settles (next value)) : Settles (first >>= next) := by
  intro machine
  obtain ⟨value, middle, run, same⟩ := settles machine
  obtain ⟨result, after, run', same'⟩ := later value middle
  exact ⟨result, after, by rw [run_bind, run]; exact run', same.trans same'⟩

/-- A fault of an operation leaves the machine as it was, and its completion changes no byte outside
a region. -/
structure Bounded (region : Region) (action : Exec α) (machine : Machine) : Prop where
  harmless : Harmless action machine
  touched : ∀ value after, action.run.run machine = (.ok value, after) →
    Touched region machine after

theorem Settles.bounded {action : Exec α} (settles : Settles action) :
    Bounded region action machine := by
  obtain ⟨value, last, run, same⟩ := settles machine
  constructor
  · intro cause after faulted
    rw [run] at faulted
    cases (Prod.mk.inj faulted).1
  · intro result after done
    rw [run] at done
    obtain ⟨-, rfl⟩ := Prod.mk.inj done
    exact same.touched

theorem Looks.bounded {action : Exec α} (looks : Looks action) : Bounded region action machine where
  harmless := looks.harmless
  touched value after done := by
    have same := looks machine
    rw [done] at same
    obtain rfl : after = machine := same
    exact (Untouched.refl _).touched

theorem bounded_throw (cause : FaultCause) : Bounded region (throw cause : Exec α) machine :=
  (looks_throw cause).bounded

/-- What an operation that only looks finds decides what comes after it. -/
theorem Looks.bind_bounded {first : Exec α} {next : α → Exec β} (looks : Looks first)
    (later : ∀ value, first.run.run machine = (.ok value, machine) →
      Bounded region (next value) machine) : Bounded region (first >>= next) machine where
  harmless := looks.bind_harmless fun value found => (later value found).harmless
  touched value after done := by
    obtain ⟨found, middle, run, rest⟩ := ok_of_bind done
    have same := looks machine
    rw [run] at same
    obtain rfl := same
    exact (later found run).touched value after rest

/-- What is sure to end may follow an operation that changes bytes. -/
theorem Bounded.bind_settles {first : Exec α} {next : α → Exec β}
    (bounded : Bounded region first machine) (later : ∀ value, Settles (next value)) :
    Bounded region (first >>= next) machine := by
  constructor
  · intro cause after faulted
    rw [run_bind] at faulted
    cases found : first.run.run machine with
    | mk result middle =>
      rw [found] at faulted
      cases result with
      | error other =>
        obtain ⟨-, rfl⟩ := Prod.mk.inj faulted
        exact bounded.harmless other _ found
      | ok value =>
        obtain ⟨_, _, run, -⟩ := later value middle
        cases (Prod.mk.inj (run.symm.trans faulted)).1
  · intro result after done
    obtain ⟨value, middle, run, rest⟩ := ok_of_bind done
    obtain ⟨_, _, run', same⟩ := later value middle
    rw [run'] at rest
    obtain ⟨-, rfl⟩ := Prod.mk.inj rest
    exact (bounded.touched value middle run).untouched same

theorem bounded_ite {condition : Prop} [Decidable condition] {first second : Exec α}
    (holds : condition → Bounded region first machine)
    (fails : ¬ condition → Bounded region second machine) :
    Bounded region (if condition then first else second) machine := by
  split
  case isTrue true => exact holds true
  case isFalse false => exact fails false

theorem bounded_guard {condition : Prop} [Decidable condition]
    {next : Unit → Exec α} (later : ¬ condition → Bounded region (next ()) machine) :
    Bounded region (if condition then throw cause >>= next else next ()) machine :=
  bounded_ite (fun _ => (looks_throw cause).bind_bounded fun _ found => by
    cases (Prod.mk.inj found).1) later

theorem bounded_store (addr : Word) (size : AccessSize) (value : Word) :
    Bounded ⟨addr.toNat, size.bytes⟩ (store addr size value) machine where
  harmless := harmless_changeMemory _ _
  touched result after done := by
    obtain ⟨memory, stored, rfl⟩ := store_of_run done
    rw [Memory.store?_eq] at stored
    split at stored
    · obtain rfl := Option.some.inj stored
      have touched := touched_setBytes machine addr.toNat
        (Memory.bytesOf size.bytes value.toNat)
      rwa [Memory.length_bytesOf] at touched
    · contradiction

theorem bounded_clear (addr : Word) (count : Int) :
    Bounded ⟨addr.toNat, count.toNat⟩
      (changeMemory (·.clear? addr.toNat count) (.access addr.toNat count)) machine where
  harmless := harmless_changeMemory _ _
  touched result after done := by
    have touched := touched_setBytes machine addr.toNat (List.replicate count.toNat 0)
    rw [List.length_replicate] at touched
    rw [changeMemory, run_bind, run_getThe] at done
    dsimp only [Memory.clear?] at done
    by_cases inside : machine.memory.addressable addr.toNat count = true
    · rw [if_pos inside] at done
      obtain ⟨-, rfl⟩ := Prod.mk.inj done
      exact touched
    · rw [if_neg inside] at done
      cases (Prod.mk.inj done).1

/-- The size of a modifier is looked up before an operation that depends on it. -/
theorem bounded_accessSize {modifier : UInt8} {next : AccessSize → Exec α}
    (later : ∀ size, AccessSize.ofCode? modifier = some size → Bounded region (next size) machine) :
    Bounded region (accessSize modifier >>= next) machine := by
  have looks : Looks (accessSize modifier) := by
    unfold accessSize
    cases AccessSize.ofCode? modifier with
    | none => exact looks_throw _
    | some size => exact looks_pure _
  exact looks.bind_bounded fun size found => later size (accessSize_of_run found).1

theorem bounded_get {next : Word → Exec α}
    (later : Bounded region (next (machine.registers.get slot)) machine) :
    Bounded region (get slot >>= next) machine := by
  refine (looks_get slot).bind_bounded fun value found => ?_
  rw [run_get] at found
  obtain rfl := Except.ok.inj (Prod.mk.inj found).1
  exact later

theorem bounded_getThe {next : Machine → Exec α} (later : Bounded region (next machine) machine) :
    Bounded region (getThe Machine >>= next) machine := by
  refine looks_getThe.bind_bounded fun value found => ?_
  rw [run_getThe] at found
  obtain rfl := Except.ok.inj (Prod.mk.inj found).1
  exact later

/-- A push changes the word below the stack pointer. -/
theorem bounded_push (value : Word) :
    Bounded ⟨(machine.registers.get slotSP).toNat - 8, 8⟩ (push value) machine := by
  refine bounded_get (bounded_getThe (bounded_guard fun room => ?_))
  simp only [not_or, Nat.not_lt] at room
  have number : (machine.registers.get slotSP - 8).toNat =
      (machine.registers.get slotSP).toNat - 8 :=
    BitVec.toNat_sub_of_le (Nat.le_trans (by decide) room.1)
  rw [← number]
  exact (bounded_store _ .eight value).bind_settles fun _ => settles_put _ _

theorem bounded_pop {next : Word → Exec α} (later : ∀ value, Settles (next value)) :
    Bounded region (pop >>= next) machine := by
  have bounded : Bounded region pop machine := by
    refine bounded_get (bounded_getThe (bounded_guard fun _ => ?_))
    exact (looks_load _ _).bind_bounded fun _ _ =>
      ((settles_put _ _).bind fun _ => settles_pure _).bounded
  exact bounded.bind_settles later

/-- An operation completes and changes no byte outside a region. -/
def Sure (region : Region) (action : Exec α) (machine : Machine) : Prop :=
  ∃ value after, action.run.run machine = (.ok value, after) ∧ Touched region machine after

theorem Settles.sure {action : Exec α} (settles : Settles action) (machine : Machine) :
    Sure region action machine := by
  obtain ⟨value, after, run, same⟩ := settles machine
  exact ⟨value, after, run, same.touched⟩

theorem Sure.bounded {action : Exec α} (sure : Sure region action machine) :
    Bounded region action machine := by
  obtain ⟨value, last, run, touched⟩ := sure
  constructor
  · intro cause after faulted
    rw [run] at faulted
    cases (Prod.mk.inj faulted).1
  · intro result after done
    rw [run] at done
    obtain ⟨-, rfl⟩ := Prod.mk.inj done
    exact touched

theorem sure_get {next : Word → Exec α}
    (later : Sure region (next (machine.registers.get slot)) machine) :
    Sure region (get slot >>= next) machine := by
  unfold Sure
  rw [run_bind, run_get]
  exact later

theorem sure_getThe {next : Machine → Exec α} (later : Sure region (next machine) machine) :
    Sure region (getThe Machine >>= next) machine := by
  unfold Sure
  rw [run_bind, run_getThe]
  exact later

/-- A store that stays inside a region of the stack is not refused. -/
theorem sure_store {addr : Word} {size : AccessSize} {value : Word} {next : Unit → Exec α}
    (low : Memory.stackBase ≤ region.base) (high : region.base + region.size ≤
    machine.memory.stackTop)
    (within : region.Holds addr.toNat size.bytes)
    (later : ∀ middle : Machine, middle.registers = machine.registers →
      middle.memory.stackTop = machine.memory.stackTop → Sure region (next ()) middle) :
    Sure region (store addr size value >>= next) machine := by
  obtain ⟨above, below⟩ := within
  have covers : machine.memory.Covers addr.toNat size.bytes := .inl ⟨by omega, by omega⟩
  have done : machine.memory.store? addr.toNat size value =
      some (machine.memory.setBytes addr.toNat (Memory.bytesOf size.bytes value.toNat)) := by
    rw [Memory.store?_eq, if_pos (Memory.addressable_of_covers covers)]
  have stored := touched_setBytes machine addr.toNat (Memory.bytesOf size.bytes value.toNat)
  rw [Memory.length_bytesOf] at stored
  obtain ⟨result, after, run, touched⟩ :=
    later { machine with memory := machine.memory.setBytes addr.toNat _ } rfl
      (Memory.stackTop_setBytes _ _)
  refine ⟨result, after, by rw [run_bind, run_store done]; exact run,
        stored.widen ?_ |>.trans touched⟩
  rintro place ⟨first, last⟩
  dsimp only at first last
  exact ⟨by omega, by omega⟩

/-- Below a stack pointer that is in the stack a call writes its frame header, and nothing else.
Once there is room for the header none of its three stores is refused. -/
theorem bounded_callPiece (high : (machine.registers.get slotSP).toNat ≤ machine.memory.stackTop)
    (index : Nat) (callee : Piece) :
    Bounded ⟨(machine.registers.get slotSP).toNat - frameHeader, frameHeader⟩
      (callPiece index callee) machine := by
  refine bounded_get (bounded_guard fun room => ?_)
  have less : ∀ distance : Word, distance.toNat ≤ frameHeader →
      (machine.registers.get slotSP - distance).toNat =
        (machine.registers.get slotSP).toNat - distance.toNat := fun distance small =>
    BitVec.toNat_sub_of_le (BitVec.le_def.mpr (by omega))
  have four := less 4 (by decide)
  have eight := less 8 (by decide)
  have sixteen := less 16 (by decide)
  have numbers : (4 : Word).toNat = 4 ∧ (8 : Word).toNat = 8 ∧ (16 : Word).toNat = 16 :=
    ⟨rfl, rfl, rfl⟩
  unfold frameHeader at room ⊢
  generalize machine.registers.get slotSP = pointer at *
  refine bounded_get (Sure.bounded ?_)
  refine sure_store ?low ?high ?first fun second registers top => ?_
  case low => dsimp only; omega
  case high => dsimp only; omega
  case first => exact ⟨by dsimp only; omega, by simp only [AccessSize.bytes]; omega⟩
  refine sure_getThe (sure_store ?low ?high ?second fun third registers' top' => ?_)
  case low => dsimp only; omega
  case high => dsimp only; omega
  case second => exact ⟨by dsimp only; omega, by simp only [AccessSize.bytes]; omega⟩
  refine sure_get (sure_store ?low ?high ?third fun fourth _ _ => ?_)
  case low => dsimp only; omega
  case high => dsimp only; omega
  case third => exact ⟨by dsimp only; omega, by simp only [AccessSize.bytes]; omega⟩
  exact ((settles_put _ _).bind fun _ => (settles_put _ _).bind fun _ =>
    (settles_put _ _).bind fun _ => settles_enter index).sure fourth

/-- A return looks at the saved words before it moves a register. -/
theorem bounded_giveBack (prog : Program) : Bounded region (giveBack prog) machine := by
  refine bounded_get (bounded_get (bounded_guard fun _ => bounded_getThe ?_))
  refine bounded_ite (fun _ => settles_end.bounded) fun _ => bounded_guard fun _ => ?_
  refine (looks_load _ _).bind_bounded fun base _ => ?_
  refine (looks_load _ _).bind_bounded fun piece _ => ?_
  refine (looks_load _ _).bind_bounded fun counter _ => bounded_guard fun _ => ?_
  exact ((settles_put _ _).bind fun _ => (settles_put _ _).bind fun _ =>
    (settles_put _ _).bind fun _ => settles_enter _).bounded

/-- The range check of the stack pointer refuses what an instruction has put there. -/
structure Refused (fetched : Fetched) (after : Machine) (cause : FaultCause) : Prop where
  checked : fetched.instruction.op = .move ∨ fetched.instruction.op = .increase
  pointer : fetched.first = slotSP
  outside : ((after.registers.get slotSP).toInt < Memory.stackBase ∧
      cause = .pointerBelow (after.registers.get slotSP).toInt) ∨
    ((after.memory.stackTop : Int) < (after.registers.get slotSP).toInt ∧
      cause = .pointerAbove (after.registers.get slotSP).toInt)

/-- What an instruction may do to a machine: a fault leaves it as it was, apart from a stack pointer
that is refused, and its completion changes no byte but those that it names. -/
structure Frames (fetched : Fetched) (action : Exec Unit) (machine : Machine) : Prop where
  faulted : ∀ cause after, action.run.run machine = (.error cause, after) → after = machine ∨
    Refused fetched after cause ∧
      ∃ value, after = { machine with registers := assign machine.registers slotSP value }
  touched : ∀ after, action.run.run machine = (.ok (), after) →
    Touched (fetched.footprint machine.registers) machine after

theorem Bounded.frames {fetched : Fetched} {action : Exec Unit}
    (bounded : Bounded (fetched.footprint machine.registers) action machine) :
    Frames fetched action machine where
  faulted cause after faulted := .inl (bounded.harmless cause after faulted)
  touched after done := bounded.touched () after done

/-- The range check of a stack pointer completes, or faults with a reason. -/
theorem checkPointer_cases (machine : Machine) :
    checkPointer.run.run machine = (.ok (), machine) ∨
      ∃ cause, checkPointer.run.run machine = (.error cause, machine) ∧
        (((machine.registers.get slotSP).toInt < Memory.stackBase ∧
            cause = .pointerBelow (machine.registers.get slotSP).toInt) ∨
          ((machine.memory.stackTop : Int) < (machine.registers.get slotSP).toInt ∧
            cause = .pointerAbove (machine.registers.get slotSP).toInt)) := by
  have unfolded : checkPointer.run.run machine =
      if (machine.registers.get slotSP).toInt < Memory.stackBase then
        (.error (.pointerBelow (machine.registers.get slotSP).toInt), machine)
      else if (machine.memory.stackTop : Int) < (machine.registers.get slotSP).toInt then
        (.error (.pointerAbove (machine.registers.get slotSP).toInt), machine)
      else (.ok (), machine) := by
    rw [checkPointer, run_bind, run_get]
    dsimp only
    rw [run_bind, run_getThe]
    dsimp only
    split
    · rfl
    · split <;> rfl
  rw [unfolded]
  split
  case isTrue below => exact .inr ⟨_, rfl, .inl ⟨below, rfl⟩⟩
  split
  case isTrue above => exact .inr ⟨_, rfl, .inr ⟨above, rfl⟩⟩
  case isFalse => exact .inl rfl

theorem frames_get {fetched : Fetched} {next : Word → Exec Unit}
    (later : Frames fetched (next (machine.registers.get slot)) machine) :
    Frames fetched (get slot >>= next) machine := by
  have run : (get slot >>= next).run.run machine =
      (next (machine.registers.get slot)).run.run machine := by rw [run_bind, run_get]
  exact ⟨by rw [run]; exact later.faulted, by rw [run]; exact later.touched⟩

theorem frames_putChecked {fetched : Fetched}
    (checked : fetched.instruction.op = .move ∨ fetched.instruction.op = .increase)
    (value : Word) : Frames fetched (putChecked fetched.first value) machine := by
  by_cases pointer : fetched.first = slotSP
  · have run : (putChecked fetched.first value).run.run machine = checkPointer.run.run
        { machine with registers := assign machine.registers slotSP value } := by
      rw [putChecked, run_bind, run_put, if_pos pointer, pointer]
    constructor
    · intro cause after faulted
      rw [run] at faulted
      rcases checkPointer_cases { machine with
        registers := assign machine.registers slotSP value } with done | ⟨_, refused, outside⟩
      · rw [done] at faulted
        cases (Prod.mk.inj faulted).1
      · rw [refused] at faulted
        obtain ⟨same, rfl⟩ := Prod.mk.inj faulted
        obtain rfl := Except.error.inj same
        exact .inr ⟨⟨checked, pointer, outside⟩, value, rfl⟩
    · intro after done
      rw [run] at done
      rcases checkPointer_cases { machine with
        registers := assign machine.registers slotSP value } with settled | ⟨_, refused, -⟩
      · rw [settled] at done
        obtain ⟨-, rfl⟩ := Prod.mk.inj done
        exact Untouched.touched ⟨rfl, rfl, rfl, rfl⟩
      · rw [refused] at done
        cases (Prod.mk.inj done).1
  · have settles : Settles (putChecked fetched.first value) := by
      rw [putChecked, if_neg pointer]
      exact (settles_put _ _).bind fun _ => settles_pure ()
    exact settles.bounded.frames

/-- A call of a piece, and one of nothing, keep to the frame header below the stack pointer. -/
theorem bounded_call (high : (machine.registers.get slotSP).toNat ≤ machine.memory.stackTop)
    (prog : Program) (settings : Settings) {imm : Int}
    (foreign : Native.ofId? imm = none) :
    Bounded ⟨(machine.registers.get slotSP).toNat - frameHeader, frameHeader⟩
      (call prog settings imm) machine := by
  unfold call
  refine bounded_ite (fun _ => ?_) fun _ => bounded_ite (fun _ => bounded_throw _) fun _ => ?_
  · rw [foreign]
    exact bounded_throw _
  · cases prog.pieces[(imm - 1).toNat]? with
    | none => exact bounded_throw _
    | some callee => exact bounded_callPiece high _ callee

/-- What an operator gives is put into a register. -/
theorem bounded_arithmetic (op : Opcode) (modifier : UInt8) (first second : Fin 12) :
    Bounded region (do
      match Arithmetic.apply op modifier (← get first) (← get second) with
      | .ok word => put first word
      | .error cause => throw cause) machine := by
  refine bounded_get (bounded_get ?_)
  cases Arithmetic.apply op modifier (machine.registers.get first)
    (machine.registers.get second) with
  | error cause => exact bounded_throw cause
  | ok word => exact (settles_put _ _).bounded

/-- An instruction other than a call of a native changes only the bytes that it names, and a fault
of it changes nothing but a stack pointer that is refused. -/
theorem frames_execute (prog : Program) (settings : Settings) {fetched : Fetched}
    (high : (machine.registers.get slotSP).toNat ≤ machine.memory.stackTop)
    (foreign : fetched.instruction.op = .call →
      Native.ofId? fetched.immediate.toInt = none) :
    Frames fetched (execute prog settings fetched) machine := by
  have leap : ∀ distance : Word, Settles (jump distance) := fun distance =>
    (settles_get _).bind fun counter => settles_put _ _
  unfold execute
  dsimp only
  cases found : fetched.instruction.op with
  | halt => exact settles_end.bounded.frames
  | nop => exact (settles_pure _).bounded.frames
  | cast =>
    refine Bounded.frames ?_
    cases Conversion.ofCode? fetched.instruction.modifier with
    | none => exact bounded_throw _
    | some conversion => exact ((settles_get _).bind fun _ => settles_put _ _).bounded
  | move => exact frames_get (frames_putChecked (.inl found) _)
  | store =>
    refine Bounded.frames (bounded_get (bounded_accessSize fun size known => bounded_get ?_))
    simp only [Fetched.footprint, found, known, Option.map_some, Option.getD_some]
    exact bounded_store _ size _
  | load =>
    refine Bounded.frames (bounded_get (bounded_accessSize fun size known => ?_))
    exact (looks_load _ _).bind_bounded fun _ _ => (settles_put _ _).bounded
  | push =>
    refine Bounded.frames (bounded_get ?_)
    simp only [Fetched.footprint, found]
    exact bounded_push _
  | pop => exact (bounded_pop fun _ => settles_put _ _).frames
  | not => exact ((settles_get _).bind fun _ => settles_put _ _).bounded.frames
  | giveBack => exact (bounded_giveBack prog).frames
  | memzero =>
    refine Bounded.frames (bounded_get (bounded_get ?_))
    simp only [Fetched.footprint, found]
    exact bounded_clear _ _
  | loadImmediate => exact (settles_put _ _).bounded.frames
  | jump => exact (leap _).bounded.frames
  | jumpZero =>
    refine Bounded.frames (bounded_get (bounded_ite (fun _ => (leap _).bounded) fun _ => ?_))
    exact (settles_pure _).bounded
  | call =>
    refine Bounded.frames ?_
    simp only [Fetched.footprint, found]
    exact bounded_call high prog settings (foreign found)
  | storeAt =>
    refine Bounded.frames (bounded_get (bounded_accessSize fun size known => bounded_get ?_))
    simp only [Fetched.footprint, found, known, Option.map_some, Option.getD_some]
    exact bounded_store _ size _
  | loadAt =>
    refine Bounded.frames (bounded_get (bounded_accessSize fun size known => ?_))
    exact (looks_load _ _).bind_bounded fun _ _ => (settles_put _ _).bounded
  | dataPointer => exact (settles_put _ _).bounded.frames
  | increase => exact frames_get (frames_putChecked (.inr found) _)
  | undefined excess => exact (bounded_throw _).frames
  | add | sub | mul | div | and | or | equal | notEqual | less | greater | lessEqual
  | greaterEqual => exact (bounded_arithmetic _ _ _ _).frames

/-- The registers once an instruction of some width was fetched: the counter is past it. -/
def fetchedRegisters (machine : Machine) (width : Nat) : Vector Word 12 :=
  assign machine.registers slotPC (machine.registers.get slotPC + BitVec.ofNat 64 width)

/-- What a fault of a step leaves of a machine: everything but the counter, and a stack pointer that
the instruction moved out of the stack. -/
structure Spared (prog : Program) (machine after : Machine) (cause : FaultCause) : Prop where
  memory : after.memory = machine.memory
  output : after.output = machine.output
  files : after.files = machine.files
  softErrors : after.softErrors = machine.softErrors
  piece : after.piece = machine.piece
  running : after.running = machine.running
  registers : ∀ slot, slot ≠ slotPC → slot ≠ slotSP →
    after.registers.get slot = machine.registers.get slot
  pointer : after.registers.get slotSP = machine.registers.get slotSP ∨
    ∃ width fetched, machine.fetch prog = (width, .ok fetched) ∧ Refused fetched after cause

/-- A step keeps to what its instruction names. -/
structure BoundedStep (prog : Program) (settings : Settings) (machine : Machine) : Prop where
  faulted : ∀ after fault, machine.step prog settings = (after, some fault) →
    Spared prog machine after fault.cause
  touched : ∀ after, machine.step prog settings = (after, none) →
    ∃ width fetched, machine.fetch prog = (width, .ok fetched) ∧
      Touched (fetched.footprint (machine.fetchedRegisters width)) machine after

theorem get_fetchedRegisters (machine : Machine) (width : Nat)
    (apart : slot ≠ slotPC) :
    (machine.fetchedRegisters width).get slot = machine.registers.get slot := by
  rw [fetchedRegisters, get_assign, if_neg apart.symm]

theorem cause_faultAt (prog : Program) (machine : Machine) (cause : FaultCause) :
    (machine.faultAt prog cause).cause = cause := by
  unfold faultAt
  split <;> rfl

theorem ofId?_eq_none_of_foreign {prog : Program} {width : Nat} {fetched : Fetched}
    (foreign : ∀ native, ¬ machine.CallsNative prog native)
    (fetches : machine.fetch prog = (width, .ok fetched))
    (call : fetched.instruction.op = .call) : Native.ofId? fetched.immediate.toInt = none := by
  refine List.find?_eq_none.mpr fun native _ same => foreign native ⟨width, fetched,
    fetches, call, ?_⟩
  exact (eq_of_beq same).symm

/-- A machine that executes differs from the one that fetches in its counter. -/
theorem spared_fetchedRegisters (prog : Program) (width steps : Nat) (cause : FaultCause) :
    Spared prog machine { machine with registers := machine.fetchedRegisters width, steps }
      cause where
  memory := rfl
  output := rfl
  files := rfl
  softErrors := rfl
  piece := rfl
  running := rfl
  registers slot apart _ := get_fetchedRegisters machine width apart
  pointer := .inl (get_fetchedRegisters machine width (by decide))

/-- A refused stack pointer is the only other thing that a fault leaves different. -/
theorem Refused.spared {prog : Program} {width steps : Nat} {fetched : Fetched} {value : Word}
    (fetches : machine.fetch prog = (width, .ok fetched))
    (refused : Refused fetched { machine with
      registers := assign (machine.fetchedRegisters width) slotSP value, steps } cause) :
    Spared prog machine { machine with
      registers := assign (machine.fetchedRegisters width) slotSP value, steps } cause where
  memory := rfl
  output := rfl
  files := rfl
  softErrors := rfl
  piece := rfl
  running := rfl
  registers slot apart other := by
    rw [get_assign, if_neg other.symm, get_fetchedRegisters machine width apart]
  pointer := .inr ⟨width, fetched, fetches, refused⟩

/-- A machine that has fetched an instruction of some width. -/
def fetched (machine : Machine) (width : Nat) : Machine :=
  { machine with registers := machine.fetchedRegisters width, steps := machine.steps + 1 }

section Execution

variable {prog : Program} {settings : Settings} {machine last : Machine} {width : Nat}
  {instr : Fetched} (fetches : machine.fetch prog = (width, .ok instr))

include fetches

/-- A step completes when the instruction does. -/
theorem step_completes {value : Unit}
    (ran : (execute prog settings instr).run.run (machine.fetched width) =
      (.ok value, last)) : machine.step prog settings = (last, none) := by
  rw [step, fetches]
  dsimp only
  rw [fetched, fetchedRegisters] at ran
  rw [ran]

/-- A step faults when the instruction does. -/
theorem step_faults
    (ran : (execute prog settings instr).run.run (machine.fetched width) =
      (.error cause, last)) :
    machine.step prog settings = (last, some (machine.faultAt prog cause)) := by
  rw [step, fetches]
  dsimp only
  rw [fetched, fetchedRegisters] at ran
  rw [ran]

end Execution

/-- While the stack pointer is not above the stack, a step that does not call a native changes
nothing but the counter, and a stack pointer that is refused, when it faults; when it completes, the
memory is laid out as before and every byte that changed is one that the instruction names: those of
the range that is stored or cleared, the eight bytes below the stack pointer for a push and the
sixteen bytes below it for a call. -/
theorem bounded_step (prog : Program) (settings : Settings) {machine : Machine}
    (high : (machine.registers.get slotSP).toNat ≤ machine.memory.stackTop)
    (foreign : ∀ native, ¬ machine.CallsNative prog native) :
    BoundedStep prog settings machine := by
  cases fetches : machine.fetch prog with
  | mk width outcome =>
    cases outcome with
    | error cause =>
      have stepped : machine.step prog settings =
          ({ machine with registers := machine.fetchedRegisters width },
            some (machine.faultAt prog cause)) := by
        rw [step, fetches]
        rfl
      constructor
      · intro after fault faulted
        obtain ⟨rfl, -⟩ := Prod.mk.inj (stepped.symm.trans faulted)
        exact spared_fetchedRegisters prog width machine.steps fault.cause
      · intro after done
        cases (Prod.mk.inj (stepped.symm.trans done)).2
    | ok fetched =>
      have pointer : (machine.fetched width).registers.get slotSP = machine.registers.get slotSP :=
        get_fetchedRegisters machine width (by decide)
      have below : ((machine.fetched width).registers.get slotSP).toNat ≤
          (machine.fetched width).memory.stackTop := by
        rw [pointer]
        exact high
      have frames := frames_execute prog settings below (ofId?_eq_none_of_foreign foreign fetches)
      cases ran : (execute prog settings fetched).run.run (machine.fetched width) with
      | mk result last =>
        cases result with
        | error cause =>
          have stepped := step_faults fetches ran
          constructor
          · intro after fault faulted
            obtain ⟨rfl, found⟩ := Prod.mk.inj (stepped.symm.trans faulted)
            obtain rfl := Option.some.inj found
            rw [cause_faultAt]
            rcases frames.faulted cause last ran with rfl | ⟨refused, value, rfl⟩
            · exact spared_fetchedRegisters prog width _ cause
            · exact refused.spared fetches
          · intro after done
            cases (Prod.mk.inj (stepped.symm.trans done)).2
        | ok value =>
          have stepped := step_completes fetches ran
          constructor
          · intro after fault faulted
            cases (Prod.mk.inj (stepped.symm.trans faulted)).2
          · intro after done
            obtain ⟨rfl, -⟩ := Prod.mk.inj (stepped.symm.trans done)
            refine ⟨width, fetched, fetches, ?_⟩
            have touched := frames.touched last ran
            exact { touched with }

/-- A program that calls itself. -/
def caller : Program where
  pieces := #[{ name := "main", code := #[.instruction { op := .call }, .immediate 1] }]
  linked := true

/-- The first call of a program that calls itself completes and keeps to its frame header. -/
theorem bounded_step_caller : ∃ after,
    (Machine.start caller {} {} 0).step caller {} = (after, none) ∧
    ((Machine.start caller {} {} 0).registers.get slotSP).toNat ≤
      (Machine.start caller {} {} 0).memory.stackTop ∧
    (∀ native, ¬ (Machine.start caller {} {} 0).CallsNative caller native) ∧
    BoundedStep caller {} (Machine.start caller {} {} 0) := by
  have fetches : (Machine.start caller {} {} 0).fetch caller =
      (2, .ok ⟨{ op := .call }, 1, 0, 0⟩) := rfl
  have foreign : ∀ native, ¬ (Machine.start caller {} {} 0).CallsNative caller native := by
    rintro native ⟨width, fetched, found, -, same⟩
    obtain ⟨-, known⟩ := Prod.mk.inj (fetches.symm.trans found)
    obtain rfl := Except.ok.inj known
    cases native <;> exact absurd same (by decide)
  exact ⟨_, rfl, Nat.le_refl _, foreign, bounded_step caller {} (Nat.le_refl _) foreign⟩

end Machine

end TinLang
