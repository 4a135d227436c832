import TinLang.Proofs.Flow
import TinLang.Proofs.Machine.Confinement

/-!
# The stack pointer

The stack pointer is a register like every other, and only some instructions look where they put
it: pushes, pops, calls and returns, moves and additions of an immediate. An instruction that names
it as the destination of anything else, such as an immediate or a loaded word, puts it anywhere.
Code without such instructions keeps it inside the stack for as long as no step faults, so every
frame header stands inside the stack too.
-/
namespace TinLang

variable {fetched : Fetched} {slot : Fin 12}

/-- No instruction of the program may put the stack pointer anywhere. -/
def Program.NeverStrays (prog : Program) : Prop :=
  ∀ piece ∈ prog.pieces, ∀ (cell : Nat) instr,
    piece.code[cell]? = some (.instruction instr) → instr.strays = false

namespace Machine

variable {α β : Type}

/-- The stack pointer is in the stack, which ends below the data segment. -/
structure InStack (machine : Machine) : Prop where
  low : Memory.stackBase ≤ (machine.registers.get slotSP).toNat
  high : (machine.registers.get slotSP).toNat ≤ machine.memory.stackTop
  small : machine.memory.stackTop ≤ Memory.dataBase

theorem InStack.congr {machine after : Machine} (inStack : machine.InStack)
    (pointer : after.registers.get slotSP = machine.registers.get slotSP)
    (size : after.memory.stackSize = machine.memory.stackSize) : after.InStack := by
  have top : after.memory.stackTop = machine.memory.stackTop := by
    rw [Memory.stackTop, size, Memory.stackTop]
  exact ⟨pointer ▸ inStack.low, by rw [pointer, top]; exact inStack.high, top ▸ inStack.small⟩

/-- An operation that is completed leaves the stack pointer in the stack. -/
def Stays (action : Exec α) : Prop :=
  ∀ machine value after, machine.InStack → action.run.run machine = (.ok value, after) →
    after.InStack

theorem Modest.stays {action : Exec α} (modest : Modest action) : Stays action := by
  intro machine value after inStack done
  have tended := modest machine
  rw [done] at tended
  exact inStack.congr (congrArg (·.get slotSP) tended.registers) tended.memory.stackSize

theorem Still.stays {action : Exec α} (still : Still action) : Stays action := still.modest.stays

theorem stays_pure (value : α) : Stays (pure value : Exec α) := (still_pure value).stays

theorem stays_throw (cause : FaultCause) : Stays (throw cause : Exec α) := (still_throw cause).stays

/-- Of two operations that are completed, both are. -/
theorem ok_of_bind {first : Exec α} {next : α → Exec β} {machine after : Machine} {found : β}
    (done : (first >>= next).run.run machine = (.ok found, after)) :
    ∃ value middle, first.run.run machine = (.ok value, middle) ∧
      (next value).run.run middle = (.ok found, after) := by
  rw [run_bind] at done
  cases ran : first.run.run machine with
  | mk outcome middle =>
    rw [ran] at done
    cases outcome with
    | ok value => exact ⟨value, middle, rfl, done⟩
    | error cause => exact nomatch (Prod.mk.inj done).1

/-- What comes after an operation that leaves the registers alone starts with the same ones. -/
theorem Still.ok_of_bind {first : Exec α} {next : α → Exec β} {machine after : Machine} {found : β}
    (still : Still first) (done : (first >>= next).run.run machine = (.ok found, after)) :
    ∃ value middle, middle.registers = machine.registers ∧
      middle.memory.stackSize = machine.memory.stackSize ∧
      (next value).run.run middle = (.ok found, after) := by
  obtain ⟨value, middle, ran, later⟩ := Machine.ok_of_bind done
  have unmoved := still machine
  rw [ran] at unmoved
  exact ⟨value, middle, unmoved.registers, unmoved.memory.stackSize, later⟩

theorem ok_of_get {next : Word → Exec β} {machine after : Machine} {found : β}
    (done : (get slot >>= next).run.run machine = (.ok found, after)) :
    (next (machine.registers.get slot)).run.run machine = (.ok found, after) := by
  rw [run_bind, run_get] at done
  exact done

theorem ok_of_getThe {next : Machine → Exec β} {machine after : Machine} {found : β}
    (done : (getThe Machine >>= next).run.run machine = (.ok found, after)) :
    (next machine).run.run machine = (.ok found, after) := by
  rw [run_bind, run_getThe] at done
  exact done

/-- What comes after a fault that was not raised. -/
theorem ok_of_guard {condition : Prop} [Decidable condition] {cause : FaultCause}
    {next : Unit → Exec β} {machine after : Machine} {found : β}
    (done : (if condition then throw cause >>= next else next ()).run.run machine =
      (.ok found, after)) :
    ¬ condition ∧ (next ()).run.run machine = (.ok found, after) := by
  by_cases holds : condition
  · rw [if_pos holds] at done
    exact nomatch (Prod.mk.inj done).1
  · rw [if_neg holds] at done
    exact ⟨holds, done⟩

theorem Stays.bind {first : Exec α} {next : α → Exec β} (stays : Stays first)
    (later : ∀ value, Stays (next value)) : Stays (first >>= next) := by
  intro machine found after inStack done
  obtain ⟨value, middle, ran, rest⟩ := ok_of_bind done
  exact later value middle found after (stays machine value middle inStack ran) rest

/-- A register other than the stack pointer may be set to anything. -/
theorem stays_put (other : slot ≠ slotSP) (value : Word) :
    Stays (put slot value) := by
  intro machine found after inStack done
  obtain ⟨-, rfl⟩ := Prod.mk.inj done
  refine inStack.congr ?_ rfl
  simp only [get_assign, if_neg other]

theorem stays_modify {change : Machine → Machine}
    (registers : ∀ machine, (change machine).registers = machine.registers)
    (memory : ∀ machine, (change machine).memory = machine.memory) :
    Stays (modify change : Exec Unit) := by
  intro machine found after inStack done
  obtain ⟨-, rfl⟩ := Prod.mk.inj done
  exact inStack.congr (by rw [registers]) (by rw [memory])

/-- The stack pointer may be set to another place of the stack. -/
theorem InStack.put {machine : Machine} (inStack : machine.InStack) {place : Word}
    (low : Memory.stackBase ≤ place.toNat) (high : place.toNat ≤ machine.memory.stackTop) :
    InStack { machine with registers := assign machine.registers slotSP place } := by
  have read : (assign machine.registers slotSP place).get slotSP = place := by
    rw [get_assign, if_pos rfl]
  constructor
  case low => simpa only [read] using low
  case high => simpa only [read] using high
  case small => exact inStack.small

/-- A checked register may be set to anything: outside the stack is a fault. -/
theorem stays_putChecked (slot : Fin 12) (value : Word) : Stays (putChecked slot value) := by
  intro machine found after inStack done
  obtain ⟨_, middle, set, rest⟩ := ok_of_bind done
  by_cases pointer : slot = slotSP
  · subst pointer
    obtain ⟨-, rfl⟩ := Prod.mk.inj set
    rw [if_pos rfl] at rest
    have read : (assign machine.registers slotSP value).get slotSP = value := by
      rw [get_assign, if_pos rfl]
    obtain ⟨below, rest⟩ := ok_of_guard (ok_of_getThe (ok_of_get rest))
    dsimp only at below rest
    rw [read] at below rest
    by_cases above : (machine.memory.stackTop : Int) < value.toInt
    · rw [if_pos above] at rest
      exact nomatch (Prod.mk.inj rest).1
    rw [if_neg above] at rest
    obtain ⟨-, rfl⟩ := Prod.mk.inj rest
    unfold Memory.stackBase at below
    have number : (value.toNat : Int) = value.toInt := by
      rw [BitVec.toInt_eq_toNat_cond] at below above ⊢
      split at * <;> omega
    exact inStack.put (by unfold Memory.stackBase; omega) (by omega)
  · rw [if_neg pointer] at rest
    exact stays_pure () _ _ _ (stays_put pointer value _ _ _ inStack set) rest

theorem stays_push (value : Word) : Stays (push value) := by
  intro machine found after inStack done
  obtain ⟨room, rest⟩ := ok_of_guard (ok_of_getThe (ok_of_get done))
  obtain ⟨_, middle, registers, size, set⟩ := (still_store _ _ _).ok_of_bind rest
  obtain ⟨-, rfl⟩ := Prod.mk.inj set
  have inside := inStack.congr (congrArg (·.get slotSP) registers) size
  have high := inStack.high
  have top : middle.memory.stackTop = machine.memory.stackTop :=
    congrArg (Memory.stackBase + ·) size
  simp only [not_or, Nat.not_lt] at room
  have number : (machine.registers.get slotSP - 8).toNat =
      (machine.registers.get slotSP).toNat - 8 :=
    BitVec.toNat_sub_of_le (Nat.le_trans (by decide) room.1)
  exact inside.put (by omega) (by omega)

/-- A pop moves the stack pointer up inside the stack. -/
theorem stays_pop : Stays pop := by
  intro machine found after inStack done
  obtain ⟨room, rest⟩ := ok_of_guard (ok_of_getThe (ok_of_get done))
  obtain ⟨_, middle, registers, size, set⟩ := (still_load _ _).ok_of_bind rest
  obtain ⟨-, rfl⟩ := Prod.mk.inj set
  have inside := inStack.congr (congrArg (·.get slotSP) registers) size
  have low := inStack.low
  have high := inStack.high
  have small := inStack.small
  unfold Memory.dataBase at small
  have top : middle.memory.stackTop = machine.memory.stackTop :=
    congrArg (Memory.stackBase + ·) size
  simp only [not_or, Nat.not_lt] at room
  have eight : (8 : Word).toNat = 8 := rfl
  have number : (machine.registers.get slotSP + 8).toNat =
      (machine.registers.get slotSP).toNat + 8 := by
    rw [BitVec.toNat_add, eight, Nat.mod_eq_of_lt (by omega)]
  exact inside.put (by omega) (by omega)

/-- A store that is completed. -/
theorem ok_of_store {addr : Word} {size : AccessSize} {value : Word} {next : Unit → Exec β}
    {machine after : Machine} {found : β}
    (done : (store addr size value >>= next).run.run machine = (.ok found, after)) :
    ∃ memory : Memory, memory.stackSize = machine.memory.stackSize ∧
      memory.byteAt = Bytes.store machine.memory.byteAt addr.toNat size value ∧
      (next ()).run.run { machine with memory } = (.ok found, after) := by
  obtain ⟨_, middle, stored, rest⟩ := ok_of_bind done
  rw [store, changeMemory, run_bind, run_getThe] at stored
  dsimp only at stored
  rw [Memory.store?_eq] at stored
  split at stored
  · next memory found =>
    split at found
    · obtain rfl := Option.some.inj found
      obtain ⟨-, rfl⟩ := Prod.mk.inj stored
      exact ⟨_, (Memory.sameLayout_setBytes _ _ _).1, Memory.byteAt_setBytes _ _, rest⟩
    · contradiction
  · cases (Prod.mk.inj stored).1

/-- A frame header stands where the stack pointer is: it is inside the stack, and nothing else was
changed since a machine. -/
structure Headed (machine after : Machine) : Prop where
  inStack : after.InStack
  inside : (after.registers.get slotSP).toNat + frameHeader ≤ after.memory.stackTop
  same : ∀ place, place < (after.registers.get slotSP).toNat ∨
    (after.registers.get slotSP).toNat + frameHeader ≤ place →
    after.memory.byteAt place = machine.memory.byteAt place

/-- A call writes its frame header inside the stack, and nothing else. -/
theorem headed_of_callPiece {machine after : Machine} {index : Nat} {callee : Piece}
    {found : Unit} (inStack : machine.InStack)
    (done : (callPiece index callee).run.run machine = (.ok found, after)) :
    Headed machine after := by
  obtain ⟨room, rest⟩ := ok_of_guard (ok_of_get done)
  obtain ⟨first, size, bytes, rest⟩ := ok_of_store (ok_of_get rest)
  obtain ⟨second, size', bytes', rest⟩ := ok_of_store (ok_of_getThe rest)
  obtain ⟨third, size'', bytes'', rest⟩ := ok_of_store (ok_of_get rest)
  obtain ⟨-, rfl⟩ := Prod.mk.inj rest
  have high := inStack.high
  have top : third.stackTop = machine.memory.stackTop :=
    congrArg (Memory.stackBase + ·) ((size''.trans size').trans size)
  have less : ∀ distance : Word, distance.toNat ≤ 16 →
      (machine.registers.get slotSP - distance).toNat =
        (machine.registers.get slotSP).toNat - distance.toNat := fun distance small =>
    BitVec.toNat_sub_of_le (BitVec.le_def.mpr (by
      unfold frameHeader at room
      omega))
  have pointer : ∀ registers : Vector Word 12,
      (assign (assign (assign registers slotSP (machine.registers.get slotSP - 16)) slotBP
        (machine.registers.get slotSP - 16)) slotPC 0).get slotSP =
        machine.registers.get slotSP - 16 := by
    intro registers
    rw [get_assign, if_neg (by decide), get_assign, if_neg (by decide), get_assign, if_pos rfl]
  have four := less 4 (by decide)
  have eight := less 8 (by decide)
  have sixteen := less 16 (by decide)
  have numbers : (4 : Word).toNat = 4 ∧ (8 : Word).toNat = 8 ∧ (16 : Word).toNat = 16 :=
    ⟨rfl, rfl, rfl⟩
  unfold frameHeader at room
  refine ⟨⟨?_, ?_, ?_⟩, ?_, ?_⟩
  · show _ ≤ BitVec.toNat (Vector.get _ _)
    rw [pointer]
    omega
  · show BitVec.toNat (Vector.get _ _) ≤ third.stackTop
    rw [pointer]
    omega
  · exact top ▸ inStack.small
  · show BitVec.toNat (Vector.get _ _) + 16 ≤ third.stackTop
    rw [pointer]
    omega
  · intro place outside
    change place < BitVec.toNat (Vector.get _ _) ∨ BitVec.toNat (Vector.get _ _) + 16 ≤ place
      at outside
    rw [pointer] at outside
    show third.byteAt place = _
    rw [bytes'']
    dsimp only
    rw [bytes']
    dsimp only
    rw [bytes, Memory.store_of_outside, Memory.store_of_outside, Memory.store_of_outside] <;>
      simp only [AccessSize.bytes] <;> omega

theorem stays_callPiece (index : Nat) (callee : Piece) : Stays (callPiece index callee) :=
  fun _ _ _ inStack done => (headed_of_callPiece inStack done).inStack

theorem stays_call (prog : Program) (settings : Settings) (imm : Int) :
    Stays (call prog settings imm) := by
  unfold call
  split
  · cases Native.ofId? imm with
    | none => exact stays_throw _
    | some native => exact (modest_callNative settings native).stays
  split
  · exact stays_throw _
  · cases prog.pieces[(imm - 1).toNat]? with
    | none => exact stays_throw _
    | some callee => exact stays_callPiece _ callee

/-- A return moves the stack pointer up inside the stack, whatever was saved. -/
theorem stays_giveBack (prog : Program) : Stays (giveBack prog) := by
  intro machine found after inStack done
  have start := ok_of_get done
  replace start := ok_of_get start
  obtain ⟨-, rest⟩ := ok_of_guard start
  replace rest := ok_of_getThe rest
  dsimp only at rest
  split at rest
  · obtain ⟨-, rfl⟩ := Prod.mk.inj rest
    exact inStack.congr rfl rfl
  obtain ⟨room, rest⟩ := ok_of_guard rest
  obtain ⟨savedBase, first, registers, size, rest⟩ := (still_load _ _).ok_of_bind rest
  obtain ⟨piece, second, registers', size', rest⟩ := (still_load _ _).ok_of_bind rest
  obtain ⟨counter, third, registers'', size'', rest⟩ := (still_load _ _).ok_of_bind rest
  obtain ⟨-, rest⟩ := ok_of_guard rest
  obtain ⟨_, based, set, rest⟩ := ok_of_bind rest
  have inside := ((inStack.congr (congrArg (·.get slotSP) registers) size).congr
    (congrArg (·.get slotSP) registers') size').congr (congrArg (·.get slotSP) registers'') size''
  have framed := stays_put (by decide) savedBase third () based inside set
  obtain ⟨-, rfl⟩ := Prod.mk.inj set
  obtain ⟨_, moved, set, rest⟩ := ok_of_bind rest
  obtain ⟨-, rfl⟩ := Prod.mk.inj set
  have low := inStack.low
  have high := inStack.high
  have small := inStack.small
  unfold Memory.dataBase at small
  have top : third.memory.stackTop = machine.memory.stackTop :=
    congrArg (Memory.stackBase + ·) ((size''.trans size').trans size)
  have sixteen : (16 : Word).toNat = 16 := rfl
  have number : (machine.registers.get slotSP + 16).toNat =
      (machine.registers.get slotSP).toNat + 16 := by
    rw [BitVec.toNat_add, sixteen, Nat.mod_eq_of_lt (by omega)]
  have finish : Stays (do
      put slotPC counter
      modify fun machine => { machine with piece := piece.toInt.toNat } : Exec Unit) :=
    (stays_put (by decide) _).bind fun _ => stays_modify (fun _ => rfl) fun _ => rfl
  exact finish _ _ _ (framed.put (by omega)
        (by rw [show (Machine.memory _).stackTop = _ from top]; omega)) rest

/-- The slot that a register names is that of the stack pointer exactly for the stack pointer. -/
theorem slot_eq_slotSP {reg : Register} (slots : reg.slot? = some slot) :
    slot = slotSP ↔ reg = .stackPointer := by
  constructor
  · rintro rfl
    exact Register.slot_injective slots rfl
  · rintro rfl
    exact (Option.some.inj slots).symm

/-- What an operator gives is put somewhere else than into the stack pointer. -/
theorem stays_arithmetic (op : Opcode) (modifier : UInt8) {first : Fin 12} (second : Fin 12)
    (apart : first ≠ slotSP) : Stays (do
      match Arithmetic.apply op modifier (← get first) (← get second) with
      | .ok word => put first word
      | .error cause => throw cause) := by
  refine (still_get _).stays.bind fun left => (still_get _).stays.bind fun right => ?_
  cases Arithmetic.apply op modifier left right with
  | error cause => exact stays_throw _
  | ok word => exact stays_put apart word

/-- An instruction that does not stray keeps the stack pointer in the stack. -/
theorem stays_execute (prog : Program) (settings : Settings)
    (slots : fetched.instruction.first.slot? = some fetched.first)
    (stays : fetched.instruction.strays = false) : Stays (execute prog settings fetched) := by
  have free : fetched.instruction.op.setsFreely → fetched.first ≠ slotSP := by
    intro sets pointer
    have named := (slot_eq_slotSP slots).mp pointer
    simp [Instruction.strays, sets, named] at stays
  have arithmetic := fun (op : Opcode) (binary : op.isBinary)
          (same : fetched.instruction.op = op) =>
    stays_arithmetic op fetched.instruction.modifier fetched.second
      (free (by cases op <;> simp_all [Opcode.setsFreely]))
  have ended : ∀ running : Bool,
      Stays (modify fun machine => { machine with running } : Exec Unit) :=
    fun running => stays_modify (fun _ => rfl) fun _ => rfl
  have leap : ∀ distance : Word, Stays (jump distance) := fun distance =>
    (still_get _).stays.bind fun counter => stays_put (by decide) _
  unfold execute
  dsimp only
  cases found : fetched.instruction.op with
  | halt => exact ended false
  | nop => exact stays_pure _
  | cast =>
    dsimp only
    cases Conversion.ofCode? fetched.instruction.modifier with
    | none => exact stays_throw _
    | some conversion =>
      exact (still_get _).stays.bind fun _ => stays_put (free (by rw [found]; rfl)) _
  | move => exact (still_get _).stays.bind fun _ => stays_putChecked _ _
  | store =>
    exact ((still_get _).bind fun _ => (still_accessSize _).bind fun _ =>
      (still_get _).bind fun _ => still_store _ _ _).stays
  | load =>
    exact (still_get _).stays.bind fun _ => (still_accessSize _).stays.bind fun _ =>
      (still_load _ _).stays.bind fun _ => stays_put (free (by rw [found]; rfl)) _
  | push => exact (still_get _).stays.bind fun _ => stays_push _
  | pop => exact stays_pop.bind fun _ => stays_put (free (by rw [found]; rfl)) _
  | not => exact (still_get _).stays.bind fun _ => stays_put (free (by rw [found]; rfl)) _
  | giveBack => exact stays_giveBack prog
  | memzero =>
    exact ((still_get _).bind fun _ => (still_get _).bind fun _ => still_clear _ _).stays
  | loadImmediate => exact stays_put (free (by rw [found]; rfl)) _
  | jump => exact leap _
  | jumpZero =>
    refine (still_get _).stays.bind fun value => ?_
    by_cases zero : value = 0
    · rw [if_pos zero]
      exact leap _
    · rw [if_neg zero]
      exact stays_pure _
  | call => exact stays_call _ _ _
  | storeAt =>
    exact ((still_get _).bind fun _ => (still_accessSize _).bind fun _ =>
      (still_get _).bind fun _ => still_store _ _ _).stays
  | loadAt =>
    exact (still_get _).stays.bind fun _ => (still_accessSize _).stays.bind fun _ =>
      (still_load _ _).stays.bind fun _ => stays_put (free (by rw [found]; rfl)) _
  | dataPointer => exact stays_put (free (by rw [found]; rfl)) _
  | increase => exact (still_get _).stays.bind fun _ => stays_putChecked _ _
  | undefined excess => exact stays_throw _
  | add | sub | mul | div | and | or | equal | notEqual | less | greater | lessEqual
  | greaterEqual => exact arithmetic _ rfl found

/-- What a fetch finds: an instruction of the piece and the slots of its registers. -/
theorem fetched_spec {prog : Program} {machine : Machine} {width : Nat}
    (fetches : machine.fetch prog = (width, .ok fetched)) :
    fetched.instruction.first.slot? = some fetched.first ∧
      ∃ piece ∈ prog.pieces, ∃ cell : Nat,
        piece.code[cell]? = some (.instruction fetched.instruction) := by
  unfold fetch at fetches
  dsimp only at fetches
  split at fetches
  · exact nomatch (Prod.mk.inj fetches).2
  next instr here =>
  split at fetches
  · exact nomatch (Prod.mk.inj fetches).2
  split at fetches
  next first second firstSlot secondSlot =>
    obtain ⟨-, same⟩ := Prod.mk.inj fetches
    obtain rfl := Except.ok.inj same
    refine ⟨firstSlot, ?_⟩
    unfold Code.instruction? Code.cell? at here
    split at here
    next cell there =>
      split at there
      · contradiction
      obtain rfl := Option.some.inj here
      unfold code at there
      cases known : prog.pieces[machine.piece]? with
      | none => simp [known] at there
      | some piece =>
        rw [known] at there
        exact ⟨piece, Array.mem_of_getElem? known, _, there⟩
    · contradiction
  · exact nomatch (Prod.mk.inj fetches).2

/-- A step that is completed executes what it fetched. -/
theorem executed_of_step {prog : Program} {settings : Settings} {machine after : Machine}
    (stepped : machine.step prog settings = (after, none)) :
    ∃ width fetched moved, machine.fetch prog = (width, .ok fetched) ∧
      moved.registers = assign machine.registers slotPC
        (machine.registers.get slotPC + BitVec.ofNat 64 width) ∧
      moved.memory = machine.memory ∧
      (execute prog settings fetched).run.run moved = (.ok (), after) := by
  unfold step at stepped
  cases fetches : machine.fetch prog with
  | mk width outcome =>
    rw [fetches] at stepped
    cases outcome with
    | error cause => exact nomatch (Prod.mk.inj stepped).2
    | ok fetched =>
      dsimp only at stepped
      split at stepped
      · next executed =>
        obtain ⟨rfl, -⟩ := Prod.mk.inj stepped
        exact ⟨width, fetched, { machine with
          registers := assign machine.registers slotPC
            (machine.registers.get slotPC + BitVec.ofNat 64 width)
          steps := machine.steps + 1 }, rfl, rfl, rfl, executed⟩
      · exact nomatch (Prod.mk.inj stepped).2

theorem inStack_start {prog : Program} {settings : Settings} {files : FileSystem}
    {start : Machine} (started : start? prog settings files = .ok start) : start.InStack := by
  unfold start? at started
  split at started
  · split at started
    · contradiction
    next main found =>
    split at started
    · contradiction
    obtain rfl := Except.ok.inj started
    have size : (Machine.start prog settings files main).memory.stackSize =
        settings.effectiveStackSize := (Memory.sameLayout_setBytes _ _ _).1
    have small : settings.effectiveStackSize ≤ Memory.maxStackSize := by
      unfold Settings.effectiveStackSize
      split
      · decide
      · exact Nat.min_le_right _ _
    have top : (Machine.start prog settings files main).memory.stackTop ≤ Memory.dataBase := by
      unfold Memory.maxStackSize Memory.dataBase Memory.stackBase at small
      unfold Memory.stackTop Memory.dataBase Memory.stackBase
      omega
    have pointer : (Machine.start prog settings files main).registers.get slotSP =
        BitVec.ofNat 64 (Machine.start prog settings files main).memory.stackTop := by
      unfold Machine.start
      simp only [get_assign, if_neg (show slotBP ≠ slotSP by decide), ↓reduceIte]
    have number : ((Machine.start prog settings files main).registers.get slotSP).toNat =
        (Machine.start prog settings files main).memory.stackTop := by
      rw [pointer, BitVec.toNat_ofNat, Nat.mod_eq_of_lt]
      exact Nat.lt_of_le_of_lt top (by decide)
    exact ⟨by rw [number, Memory.stackTop]; exact Nat.le_add_right _ _, Nat.le_of_eq number, top⟩
  · contradiction

variable {prog : Program} {settings : Settings} {machine after : Machine}

/-- A completed step keeps the stack pointer in the stack unless its instruction strays. -/
theorem inStack_step (inStack : machine.InStack)
    (stepped : machine.step prog settings = (after, none)) :
    after.InStack ∨ ∃ width fetched, machine.fetch prog = (width, .ok fetched) ∧
      fetched.instruction.strays = true := by
  obtain ⟨width, fetched, moved, fetches, registers, memory, executed⟩ := executed_of_step stepped
  obtain ⟨slots, -⟩ := fetched_spec fetches
  cases strays : fetched.instruction.strays with
  | true => exact .inr ⟨width, fetched, fetches, strays⟩
  | false =>
    have inside : moved.InStack := by
      refine inStack.congr ?_ (congrArg Memory.stackSize memory)
      rw [registers, get_assign, if_neg (by decide)]
    exact .inl (stays_execute prog settings slots strays moved () after inside executed)

/-- A completed call of a piece writes its frame header inside the stack. -/
theorem headed_step (inStack : machine.InStack) {width : Nat}
    (stepped : machine.step prog settings = (after, none))
    (fetches : machine.fetch prog = (width, .ok fetched))
    (call : fetched.instruction.op = .call) (piece : 0 < fetched.immediate.toInt) :
    Headed machine after := by
  obtain ⟨width', fetched', moved, fetches', registers, memory, executed⟩ :=
    executed_of_step stepped
  obtain ⟨-, same⟩ := Prod.mk.inj (fetches.symm.trans fetches')
  obtain rfl := Except.ok.inj same
  have inside : moved.InStack := by
    refine inStack.congr ?_ (congrArg Memory.stackSize memory)
    rw [registers, get_assign, if_neg (by decide)]
  unfold execute at executed
  rw [call] at executed
  dsimp only [Machine.call] at executed
  rw [if_neg (by omega), if_neg (by omega)] at executed
  cases found : prog.pieces[(fetched.immediate.toInt - 1).toNat]? with
  | none =>
    rw [found] at executed
    exact nomatch (Prod.mk.inj executed).1
  | some callee =>
    rw [found] at executed
    have headed := headed_of_callPiece inside executed
    exact { headed with same := fun place outside => by rw [headed.same place outside, memory] }

/-- In a program that never strays, every machine that a run comes to by completed steps has its
stack pointer in the stack, and every call of a piece that it completes next writes its frame
header inside the stack and nothing else. -/
theorem inStack_of_reaches {files : FileSystem} {start : Machine} (never : prog.NeverStrays)
    (started : start? prog settings files = .ok start)
    (reaches : Reaches prog settings start machine) :
    machine.InStack ∧ ∀ after width fetched, machine.step prog settings = (after, none) →
      machine.fetch prog = (width, .ok fetched) → fetched.instruction.op = .call →
      0 < fetched.immediate.toInt → Headed machine after := by
  have inStack : machine.InStack := by
    induction reaches with
    | start => exact inStack_start started
    | step _ _ stepped ih =>
      rcases inStack_step ih stepped with inside | ⟨width, fetched, fetches, strays⟩
      · exact inside
      · obtain ⟨-, piece, mem, cell, here⟩ := fetched_spec fetches
        rw [never piece mem cell _ here] at strays
        contradiction
  exact ⟨inStack, fun after width fetched stepped fetches => headed_step inStack stepped fetches⟩

/-- A program that makes room on the stack and gives it back. -/
def lodger : Program where
  pieces := #[{
    name := "main"
    code := #[.instruction { op := .increase, first := .stackPointer }, .immediate (-16),
      .instruction { op := .increase, first := .stackPointer }, .immediate 16,
      .instruction { op := .giveBack }] }]
  linked := true

theorem inStack_of_reaches_lodger : lodger.NeverStrays ∧
    ∃ start after, start? lodger {} {} = .ok start ∧ Reaches lodger {} start after ∧
      (after.registers.get slotSP).toNat + 16 = start.memory.stackTop ∧ after.InStack := by
  have never : lodger.NeverStrays := by
    intro piece mem cell instr here
    simp only [lodger, List.mem_toArray, List.mem_singleton] at mem
    subst mem
    match cell with
    | 0 | 1 | 2 | 3 | 4 => simp at here <;> subst here <;> rfl
    | _ + 5 => simp at here
  have started : start? lodger {} {} = .ok (Machine.start lodger {} {} 0) := by
    have main : lodger.lookup? "main" = some 0 := by decide
    simp only [start?, main]
    rfl
  have reaches : Reaches lodger {} (Machine.start lodger {} {} 0)
      ((Machine.start lodger {} {} 0).step lodger {}).1 := .step .start rfl rfl
  exact ⟨never, _, _, started, reaches, rfl, (inStack_of_reaches never started reaches).1⟩

/-- A program that sets its stack pointer to zero. -/
def astray : Program where
  pieces := #[{ name := "main", code := #[.instruction { op := .loadImmediate, first :=
    .stackPointer },
    .immediate 0, .instruction { op := .halt }] }]
  linked := true

/-- Loading an immediate puts the stack pointer below the stack without a fault. -/
theorem astray_leaves_stack : ∃ start after, start? astray {} {} = .ok start ∧
    Reaches astray {} start after ∧ (after.registers.get slotSP).toNat = 0 ∧ ¬ after.InStack := by
  have started : start? astray {} {} = .ok (Machine.start astray {} {} 0) := by
    have main : astray.lookup? "main" = some 0 := by decide
    simp only [start?, main]
    rfl
  refine ⟨_, ((Machine.start astray {} {} 0).step astray {}).1, started,
    .step .start rfl rfl, rfl, ?_⟩
  intro inStack
  exact absurd inStack.low (by decide)

end Machine

end TinLang
