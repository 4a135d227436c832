import TinLang.Proofs.Machine.Regions
import TinLang.Proofs.Machine.Slots

/-!
# Words moved through the operand stack

Code that moves a value loads and pushes its scalars one after another, and pops and stores them
from the last to the first; code that takes a member out of a value moves words up inside the
operand stack. Both are transfers without jumps. What they do is said first of a view of the machine
(`Performs`), and a machine that stands before their cells does the same (`performs_reaches`). A
value comes out where it is stored as it was where it was loaded, because every scalar is loaded
before the first is stored (`performs_copying`); words that move up are read before they are
overwritten, because the first moves first (`performs_lifting`).
-/
namespace TinLang

variable {size : AccessSize} {count : Nat}

/-- A scalar at a distance from what a register holds. -/
structure Operand where
  base : Register
  slot : Slot
  deriving DecidableEq, Repr

/-- An instruction that moves words, or the stack pointer over them. -/
inductive Transfer where
  | load (source : Operand)
  | push
  | pop
  | store (target : Operand)
  | raise (count : Nat)
  deriving DecidableEq, Repr

/-- The cells of a transfer. Values go through register A. -/
def Transfer.cells : Transfer → List Cell
  | .load ⟨base, slot⟩ => [.instruction ⟨.loadAt, .a, base, slot.size.toUInt8⟩,
      .immediate (.ofInt 32 slot.offset)]
  | .push => [.instruction ⟨.push, .a, .unused, 0⟩]
  | .pop => [.instruction ⟨.pop, .a, .unused, 0⟩]
  | .store ⟨base, slot⟩ => [.instruction ⟨.storeAt, base, .a, slot.size.toUInt8⟩,
      .immediate (.ofInt 32 slot.offset)]
  | .raise count =>
    [.instruction ⟨.increase, .stackPointer, .unused, 0⟩, .immediate (.ofInt 32 count)]

/-- What transfers change: register A, the stack pointer and bytes. -/
structure View where
  a : Word
  pointer : Nat
  bytes : Bytes

/-- The address of a scalar, given what the other registers hold. -/
def View.address (view : View) (origin : Register → Word) (operand : Operand) : Nat :=
  ((if operand.base = .stackPointer then BitVec.ofNat 64 view.pointer else origin operand.base) +
    (BitVec.ofInt 32 operand.slot.offset).signExtend 64).toNat

/-- What a transfer does in a memory with some layout, when nothing refuses it. -/
inductive Moves (memory : Memory) (origin : Register → Word) : Transfer → View → View → Prop where
  | load {source : Operand} {size : AccessSize} {view : View}
    (width : AccessSize.ofCode? source.slot.size.toUInt8 = some size)
    (inside : memory.addressable (view.address origin source) size.bytes = true) :
    Moves memory origin (.load source) view
      { view with a := view.bytes.word (view.address origin source) size }
  | push {view : View} (low : Memory.stackBase + 8 ≤ view.pointer)
    (high : view.pointer ≤ memory.stackTop) :
    Moves memory origin .push view { view with
      pointer := view.pointer - 8, bytes := view.bytes.store (view.pointer - 8) .eight view.a }
  | pop {view : View} (low : Memory.stackBase ≤ view.pointer)
    (high : view.pointer + 8 ≤ memory.stackTop) :
    Moves memory origin .pop view { view with
      a := view.bytes.word view.pointer .eight, pointer := view.pointer + 8 }
  | store {target : Operand} {size : AccessSize} {view : View}
    (width : AccessSize.ofCode? target.slot.size.toUInt8 = some size)
    (inside : memory.addressable (view.address origin target) size.bytes = true) :
    Moves memory origin (.store target) view
      { view with bytes := view.bytes.store (view.address origin target) size view.a }
  | raise {count : Nat} {view : View} (small : count < 2 ^ 31)
    (low : Memory.stackBase ≤ view.pointer) (high : view.pointer + count ≤ memory.stackTop) :
    Moves memory origin (.raise count) view { view with pointer := view.pointer + count }

/-- What transfers do one after another. -/
inductive Performs (memory : Memory) (origin : Register → Word) :
    List Transfer → View → View → Prop where
  | nil (view : View) : Performs memory origin [] view view
  | cons {transfer : Transfer} {transfers : List Transfer} {view between after : View}
    (first : Moves memory origin transfer view between)
    (rest : Performs memory origin transfers between after) :
    Performs memory origin (transfer :: transfers) view after

variable {memory : Memory} {origin : Register → Word} {view between after : View}

theorem Performs.append {first second : List Transfer}
    (one : Performs memory origin first view between)
    (two : Performs memory origin second between after) :
    Performs memory origin (first ++ second) view after := by
  induction one with
  | nil => exact two
  | cons move _ ih => exact .cons move (ih two)

namespace Machine

variable {prog : Program} {settings : Settings} {machine : Machine} {code : Code}
  {index cell : Nat}

/-- A machine at a cell of a piece holds what a view shows. -/
structure Stands (prog : Program) (code : Code) (index : Nat) (memory : Memory)
    (origin : Register → Word) (cell : Nat) (view : View) (machine : Machine) : Prop where
  running : machine.running = true
  piece : machine.piece = index
  code : machine.code prog = code
  counter : machine.registers.get slotPC = BitVec.ofNat 64 cell
  a : ∀ slot, Register.a.slot? = some slot → machine.registers.get slot = view.a
  pointer : machine.registers.get slotSP = BitVec.ofNat 64 view.pointer
  others : ∀ reg slot, reg.slot? = some slot → reg ≠ .a →
    reg ≠ .stackPointer → reg ≠ .counter → machine.registers.get slot = origin reg
  layout : memory.SameLayout machine.memory
  bytes : machine.memory.byteAt = view.bytes

/-- A step executes the instruction at the counter. -/
theorem step_of_fetch {fetched : Fetched} {width : Nat} {later : Machine}
    (fetches : machine.fetch prog = (width, .ok fetched))
    (counter : machine.registers.get slotPC = BitVec.ofNat 64 cell)
    (run : (execute prog settings fetched).run.run (machine.moved (cell + width)) =
      (.ok (), later)) : machine.step prog settings = (later, none) := by
  have start : machine.moved (cell + width) = { machine with
      registers := assign machine.registers slotPC
        (machine.registers.get slotPC + BitVec.ofNat 64 width)
      steps := machine.steps + 1 } := by
    rw [counter, ← BitVec.ofNat_add]
    rfl
  rw [step, fetches]
  dsimp only
  rw [← start, run]

theorem get_moved (machine : Machine) (next : Nat) (slot : Fin 12) :
    (machine.moved next).registers.get slot =
      if slotPC = slot then BitVec.ofNat 64 next else machine.registers.get slot :=
  get_assign ..

namespace Stands

/-- Only the counter moves. -/
theorem moved (stands : Stands prog code index memory origin cell view machine) (next : Nat) :
    Stands prog code index memory origin next view (machine.moved next) :=
  { stands with
    counter := by rw [get_moved, if_pos rfl]
    a := fun slot slots => by
      have value := stands.a slot slots
      obtain rfl := Option.some.inj slots
      rwa [get_moved, if_neg (by decide)]
    pointer := by
      rw [get_moved, if_neg (by decide)]
      exact stands.pointer
    others := fun reg slot slots a pointer counter => by
      have other : slotPC ≠ slot := by
        rintro rfl
        exact counter (Register.slot_injective slots rfl)
      rw [get_moved, if_neg other]
      exact stands.others reg slot slots a pointer counter }

/-- Another value in register A. -/
theorem put_a (stands : Stands prog code index memory origin cell view machine) (value : Word) :
    Stands prog code index memory origin cell { view with a := value }
      { machine with registers := assign machine.registers 1 value } :=
  { stands with
    counter := by
      rw [get_assign, if_neg (by decide)]
      exact stands.counter
    a := fun slot slots => by
      obtain rfl := Option.some.inj slots
      rw [get_assign, if_pos rfl]
    pointer := by
      rw [get_assign, if_neg (by decide)]
      exact stands.pointer
    others := fun reg slot slots a pointer counter => by
      have apart : (1 : Fin 12) ≠ slot := by
        rintro rfl
        exact a (Register.slot_injective slots rfl)
      rw [get_assign, if_neg apart]
      exact stands.others reg slot slots a pointer counter }

/-- Another stack pointer. -/
theorem put_pointer (stands : Stands prog code index memory origin cell view machine)
    (pointer : Nat) : Stands prog code index memory origin cell { view with pointer }
      { machine with registers := assign machine.registers slotSP (BitVec.ofNat 64 pointer) } :=
  { stands with
    counter := by
      rw [get_assign, if_neg (by decide)]
      exact stands.counter
    a := fun slot slots => by
      have value := stands.a slot slots
      obtain rfl := Option.some.inj slots
      rwa [get_assign, if_neg (by decide)]
    pointer := by rw [get_assign, if_pos rfl]
    others := fun reg slot slots a stack counter => by
      have apart : slotSP ≠ slot := by
        rintro rfl
        exact stack (Register.slot_injective slots rfl)
      rw [get_assign, if_neg apart]
      exact stands.others reg slot slots a stack counter }

/-- The same registers with other bytes. -/
theorem setBytes (stands : Stands prog code index memory origin cell view machine) (addr : Nat)
    (text : Text) : Stands prog code index memory origin cell
      { view with bytes := view.bytes.overwrite addr text }
      { machine with memory := machine.memory.setBytes addr text } :=
  { stands with
    layout := by
      obtain ⟨stack, data, heap⟩ := stands.layout
      obtain ⟨stack', data', heap'⟩ := machine.memory.sameLayout_setBytes addr text
      exact ⟨stack'.trans stack, data'.trans data, heap'.trans heap⟩
    bytes := by rw [Memory.byteAt_setBytes, stands.bytes] }

/-- The address that an access through a register uses. -/
theorem address_eq (stands : Stands prog code index memory origin cell view machine)
    {operand : Operand} {slot : Fin 12} (slots : operand.base.slot? = some slot)
    (free : operand.base ≠ .a ∧ operand.base ≠ .counter) (next : Nat) :
    ((machine.moved next).registers.get slot +
      (BitVec.ofInt 32 operand.slot.offset).signExtend 64).toNat = view.address origin operand := by
  have other : slotPC ≠ slot := by
    rintro rfl
    exact free.2 (Register.slot_injective slots rfl)
  have value : (machine.moved next).registers.get slot = machine.registers.get slot := by
    rw [get_moved, if_neg other]
  rw [value, View.address]
  split
  · next stack =>
    rw [stack] at slots
    obtain rfl := Option.some.inj slots
    exact congrArg (fun word : Word => (word +
      (BitVec.ofInt 32 operand.slot.offset).signExtend 64).toNat) stands.pointer
  · next other => rw [stands.others _ slot slots free.1 other free.2]

theorem top_eq (stands : Stands prog code index memory origin cell view machine) :
    machine.memory.stackTop = memory.stackTop := by
  rw [Memory.stackTop, Memory.stackTop, stands.layout.1]

theorem load?_eq (stands : Stands prog code index memory origin cell view machine)
    {addr : Nat} (inside : memory.addressable addr size.bytes = true) :
    machine.memory.load? addr size = some (view.bytes.word addr size) := by
  rw [Memory.load?, Memory.read?, stands.layout.addressable_eq, if_pos inside, Int.toNat_natCast,
    Memory.bytesAt_eq, stands.bytes]
  rfl

theorem store?_eq (stands : Stands prog code index memory origin cell view machine)
    {addr : Nat} (inside : memory.addressable addr size.bytes = true)
    (value : Word) : machine.memory.store? addr size value =
      some (machine.memory.setBytes addr (Memory.bytesOf size.bytes value.toNat)) := by
  rw [Memory.store?_eq, stands.layout.addressable_eq, if_pos inside]

end Stands

/-- The stack is addressable. -/
theorem addressable_stack {addr : Nat} (low : Memory.stackBase ≤ addr)
    (high : addr + count ≤ memory.stackTop) : memory.addressable addr count = true :=
  Memory.addressable_of_covers (.inl ⟨low, high⟩)

/-- Transfers take addresses from registers that exist and that they do not use otherwise. -/
def Known : Transfer → Prop
  | .load ⟨base, _⟩ | .store ⟨base, _⟩ => base.slot?.isSome ∧ base ≠ .a ∧ base ≠ .counter
  | _ => True

/-- A pointer into the stack is no larger than a word. -/
theorem toNat_pointer (stack : memory.stackSize ≤ Memory.maxStackSize) {pointer : Nat}
    (high : pointer ≤ memory.stackTop) :
    (BitVec.ofNat 64 pointer).toNat = pointer ∧ pointer ≤ Memory.dataBase := by
  have top : memory.stackTop ≤ Memory.dataBase := by
    unfold Memory.stackTop
    have room : Memory.stackBase + Memory.maxStackSize = Memory.dataBase := rfl
    omega
  have bound : Memory.dataBase < 2 ^ 64 := by decide
  exact ⟨by rw [BitVec.toNat_ofNat, Nat.mod_eq_of_lt (by omega)], by omega⟩

namespace Stands

theorem counter_eq (stands : Stands prog code index memory origin cell view machine)
    (small : cell < 2 ^ 31) : machine.counter = cell := by
  rw [Machine.counter, stands.counter, BitVec.toInt_ofNat']
  exact Int.bmod_eq_of_le (by omega) (by omega)

/-- The fetch of an instruction with an immediate. -/
theorem fetch_wide (stands : Stands prog code index memory origin cell view machine)
    {instr : Instruction} {imm : BitVec 32} {cells : List Cell} {first second : Fin 12}
    (here : ∀ place < cells.length, code[cell + place]? = cells[place]?)
    (shape : cells = [.instruction instr, .immediate imm])
    (wide : instr.op.hasImmediate) (small : cell < 2 ^ 31)
    (firstSlot : instr.first.slot? = some first)
    (secondSlot : instr.second.slot? = some second) :
    machine.fetch prog = (2, .ok ⟨instr, imm, first, second⟩) := by
  subst shape
  have place := stands.counter_eq small
  have natural : ¬ (cell : Int) < 0 := by omega
  have following : ¬ (cell : Int) + 1 < 0 := by omega
  have later : ((cell : Int) + 1).toNat = cell + 1 := by omega
  have instr := here 0 Nat.two_pos
  have operand := here 1 Nat.one_lt_two
  rw [← stands.code] at instr operand
  simp at instr operand
  simp [fetch, place, Code.instruction?, Code.immediate?, Code.cell?, natural, following, later,
    instr, operand, wide, firstSlot, secondSlot]

/-- The fetch of an instruction without an immediate. -/
theorem fetch_narrow (stands : Stands prog code index memory origin cell view machine)
    {instr : Instruction} {cells : List Cell} {first second : Fin 12}
    (here : ∀ place < cells.length, code[cell + place]? = cells[place]?)
    (shape : cells = [.instruction instr]) (narrow : instr.op.hasImmediate = false)
    (small : cell < 2 ^ 31) (firstSlot : instr.first.slot? = some first)
    (secondSlot : instr.second.slot? = some second) :
    machine.fetch prog = (1, .ok ⟨instr, 0, first, second⟩) := by
  subst shape
  have place := stands.counter_eq small
  have natural : ¬ (cell : Int) < 0 := by omega
  have instr := here 0 Nat.one_pos
  rw [← stands.code] at instr
  simp at instr
  simp [fetch, place, Code.instruction?, Code.cell?, natural, instr, narrow, firstSlot,
    secondSlot]

variable (stands : Stands prog code index memory origin cell view machine)
  (settings : Settings)

include stands

theorem step_load {source : Operand} (known : Known (.load source))
    (here : ∀ place < (Transfer.load source).cells.length,
      code[cell + place]? = (Transfer.load source).cells[place]?) (small : cell < 2 ^ 31)
    (width : AccessSize.ofCode? source.slot.size.toUInt8 = some size)
    (inside : memory.addressable (view.address origin source) size.bytes = true) :
    ∃ later, machine.step prog settings = (later, none) ∧
      Stands prog code index memory origin (cell + 2)
        { view with a := view.bytes.word (view.address origin source) size } later := by
  obtain ⟨exists', free⟩ := known
  obtain ⟨place, slots⟩ := Option.isSome_iff_exists.mp exists'
  have first : Register.a.slot? = some 1 := rfl
  have fetches := stands.fetch_wide here rfl rfl small first slots
  have addr := stands.address_eq slots free (cell + 2)
  have loaded : (machine.moved (cell + 2)).memory.load?
    ((machine.moved (cell + 2)).registers.get place +
      (BitVec.ofInt 32 source.slot.offset).signExtend 64).toNat size =
      some (view.bytes.word (view.address origin source) size) := by
    rw [addr]
    exact stands.load?_eq inside
  have run : (execute prog settings ⟨⟨.loadAt, .a, source.base, source.slot.size.toUInt8⟩,
      .ofInt 32 source.slot.offset, 1, place⟩).run.run (machine.moved (cell + 2)) = (.ok (),
        { machine.moved (cell + 2) with
          registers := assign (machine.moved (cell + 2)).registers 1
            (view.bytes.word (view.address origin source) size) }) := by
    simp only [execute, run_bind, run_get, run_accessSize width, run_load loaded, run_put]
  exact ⟨_, step_of_fetch fetches stands.counter run, (stands.moved _).put_a _⟩

theorem step_store {target : Operand} (known : Known (.store target))
    (here : ∀ place < (Transfer.store target).cells.length,
      code[cell + place]? = (Transfer.store target).cells[place]?) (small : cell < 2 ^ 31)
    (width : AccessSize.ofCode? target.slot.size.toUInt8 = some size)
    (inside : memory.addressable (view.address origin target) size.bytes = true) :
    ∃ later, machine.step prog settings = (later, none) ∧
      Stands prog code index memory origin (cell + 2)
        { view with bytes := view.bytes.store (view.address origin target) size view.a } later := by
  obtain ⟨exists', free⟩ := known
  obtain ⟨place, slots⟩ := Option.isSome_iff_exists.mp exists'
  have first : Register.a.slot? = some 1 := rfl
  have fetches := stands.fetch_wide here rfl rfl small slots first
  have addr := stands.address_eq slots free (cell + 2)
  have value : (machine.moved (cell + 2)).registers.get 1 = view.a := by
    rw [get_moved, if_neg (by decide), stands.a 1 first]
  have stored : (machine.moved (cell + 2)).memory.store?
    ((machine.moved (cell + 2)).registers.get place +
      (BitVec.ofInt 32 target.slot.offset).signExtend 64).toNat size
        ((machine.moved (cell + 2)).registers.get 1) =
      some (machine.memory.setBytes (view.address origin target)
        (Memory.bytesOf size.bytes view.a.toNat)) := by
    rw [addr, value]
    exact stands.store?_eq inside view.a
  have run : (execute prog settings ⟨⟨.storeAt, target.base, .a, target.slot.size.toUInt8⟩,
      .ofInt 32 target.slot.offset, place, 1⟩).run.run (machine.moved (cell + 2)) = (.ok (),
        { machine.moved (cell + 2) with
          memory := machine.memory.setBytes (view.address origin target)
            (Memory.bytesOf size.bytes view.a.toNat) }) := by
    simp only [execute, run_bind, run_get, run_accessSize width, run_store stored]
  exact ⟨_, step_of_fetch fetches stands.counter run, (stands.moved _).setBytes _ _⟩

theorem step_push (here : ∀ place < Transfer.push.cells.length,
      code[cell + place]? = Transfer.push.cells[place]?) (small : cell < 2 ^ 31)
    (stack : memory.stackSize ≤ Memory.maxStackSize) (low : Memory.stackBase + 8 ≤ view.pointer)
    (high : view.pointer ≤ memory.stackTop) :
    ∃ later, machine.step prog settings = (later, none) ∧
      Stands prog code index memory origin (cell + 1) { view with
        pointer := view.pointer - 8
        bytes := view.bytes.store (view.pointer - 8) .eight view.a } later := by
  have first : Register.a.slot? = some 1 := rfl
  have fetches := stands.fetch_narrow here rfl rfl small first rfl
  obtain ⟨number, -⟩ := toNat_pointer stack high
  have pointer : (machine.moved (cell + 1)).registers.get slotSP = BitVec.ofNat 64
    view.pointer := by
    rw [get_moved, if_neg (by decide), stands.pointer]
  have value : (machine.moved (cell + 1)).registers.get 1 = view.a := by
    rw [get_moved, if_neg (by decide), stands.a 1 first]
  have below : BitVec.ofNat 64 view.pointer - 8 = BitVec.ofNat 64 (view.pointer - 8) := by
    apply BitVec.eq_of_toNat_eq
    rw [BitVec.toNat_sub_of_le (by rw [BitVec.le_def, number]; exact Nat.le_trans (by decide) low),
      number, (toNat_pointer stack (Nat.le_trans (Nat.sub_le _ 8) high)).1]
    rfl
  have room : ¬ (((machine.moved (cell + 1)).registers.get slotSP).toNat < Memory.stackBase + 8 ∨
      (machine.moved (cell + 1)).memory.stackTop <
        ((machine.moved (cell + 1)).registers.get slotSP).toNat) := by
    rw [pointer, number, show (machine.moved (cell + 1)).memory.stackTop = _ from stands.top_eq]
    omega
  have inside : memory.addressable (view.pointer - 8) AccessSize.eight.bytes = true :=
    addressable_stack (by omega) (by simp only [AccessSize.bytes]; omega)
  have stored : (machine.moved (cell + 1)).memory.store?
      ((machine.moved (cell + 1)).registers.get slotSP - 8).toNat .eight
        ((machine.moved (cell + 1)).registers.get 1) =
          some (machine.memory.setBytes (view.pointer - 8)
          (Memory.bytesOf AccessSize.eight.bytes view.a.toNat)) := by
    rw [pointer, value, below, (toNat_pointer stack (Nat.le_trans (Nat.sub_le _ 8) high)).1]
    exact stands.store?_eq inside view.a
  have run : (execute prog settings ⟨⟨.push, .a, .unused, 0⟩, 0, 1, 0⟩).run.run
      (machine.moved (cell + 1)) = (.ok (), { machine.moved (cell + 1) with
        registers := assign (machine.moved (cell + 1)).registers slotSP
          (BitVec.ofNat 64 (view.pointer - 8))
        memory := machine.memory.setBytes (view.pointer - 8)
          (Memory.bytesOf AccessSize.eight.bytes view.a.toNat) }) := by
    simp only [execute, run_bind, run_get, run_push room stored, pointer, below]
  exact ⟨_, step_of_fetch fetches stands.counter run,
    ((stands.moved _).put_pointer (view.pointer - 8)).setBytes _ _⟩

theorem step_pop (here : ∀ place < Transfer.pop.cells.length,
      code[cell + place]? = Transfer.pop.cells[place]?) (small : cell < 2 ^ 31)
    (stack : memory.stackSize ≤ Memory.maxStackSize) (low : Memory.stackBase ≤ view.pointer)
    (high : view.pointer + 8 ≤ memory.stackTop) :
    ∃ later, machine.step prog settings = (later, none) ∧
      Stands prog code index memory origin (cell + 1) { view with
        a := view.bytes.word view.pointer .eight, pointer := view.pointer + 8 } later := by
  have first : Register.a.slot? = some 1 := rfl
  have fetches := stands.fetch_narrow here rfl rfl small first rfl
  obtain ⟨number, -⟩ := toNat_pointer stack (Nat.le_trans (Nat.le_add_right view.pointer 8) high)
  obtain ⟨above, -⟩ := toNat_pointer stack high
  have pointer : (machine.moved (cell + 1)).registers.get slotSP = BitVec.ofNat 64
    view.pointer := by
    rw [get_moved, if_neg (by decide), stands.pointer]
  have next : BitVec.ofNat 64 view.pointer + 8 = BitVec.ofNat 64 (view.pointer + 8) :=
    (BitVec.ofNat_add view.pointer 8).symm
  have room : ¬ (((machine.moved (cell + 1)).registers.get slotSP).toNat < Memory.stackBase ∨
      (machine.moved (cell + 1)).memory.stackTop <
        ((machine.moved (cell + 1)).registers.get slotSP + 8).toNat) := by
    rw [pointer, next, number, above, show (machine.moved (cell + 1)).memory.stackTop = _ from
      stands.top_eq]
    omega
  have loaded : (machine.moved (cell + 1)).memory.load?
      ((machine.moved (cell + 1)).registers.get slotSP).toNat .eight =
        some (view.bytes.word view.pointer .eight) := by
    rw [pointer, number]
    exact stands.load?_eq (addressable_stack low high)
  have run : (execute prog settings ⟨⟨.pop, .a, .unused, 0⟩, 0, 1, 0⟩).run.run
      (machine.moved (cell + 1)) = (.ok (), { machine.moved (cell + 1) with
        registers := assign (assign (machine.moved (cell + 1)).registers slotSP
          (BitVec.ofNat 64 (view.pointer + 8))) 1 (view.bytes.word view.pointer .eight) }) := by
    simp only [execute, run_bind, run_pop room loaded, run_put, pointer, next]
  exact ⟨_, step_of_fetch fetches stands.counter run,
    ((stands.moved _).put_pointer (view.pointer + 8)).put_a _⟩

theorem step_raise (here : ∀ place < (Transfer.raise count).cells.length,
      code[cell + place]? = (Transfer.raise count).cells[place]?) (small : cell < 2 ^ 31)
    (stack : memory.stackSize ≤ Memory.maxStackSize) (few : count < 2 ^ 31)
    (low : Memory.stackBase ≤ view.pointer) (high : view.pointer + count ≤ memory.stackTop) :
    ∃ later, machine.step prog settings = (later, none) ∧
      Stands prog code index memory origin (cell + 2)
        { view with pointer := view.pointer + count } later := by
  have fetches := stands.fetch_wide here rfl rfl small (show Register.stackPointer.slot? =
    some slotSP
    from rfl) (show Register.unused.slot? = some 0 from rfl)
  obtain ⟨above, bound⟩ := toNat_pointer stack high
  have data : Memory.dataBase < 2 ^ 31 := by decide
  have pointer : (machine.moved (cell + 2)).registers.get slotSP = BitVec.ofNat 64
    view.pointer := by
    rw [get_moved, if_neg (by decide), stands.pointer]
  have distance : (BitVec.ofInt 32 (count : Int)).signExtend 64 = BitVec.ofNat 64 count := by
    apply BitVec.eq_of_toInt_eq
    rw [BitVec.toInt_signExtend_of_le (by decide), BitVec.toInt_ofInt, BitVec.toInt_ofNat',
      Int.bmod_eq_of_le (by omega) (by omega), Int.bmod_eq_of_le (by omega) (by omega)]
  have next : BitVec.ofNat 64 view.pointer + (BitVec.ofInt 32 (count : Int)).signExtend 64 =
      BitVec.ofNat 64 (view.pointer + count) := by
    rw [distance, BitVec.ofNat_add]
  have number : (BitVec.ofNat 64 (view.pointer + count)).toInt = (view.pointer + count : Nat) := by
    rw [BitVec.toInt_ofNat']
    exact Int.bmod_eq_of_le (by omega) (by omega)
  have least : ¬ ((view.pointer + count : Nat) : Int) < Memory.stackBase := by omega
  have most : ¬ ((machine.moved (cell + 2)).memory.stackTop : Int) <
    (view.pointer + count : Nat) := by
    rw [show (machine.moved (cell + 2)).memory.stackTop = _ from stands.top_eq]
    omega
  have read : ((assign (machine.moved (cell + 2)).registers slotSP
      (BitVec.ofNat 64 (view.pointer + count))).get slotSP).toInt =
        (view.pointer + count : Nat) := by
    rw [get_assign, if_pos rfl, number]
  have run : (execute prog settings ⟨⟨.increase, .stackPointer, .unused, 0⟩,
      .ofInt 32 count, slotSP, 0⟩).run.run (machine.moved (cell + 2)) = (.ok (),
        { machine.moved (cell + 2) with
          registers := assign (machine.moved (cell + 2)).registers slotSP
            (BitVec.ofNat 64 (view.pointer + count)) }) := by
    simp only [execute, putChecked, checkPointer, run_bind, run_get, run_put,
      run_getThe, ↓reduceIte,
      pointer, next, read, least, most, run_pure]
  exact ⟨_, step_of_fetch fetches stands.counter run, (stands.moved _).put_pointer _⟩

/-- A machine that stands before a transfer does in one step what the transfer does. -/
theorem step {transfer : Transfer} (moves : Moves memory origin transfer view after)
    (known : Known transfer)
    (here : ∀ place < transfer.cells.length, code[cell + place]? = transfer.cells[place]?)
    (small : cell < 2 ^ 31) (stack : memory.stackSize ≤ Memory.maxStackSize) :
    ∃ later, machine.step prog settings = (later, none) ∧
      Stands prog code index memory origin (cell + transfer.cells.length) after later := by
  cases moves with
  | load width inside => exact stands.step_load settings known here small width inside
  | push low high => exact stands.step_push settings here small stack low high
  | pop low high => exact stands.step_pop settings here small stack low high
  | store width inside => exact stands.step_store settings known here small width inside
  | raise few low high => exact stands.step_raise settings here small stack few low high

end Stands

theorem Reaches.trans {start middle last : Machine} (first : Reaches prog settings start middle)
    (second : Reaches prog settings middle last) : Reaches prog settings start last := by
  induction second with
  | start => exact first
  | step _ running stepped ih => exact .step ih running stepped

/-- A machine that stands before transfers does what they do. -/
theorem performs_reaches (settings : Settings) {transfers : List Transfer}
    (performs : Performs memory origin transfers view after)
    (known : ∀ transfer ∈ transfers, Known transfer)
    (stands : Stands prog code index memory origin cell view machine)
    (here : ∀ place < (transfers.flatMap Transfer.cells).length,
      code[cell + place]? = (transfers.flatMap Transfer.cells)[place]?)
    (small : cell + (transfers.flatMap Transfer.cells).length < 2 ^ 31)
    (stack : memory.stackSize ≤ Memory.maxStackSize) :
    ∃ later, Reaches prog settings machine later ∧ Stands prog code index memory origin
      (cell + (transfers.flatMap Transfer.cells).length) after later := by
  induction performs generalizing cell machine with
  | nil => exact ⟨machine, .start, stands⟩
  | @cons transfer transfers view between after move _ ih =>
    rw [List.flatMap_cons, List.length_append] at here small
    obtain ⟨next, stepped, reached⟩ := stands.step settings move (known _ List.mem_cons_self)
      (fun place inside => by rw [here place (by omega), List.getElem?_append_left inside])
      (by omega) stack
    obtain ⟨later, reaches, ends⟩ := ih (fun other mem => known other (List.mem_cons_of_mem _ mem))
      reached (fun place inside => by
        rw [Nat.add_assoc, here _ (by omega), List.getElem?_append_right (Nat.le_add_right _ _),
          Nat.add_sub_cancel_left]) (by omega)
    refine ⟨later, Reaches.trans (.step .start stands.running stepped) reaches, ?_⟩
    rw [List.flatMap_cons, List.length_append, ← Nat.add_assoc]
    exact ends

end Machine

/-- Where a value lies: at a distance from what a register holds. -/
structure Spot where
  base : Register
  offset : Int
  deriving DecidableEq, Repr

/-- A scalar of the value at a spot. -/
def Spot.at (spot : Spot) (slot : Slot) : Operand := ⟨spot.base, slot.shift spot.offset⟩

/-- Transfers that move scalars from one spot to another. The last scalar that is loaded is not
pushed, because it is the first that is stored. -/
def copying (source target : Spot) : List Slot → List Transfer
  | [] => []
  | [slot] => [.load (source.at slot), .store (target.at slot)]
  | slot :: next :: slots => .load (source.at slot) :: .push ::
      (copying source target (next :: slots) ++ [.pop, .store (target.at slot)])

/-- A scalar of the value at a spot lies where it does in a value at an address, is addressable and
does not meet a stretch of the stack. -/
structure Spot.Lies (spot : Spot) (memory : Memory) (origin : Register → Word)
    (addr low high : Nat) (slot : Slot) : Prop where
  place : (origin spot.base + (BitVec.ofInt 32 (slot.offset + spot.offset)).signExtend 64).toNat =
    addr + slot.offset.toNat
  inside : memory.addressable (addr + slot.offset.toNat) slot.size = true
  clear : addr + slot.offset.toNat + slot.size ≤ low ∨ high ≤ addr + slot.offset.toNat

namespace Spot

variable {spot source target : Spot} {addr low high : Nat} {slot : Slot} {slots : List Slot}

theorem Lies.address_eq (lies : spot.Lies memory origin addr low high slot)
    (other : spot.base ≠ .stackPointer) (view : View) :
    view.address origin (spot.at slot) = addr + slot.offset.toNat := by
  rw [View.address, if_neg (show (spot.at slot).base ≠ _ from other)]
  exact lies.place

theorem Lies.mono {high' : Nat} (lies : spot.Lies memory origin addr low high slot)
    (less : high' ≤ high) : spot.Lies memory origin addr low high' slot :=
  { lies with clear := lies.clear.imp id fun above => Nat.le_trans less above }

end Spot

/-- What moving scalars to a value at an address does to bytes: each scalar is what it was in the
value that it was moved from, and nothing else changes but a stretch of the stack. -/
structure Copied (source target low high : Nat) (slots : List Slot) (before after : Bytes) :
    Prop where
  scalars : ∀ slot ∈ slots, ∀ index < slot.size,
    after (target + slot.offset.toNat + index) = before (source + slot.offset.toNat + index)
  others : ∀ place, (∀ slot ∈ slots, place < target + slot.offset.toNat ∨
      target + slot.offset.toNat + slot.size ≤ place) →
    place < low ∨ high ≤ place → after place = before place

variable {source target : Spot} {start stop : Nat}

/-- Moving scalars one after another moves all of them. -/
theorem performs_copying (slots : List Slot) :
    ∀ (view : View), (∀ slot ∈ slots, slot.Sized ∧ 0 ≤ slot.offset) → slots.Pairwise Slot.Apart →
      source.base ≠ .stackPointer → target.base ≠ .stackPointer →
      (∀ slot ∈ slots, source.Lies memory origin start (view.pointer - 8 * slots.length)
        view.pointer slot) →
      (∀ slot ∈ slots, target.Lies memory origin stop (view.pointer - 8 * slots.length)
        view.pointer slot) →
      Memory.stackBase + 8 * slots.length ≤ view.pointer → view.pointer ≤ memory.stackTop →
      ∃ after, Performs memory origin (copying source target slots) view after ∧
        after.pointer = view.pointer ∧ Copied start stop (view.pointer - 8 * slots.length)
          view.pointer slots view.bytes after.bytes := by
  induction slots with
  | nil => exact fun view _ _ _ _ _ _ _ _ => ⟨view, .nil _, rfl, by simp, fun _ _ _ => rfl⟩
  | cons slot slots ih =>
    intro view sized apart sourceFree targetFree sourceLies targetLies low high
    obtain ⟨⟨size, width, count⟩, natural⟩ := sized slot List.mem_cons_self
    have from' := sourceLies slot List.mem_cons_self
    have to' := targetLies slot List.mem_cons_self
    have readable := from'.inside
    have writable := to'.inside
    rw [← count] at readable writable
    have load : Moves memory origin (.load (source.at slot)) view
        { view with a := view.bytes.word (start + slot.offset.toNat) size } := by
      rw [← from'.address_eq sourceFree view] at readable ⊢
      exact .load width readable
    have store : ∀ view : View, Moves memory origin (.store (target.at slot)) view
        { view with bytes := view.bytes.store (stop + slot.offset.toNat) size view.a } := by
      intro view
      rw [← to'.address_eq targetFree view] at writable ⊢
      exact .store width writable
    cases slots with
    | nil =>
      refine ⟨_, .cons load (.cons (store _) (.nil _)), rfl, ?_, ?_⟩
      · intro other mem index small
        obtain rfl := List.mem_singleton.mp mem
        exact Memory.store_word _ _ _ _ (by omega)
      · intro place outside _
        have apart := outside slot List.mem_cons_self
        exact Memory.store_of_outside (by omega)
    | cons next slots =>
      have length : (slot :: next :: slots).length = (next :: slots).length + 1 := rfl
      rw [length] at sourceLies targetLies low ⊢
      let pushed : View := ⟨view.bytes.word (start + slot.offset.toNat) size, view.pointer - 8,
        view.bytes.store (view.pointer - 8) .eight (view.bytes.word (start + slot.offset.toNat)
          size)⟩
      have push : Moves memory origin .push
          { view with a := view.bytes.word (start + slot.offset.toNat) size } pushed :=
        .push (show Memory.stackBase + 8 ≤ view.pointer by omega) high
      have below : view.pointer - 8 * ((next :: slots).length + 1) =
          pushed.pointer - 8 * (next :: slots).length := by
        show _ = view.pointer - 8 - _
        omega
      rw [below] at sourceLies targetLies ⊢
      have less : pushed.pointer ≤ view.pointer := Nat.sub_le _ 8
      obtain ⟨moved, performs, pointer, copied⟩ := ih pushed
        (fun other mem => sized other (List.mem_cons_of_mem _ mem))
        (List.pairwise_cons.mp apart).2 sourceFree targetFree
        (fun other mem => (sourceLies other (List.mem_cons_of_mem _ mem)).mono less)
        (fun other mem => (targetLies other (List.mem_cons_of_mem _ mem)).mono less)
        (by show _ ≤ view.pointer - 8; omega) (Nat.le_trans less high)
      have kept : moved.bytes.word pushed.pointer .eight =
          view.bytes.word (start + slot.offset.toNat) size := by
        have stored := Memory.word_store view.bytes pushed.pointer .eight
          (view.bytes.word (start + slot.offset.toNat) size)
        rw [Memory.narrow_eight] at stored
        refine Eq.trans (Bytes.word_congr fun place above under => ?_) stored
        refine copied.others place (fun other mem => ?_) (.inr above)
        have clear := (targetLies other (List.mem_cons_of_mem _ mem)).clear
        simp only [AccessSize.bytes] at under
        have top : pushed.pointer = view.pointer - 8 := rfl
        omega
      have room : pushed.pointer + 8 = view.pointer := by
        show view.pointer - 8 + 8 = view.pointer
        omega
      have pop : Moves memory origin .pop moved
          { moved with a := view.bytes.word (start + slot.offset.toNat) size, pointer :=
            view.pointer } := by
        have popped : Moves memory origin .pop moved { moved with
            a := moved.bytes.word moved.pointer .eight, pointer := moved.pointer + 8 } :=
          .pop (by rw [pointer]; show _ ≤ view.pointer - 8; omega)
            (by rw [pointer, room]; exact high)
        rwa [pointer, kept, room] at popped
      refine ⟨_, .cons load (.cons push (performs.append (.cons pop (.cons (store _) (.nil _))))),
        rfl, ?_, ?_⟩
      · intro other mem index small
        rcases List.mem_cons.mp mem with rfl | later
        · exact Memory.store_word _ _ _ _ (by omega)
        · -- The others were stored before, and apart from the first.
          have away := (List.pairwise_cons.mp apart).1 other later
          have source := (sourceLies other (List.mem_cons_of_mem _ later)).clear
          have positive := (sized other (List.mem_cons_of_mem _ later)).2
          have first : moved.bytes (stop + other.offset.toNat + index) =
              pushed.bytes (start + other.offset.toNat + index) :=
            copied.scalars other later index small
          refine Eq.trans (Memory.store_of_outside ?_) (first.trans (Memory.store_of_outside ?_))
          · unfold Slot.Apart at away
            omega
          · simp only [AccessSize.bytes]
            omega
      · intro place outside clear
        have own := outside slot List.mem_cons_self
        refine Eq.trans (Memory.store_of_outside (by omega)) ?_
        refine Eq.trans (copied.others place
          (fun other mem => outside other (List.mem_cons_of_mem _ mem))
          (clear.imp id fun above => Nat.le_trans less above)) ?_
        exact Memory.store_of_outside (by simp only [AccessSize.bytes]; omega)

/-- Transfers that move words on the stack up, those from the `first` on to the start. -/
def lifting (total first : Nat) (indices : List Nat) : List Transfer :=
  if first = 0 then [] else indices.flatMap fun index =>
    [.load ⟨.stackPointer, ⟨(8 * (total - 1 - first - index) : Nat), 8⟩⟩,
      .store ⟨.stackPointer, ⟨(8 * (total - 1 - index) : Nat), 8⟩⟩]

/-- Transfers that leave only some of the words of a value on the stack. -/
def extracting (total first count : Nat) : List Transfer :=
  lifting total first (List.range count) ++
    if count < total then [.raise (8 * (total - count))] else []

/-- The word of a scalar of a value on the stack; the first scalar lies deepest. -/
def View.leaf (view : View) (total index : Nat) : Word :=
  view.bytes.word (view.pointer + 8 * (total - 1 - index)) .eight

theorem address_leaf (view : View) {total distance : Nat} (inside : distance < total)
    (room : view.pointer + 8 * total ≤ memory.stackTop)
    (stack : memory.stackSize ≤ Memory.maxStackSize) :
    view.address origin ⟨.stackPointer, ⟨(8 * distance : Nat), 8⟩⟩ = view.pointer + 8 *
      distance := by
  obtain ⟨-, bound⟩ := Machine.toNat_pointer stack room
  have data : Memory.dataBase < 2 ^ 31 := by decide
  have extended : (BitVec.ofInt 32 ((8 * distance : Nat) : Int)).signExtend 64 =
      BitVec.ofNat 64 (8 * distance) := by
    apply BitVec.eq_of_toInt_eq
    rw [BitVec.toInt_signExtend_of_le (by decide), BitVec.toInt_ofInt, BitVec.toInt_ofNat',
      Int.bmod_eq_of_le (by omega) (by omega), Int.bmod_eq_of_le (by omega) (by omega)]
  rw [View.address, if_pos rfl]
  dsimp only
  rw [extended, ← BitVec.ofNat_add, BitVec.toNat_ofNat, Nat.mod_eq_of_lt (by omega)]

/-- A word of a value on the stack is stored in another place of the value. -/
theorem performs_moving (view : View) {total here there : Nat} (source : here < total)
    (target : there < total) (low : Memory.stackBase ≤ view.pointer)
    (room : view.pointer + 8 * total ≤ memory.stackTop)
    (stack : memory.stackSize ≤ Memory.maxStackSize) :
    ∃ a, Performs memory origin [.load ⟨.stackPointer, ⟨(8 * here : Nat), 8⟩⟩,
      .store ⟨.stackPointer, ⟨(8 * there : Nat), 8⟩⟩] view ⟨a, view.pointer,
        view.bytes.store (view.pointer + 8 * there) .eight
          (view.bytes.word (view.pointer + 8 * here) .eight)⟩ := by
  have access : AccessSize.ofCode? (8 : Nat).toUInt8 = some .eight := by decide
  have within : ∀ place < total,
      memory.addressable (view.pointer + 8 * place) AccessSize.eight.bytes = true := fun place _ =>
    Machine.addressable_stack (by omega) (by simp only [AccessSize.bytes]; omega)
  have reads := @address_leaf memory origin view total here source room stack
  have load : Moves memory origin (.load ⟨.stackPointer, ⟨(8 * here : Nat), 8⟩⟩) view
      { view with a := view.bytes.word (view.pointer + 8 * here) .eight } := by
    rw [← reads]
    exact .load access (by rw [reads]; exact within here source)
  generalize view.bytes.word (view.pointer + 8 * here) .eight = value at load ⊢
  have writes := @address_leaf memory origin ⟨value, view.pointer, view.bytes⟩ total there target
    room stack
  have store := @Moves.store memory origin ⟨.stackPointer, ⟨(8 * there : Nat), 8⟩⟩ .eight
    ⟨value, view.pointer, view.bytes⟩ access (by rw [writes]; exact within there target)
  rw [writes] at store
  exact ⟨value, .cons load (.cons store (.nil _))⟩

theorem lifting_zero (total first : Nat) : lifting total first (List.range 0) = [] := by
  simp [lifting]

theorem lifting_succ {total first : Nat} (some : first ≠ 0) (count : Nat) :
    lifting total first (List.range (count + 1)) = lifting total first (List.range count) ++
      [.load ⟨.stackPointer, ⟨(8 * (total - 1 - first - count) : Nat), 8⟩⟩,
        .store ⟨.stackPointer, ⟨(8 * (total - 1 - count) : Nat), 8⟩⟩] := by
  rw [lifting, lifting, if_neg some, if_neg some, List.range_succ, List.flatMap_append,
    List.flatMap_singleton]

/-- The words of a member move up one after another; none is overwritten before it is read, because
those that are read later lie higher up. -/
theorem performs_lifting {total first : Nat} (some : first ≠ 0)
    (low : Memory.stackBase ≤ view.pointer) (room : view.pointer + 8 * total ≤ memory.stackTop)
    (stack : memory.stackSize ≤ Memory.maxStackSize) (count : Nat) (fits : first + count ≤ total) :
    ∃ after, Performs memory origin (lifting total first (List.range count)) view after ∧
      after.pointer = view.pointer ∧
      (∀ index < total, after.leaf total index =
        view.leaf total (if index < count then first + index else index)) ∧
      ∀ place, place < view.pointer ∨ view.pointer + 8 * total ≤ place →
        after.bytes place = view.bytes place := by
  induction count with
  | zero =>
    rw [lifting_zero]
    refine ⟨view, .nil _, rfl, fun index _ => ?_, fun _ _ => rfl⟩
    rw [if_neg (Nat.not_lt_zero _)]
  | succ count ih =>
    obtain ⟨moved, performs, pointer, leaves, others⟩ := ih (by omega)
    have read : moved.bytes.word (moved.pointer + 8 * (total - 1 - first - count)) .eight =
        view.leaf total (first + count) := by
      have value := leaves (first + count) (by omega)
      rw [if_neg (by omega), View.leaf, Nat.sub_add_eq] at value
      exact value
    obtain ⟨a, move⟩ := @performs_moving memory origin moved total (total - 1 - first - count)
      (total - 1 - count) (by omega) (by omega) (by rw [pointer]; exact low)
      (by rw [pointer]; exact room) stack
    rw [read] at move
    rw [lifting_succ some]
    refine ⟨_, performs.append move, pointer, fun index inside => ?_, fun place outside => ?_⟩
    · have kept := leaves index inside
      rw [View.leaf] at kept ⊢
      dsimp only
      by_cases same : index = count
      · rw [same, if_pos (Nat.lt_succ_self count)]
        exact (Memory.word_store _ _ AccessSize.eight _).trans (Memory.narrow_eight _)
      · have sides : index < count + 1 ↔ index < count := by omega
        rw [if_congr sides rfl rfl, ← kept]
        exact Memory.word_store_of_apart (by simp only [AccessSize.bytes]; omega)
    · rw [← others place outside]
      exact Memory.store_of_outside (by simp only [AccessSize.bytes]; omega)

/-- Taking out some words leaves them on the stack in order, and nothing above the value changes. -/
theorem performs_extracting {total first : Nat} (fits : first + count ≤ total)
    (low : Memory.stackBase ≤ view.pointer)
    (room : view.pointer + 8 * total ≤ memory.stackTop)
    (stack : memory.stackSize ≤ Memory.maxStackSize) :
    ∃ after, Performs memory origin (extracting total first count) view after ∧
      after.pointer = view.pointer + 8 * (total - count) ∧
      (∀ index < count, after.leaf count index = view.leaf total (first + index)) ∧
      ∀ place, place < view.pointer ∨ view.pointer + 8 * total ≤ place →
        after.bytes place = view.bytes place := by
  have lifts : ∃ moved, Performs memory origin (lifting total first (List.range count)) view moved ∧
      moved.pointer = view.pointer ∧
      (∀ index < count, moved.leaf total index = view.leaf total (first + index)) ∧
      ∀ place, place < view.pointer ∨ view.pointer + 8 * total ≤ place →
        moved.bytes place = view.bytes place := by
    by_cases none : first = 0
    · rw [lifting, if_pos none, none]
      exact ⟨view, .nil _, rfl, fun index _ => by rw [Nat.zero_add], fun _ _ => rfl⟩
    · obtain ⟨moved, performs, pointer, leaves, others⟩ :=
        @performs_lifting memory origin view total first none low room stack count fits
      refine ⟨moved, performs, pointer, fun index inside => ?_, others⟩
      rw [leaves index (by omega), if_pos inside]
  obtain ⟨moved, performs, pointer, leaves, others⟩ := lifts
  have bound := (Machine.toNat_pointer stack room).2
  have data : Memory.dataBase < 2 ^ 31 := by decide
  have rises : ∃ after : View, Performs memory origin
      (if count < total then [.raise (8 * (total - count))] else []) moved after ∧
      after.pointer = moved.pointer + 8 * (total - count) ∧ after.bytes = moved.bytes := by
    split
    · exact ⟨_, .cons (.raise (by omega) (by omega) (by omega)) (.nil _), rfl, rfl⟩
    · exact ⟨moved, .nil _, by omega, rfl⟩
  obtain ⟨after, raised, top, bytes⟩ := rises
  refine ⟨after, performs.append raised, by rw [top, pointer], fun index inside => ?_, ?_⟩
  · rw [← leaves index inside, View.leaf, View.leaf, bytes, top]
    congr 1
    omega
  · rw [bytes]
    exact others

end TinLang
