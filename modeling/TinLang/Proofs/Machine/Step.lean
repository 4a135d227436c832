import TinLang.Proofs.Machine.Course

/-!
# What instructions do to what code sees

One lemma for each kind of instruction: a machine that shows something at a cell with that
instruction comes to the next cell and shows the result.
-/
namespace TinLang

namespace Machine

theorem get_assign (registers : Vector Word 12) (slot other : Fin 12) (value : Word) :
    (assign registers slot value).get other =
      if slot = other then value else registers.get other := by
  have read : ∀ registers : Vector Word 12, registers.get other = registers[other.val] :=
    fun _ => rfl
  rw [read, read, assign, Vector.getElem_set]
  simp only [Fin.ext_iff]

/-- The machine at another cell, one instruction later. -/
def moved (machine : Machine) (cell : Nat) : Machine :=
  { machine with
    registers := assign machine.registers slotPC (BitVec.ofNat 64 cell)
    steps := machine.steps + 1 }

section

variable {α β : Type} {machine : Machine}

theorem run_bind (first : Exec α) (next : α → Exec β) (machine : Machine) :
    (first >>= next).run.run machine = match first.run.run machine with
      | (.ok value, after) => (next value).run.run after
      | (.error cause, after) => (.error cause, after) := by
  rw [ExceptT.run_bind, StateT.run_bind]
  cases found : StateT.run (ExceptT.run first) machine with
  | mk result after => cases result <;> rfl

/-- Of two steps that complete both do. -/
theorem run_bind_ok {first : Exec α} {next : α → Exec β} {machine after : Machine} {value : β} :
    (first >>= next).run.run machine = (.ok value, after) ↔
      ∃ found between, first.run.run machine = (.ok found, between) ∧
        (next found).run.run between = (.ok value, after) := by
  rw [run_bind]
  cases done : first.run.run machine with
  | mk result between =>
    cases result with
    | ok found =>
      constructor
      · exact fun later => ⟨found, between, rfl, later⟩
      · rintro ⟨_, _, same, later⟩
        obtain ⟨found', rfl⟩ := Prod.mk.inj same
        obtain rfl := Except.ok.inj found'
        exact later
    | error cause =>
      constructor
      · exact fun same => nomatch (Prod.mk.inj same).1
      · rintro ⟨_, _, same, -⟩
        exact nomatch (Prod.mk.inj same).1

theorem run_get (slot : Fin 12) (machine : Machine) :
    (get slot).run.run machine = (.ok (machine.registers.get slot), machine) := rfl

theorem run_getThe (machine : Machine) :
    (getThe Machine : Exec Machine).run.run machine = (.ok machine, machine) := rfl

theorem run_pure (value : α) (machine : Machine) :
    (pure value : Exec α).run.run machine = (.ok value, machine) := rfl

theorem run_throw (cause : FaultCause) (machine : Machine) :
    (throw cause : Exec α).run.run machine = (.error cause, machine) := rfl

theorem run_put (slot : Fin 12) (value : Word) (machine : Machine) :
    (put slot value).run.run machine =
      (.ok (), { machine with registers := Machine.assign machine.registers slot value }) := rfl

theorem run_modify (change : Machine → Machine) (machine : Machine) :
    (modify change : Exec Unit).run.run machine = (.ok (), change machine) := rfl

theorem run_store {addr : Word} {size : AccessSize} {value : Word} {memory : Memory}
    (done : machine.memory.store? addr.toNat size value = some memory) :
    (store addr size value).run.run machine = (.ok (), { machine with memory }) := by
  simp only [store, changeMemory, run_bind, run_getThe, done]
  rfl

theorem run_load {addr : Word} {size : AccessSize} {value : Word}
    (done : machine.memory.load? addr.toNat size = some value) :
    (load addr size).run.run machine = (.ok value, machine) := by
  simp only [load, run_bind, run_getThe, done]
  rfl

theorem run_accessSize {modifier : UInt8} {size : AccessSize}
    (found : AccessSize.ofCode? modifier = some size) :
    (accessSize modifier).run.run machine = (.ok size, machine) := by
  simp only [accessSize, found]
  rfl

theorem load_of_run {addr : Word} {size : AccessSize} {value : Word} {after : Machine}
    (run : (load addr size).run.run machine = (.ok value, after)) :
    machine.memory.load? addr.toNat size = some value ∧ after = machine := by
  cases found : machine.memory.load? addr.toNat size with
  | none =>
    simp only [load, run_bind, run_getThe, found, run_throw] at run
    exact nomatch (Prod.mk.inj run).1
  | some word =>
    rw [run_load found] at run
    obtain ⟨same, rfl⟩ := Prod.mk.inj run
    exact ⟨congrArg some (Except.ok.inj same), rfl⟩

theorem store_of_run {addr : Word} {size : AccessSize} {value : Word} {after : Machine}
    (run : (store addr size value).run.run machine = (.ok (), after)) :
    ∃ memory, machine.memory.store? addr.toNat size value = some memory ∧
      after = { machine with memory } := by
  cases found : machine.memory.store? addr.toNat size value with
  | none =>
    simp only [store, changeMemory, run_bind, run_getThe, found, run_throw] at run
    exact nomatch (Prod.mk.inj run).1
  | some memory =>
    rw [run_store found] at run
    exact ⟨memory, rfl, (Prod.mk.inj run).2.symm⟩

theorem accessSize_of_run {modifier : UInt8} {size : AccessSize} {after : Machine}
    (run : (accessSize modifier).run.run machine = (.ok size, after)) :
    AccessSize.ofCode? modifier = some size ∧ after = machine := by
  cases found : AccessSize.ofCode? modifier with
  | none =>
    simp only [accessSize, found, run_throw] at run
    exact nomatch (Prod.mk.inj run).1
  | some width =>
    rw [run_accessSize found] at run
    obtain ⟨same, rfl⟩ := Prod.mk.inj run
    exact ⟨congrArg some (Except.ok.inj same), rfl⟩

theorem run_push {value : Word} {memory : Memory}
    (room : ¬ ((machine.registers.get slotSP).toNat < Memory.stackBase + 8 ∨
      machine.memory.stackTop < (machine.registers.get slotSP).toNat))
    (done : machine.memory.store? (machine.registers.get slotSP - 8).toNat .eight value =
      some memory) :
    (push value).run.run machine = (.ok (), { machine with
      memory, registers := Machine.assign machine.registers slotSP (machine.registers.get
        slotSP - 8) }) := by
  simp only [push, run_bind, run_get, run_getThe, room, ↓reduceIte, run_store done, run_put]

theorem run_push_overflow {value : Word}
    (full : (machine.registers.get slotSP).toNat < Memory.stackBase + 8) :
    (push value).run.run machine = (.error .pushOverflow, machine) := by
  simp only [push, run_bind, run_get, run_getThe, full, true_or, ↓reduceIte, run_throw]

theorem run_pop {value : Word}
    (room : ¬ ((machine.registers.get slotSP).toNat < Memory.stackBase ∨
      machine.memory.stackTop < (machine.registers.get slotSP + 8).toNat))
    (done : machine.memory.load? (machine.registers.get slotSP).toNat .eight = some value) :
    pop.run.run machine = (.ok value, { machine with
      registers := Machine.assign machine.registers slotSP (machine.registers.get slotSP + 8)
        }) := by
  simp only [pop, run_bind, run_get, run_getThe, room, ↓reduceIte, run_load done, run_put, run_pure]

end

end Machine

namespace Register

theorem slot_of_isShown {reg : Register} {slot : Fin 12} (slots : reg.slot? = some slot)
    (isShown : reg.isShown) : slot ≠ Machine.slotPC := by
  rintro rfl
  cases reg <;> first | exact absurd slots (by decide) | exact absurd isShown (by decide) | skip
  simp [slot?] at slots

theorem slot_injective {reg other : Register} {slot : Fin 12}
    (first : reg.slot? = some slot) (second : other.slot? = some slot) :
    reg = other := by
  cases reg <;> cases other <;> simp_all [slot?] <;> subst first <;>
    exact absurd second (by decide)

theorem isShown_of_isFree {reg : Register} (free : reg.isFree) : reg.isShown := by
  simp [isShown, free]

end Register

namespace Shown

theorem get_set (shown : Shown) {reg : Register} (free : reg.isFree) (value : Word)
    (other : Register) :
    (shown.set reg value).get other = if reg = other then value else shown.get other := by
  have cases : reg = .a ∨ reg = .b ∨ reg = .c ∨ reg = .d := by
    simpa [Register.isFree] using free
  rcases cases with rfl | rfl | rfl | rfl <;> cases other <;> rfl

end Shown

namespace Site

variable {site : Site} {cell : Nat} {machine : Machine} {shown : Shown}

namespace Plain

/-- The counter may move. -/
theorem moved (plain : site.Plain cell machine shown) (next : Nat) :
    site.Plain next (machine.moved next) shown :=
  { plain with
    counter := by simp [Machine.moved, Machine.get_assign]
    registers := by
      intro reg slot slots isShown
      have other := Register.slot_of_isShown slots isShown
      rw [Machine.moved, Machine.get_assign, if_neg (Ne.symm other)]
      exact plain.registers reg slot slots isShown }

/-- A free register may change. -/
theorem put (plain : site.Plain cell machine shown) {reg : Register} {slot : Fin 12}
    (slots : reg.slot? = some slot) (free : reg.isFree) (value : Word) :
    site.Plain cell { machine with registers := Machine.assign machine.registers slot value }
      (shown.set reg value) where
  running := plain.running
  piece := plain.piece
  counter := by
    have other := Register.slot_of_isShown slots (Register.isShown_of_isFree free)
    rw [Machine.get_assign, if_neg other]
    exact plain.counter
  registers := by
    intro other place places isShown
    rw [Machine.get_assign, Shown.get_set shown free]
    by_cases same : reg = other
    · subst same
      obtain rfl := Option.some.inj (slots.symm.trans places)
      simp
    · have apart : slot ≠ place := by
        rintro rfl
        exact same (Register.slot_injective slots places)
      rw [if_neg apart, if_neg same]
      exact plain.registers other place places isShown
  top := plain.top
  dataSize := plain.dataSize
  low := by simpa using plain.low
  high := by simpa using plain.high
  highest := by simpa using plain.highest
  words := by simpa using plain.words
  bytes := by simpa using plain.bytes
  output := by simpa using plain.output

theorem bound {found : Cell} (here : site.code[cell]? = some found) : cell < 2 ^ 31 := by
  have inside := (Array.getElem?_eq_some_iff.mp here).1
  have small := site.small
  omega

theorem code_eq (plain : site.Plain cell machine shown) :
    machine.code site.program = site.code := by
  rw [Machine.code, plain.piece, site.found]
  rfl

theorem counter_eq (plain : site.Plain cell machine shown) {found : Cell}
    (here : site.code[cell]? = some found) : machine.counter = cell := by
  have small := bound here
  rw [Machine.counter, plain.counter, BitVec.toInt_ofNat']
  exact Int.bmod_eq_of_le (by omega) (by omega)

/-- What one step comes to: a state with a property, or an overflow of the stack. -/
def Executes (site : Site) (fetched : Fetched) (machine : Machine) (goal : Machine → Prop) : Prop :=
  (∃ after, (Machine.execute site.program site.settings fetched).run.run machine =
      (.ok (), after) ∧ goal after) ∨
    ∃ cause after, (Machine.execute site.program site.settings fetched).run.run machine =
      (.error cause, after) ∧ cause.kind = .stackOverflow

theorem step_eq (plain : site.Plain cell machine shown) {fetched : Fetched} {width : Nat}
    (fetches : machine.fetch site.program = (width, .ok fetched)) :
    machine.step site.program site.settings =
      match (Machine.execute site.program site.settings fetched).run.run
          (machine.moved (cell + width)) with
      | (.ok _, after) => (after, none)
      | (.error cause, after) => (after, some (machine.faultAt site.program cause)) := by
  have counter : machine.registers.get Machine.slotPC + BitVec.ofNat 64 width =
      BitVec.ofNat 64 (cell + width) := by
    rw [plain.counter, BitVec.ofNat_add]
  rw [Machine.step, fetches]
  simp only [counter]
  rfl

theorem fetch_narrow (plain : site.Plain cell machine shown) {instr : Instruction}
    (here : site.code[cell]? = some (.instruction instr))
    (narrow : instr.op.hasImmediate = false) {first second : Fin 12}
    (firstSlot : instr.first.slot? = some first)
    (secondSlot : instr.second.slot? = some second) :
    machine.fetch site.program = (1, .ok ⟨instr, 0, first, second⟩) := by
  have natural : ¬ (cell : Int) < 0 := by omega
  simp [Machine.fetch, plain.code_eq, plain.counter_eq here, Code.instruction?, Code.cell?, natural,
    here, narrow, firstSlot, secondSlot]

theorem fetch_wide (plain : site.Plain cell machine shown) {instr : Instruction}
    {imm : BitVec 32} (here : site.code[cell]? = some (.instruction instr))
    (next : site.code[cell + 1]? = some (.immediate imm))
    (wide : instr.op.hasImmediate) {first second : Fin 12}
    (firstSlot : instr.first.slot? = some first)
    (secondSlot : instr.second.slot? = some second) :
    machine.fetch site.program = (2, .ok ⟨instr, imm, first, second⟩) := by
  have natural : ¬ (cell : Int) < 0 := by omega
  have following : ¬ (cell : Int) + 1 < 0 := by omega
  have place : ((cell : Int) + 1).toNat = cell + 1 := by omega
  simp [Machine.fetch, plain.code_eq, plain.counter_eq here, Code.instruction?, Code.immediate?,
    Code.cell?, natural, following, place, here, next, wide, firstSlot, secondSlot]

theorem takes_of_fetch (plain : site.Plain cell machine shown) {fetched : Fetched} {width : Nat}
    (fetches : machine.fetch site.program = (width, .ok fetched)) {goal : Machine → Prop}
    (executes : ∀ moved, site.Plain (cell + width) moved shown → Executes site fetched moved goal) :
    machine.Takes site.program site.settings goal := by
  have step := plain.step_eq fetches
  refine ⟨plain.running, ?_⟩
  rcases executes _ (plain.moved _) with ⟨after, run, reached⟩ | ⟨cause, after, run, kind⟩
  · rw [run] at step
    exact .inl ⟨after, step, reached⟩
  · rw [run] at step
    refine .inr ⟨after, _, step, ?_⟩
    unfold Machine.faultAt
    split <;> exact kind

theorem comes_of_fetch (plain : site.Plain cell machine shown) {fetched : Fetched} {width : Nat}
    (fetches : machine.fetch site.program = (width, .ok fetched)) {goal : Machine → Prop}
    (executes : ∀ moved, site.Plain (cell + width) moved shown → Executes site fetched moved goal) :
    machine.Comes site.program site.settings goal :=
  (plain.takes_of_fetch fetches executes).comes

variable {reg other : Register} {imm : BitVec 32}

theorem slot_of_isFree (free : reg.isFree) : ∃ slot, reg.slot? = some slot := by
  have cases : reg = .a ∨ reg = .b ∨ reg = .c ∨ reg = .d := by
    simpa [Register.isFree] using free
  rcases cases with rfl | rfl | rfl | rfl <;> exact ⟨_, rfl⟩

theorem slot_of_isShown (isShown : reg.isShown) : ∃ slot, reg.slot? = some slot := by
  have cases : reg.isFree = true ∨ reg = .stackPointer ∨ reg = .basePointer := by
    simpa [Register.isShown] using isShown
  rcases cases with free | rfl | rfl
  · exact slot_of_isFree free
  · exact ⟨_, rfl⟩
  · exact ⟨_, rfl⟩

theorem comes_setNumber (plain : site.Plain cell machine shown)
    (here : site.code[cell]? = some (.instruction ⟨.loadImmediate, reg, .unused, 0⟩))
    (next : site.code[cell + 1]? = some (.immediate imm)) (free : reg.isFree) :
    machine.Comes site.program site.settings fun after =>
      site.Plain (cell + 2) after (shown.set reg (imm.signExtend 64)) := by
  obtain ⟨slot, slots⟩ := slot_of_isFree free
  refine plain.comes_of_fetch (plain.fetch_wide here next rfl slots rfl) fun moved after => ?_
  exact .inl ⟨_, rfl, after.put slots free _⟩

theorem comes_setDataAddress (plain : site.Plain cell machine shown)
    (here : site.code[cell]? = some (.instruction ⟨.dataPointer, reg, .unused, 0⟩))
    (next : site.code[cell + 1]? = some (.immediate imm)) (free : reg.isFree) :
    machine.Comes site.program site.settings fun after => site.Plain (cell + 2) after
      (shown.set reg (BitVec.ofNat 64 Memory.dataBase + imm.signExtend 64)) := by
  obtain ⟨slot, slots⟩ := slot_of_isFree free
  refine plain.comes_of_fetch (plain.fetch_wide here next rfl slots rfl) fun moved after => ?_
  exact .inl ⟨_, rfl, after.put slots free _⟩

theorem not_slotSP_of_isFree {slot : Fin 12} (slots : reg.slot? = some slot)
    (free : reg.isFree) : slot ≠ Machine.slotSP := by
  have cases : reg = .a ∨ reg = .b ∨ reg = .c ∨ reg = .d := by
    simpa [Register.isFree] using free
  rcases cases with rfl | rfl | rfl | rfl <;> obtain rfl := Option.some.inj slots <;> decide

/-- Setting a free register checks nothing. -/
theorem run_putChecked {slot : Fin 12} (slots : reg.slot? = some slot)
    (free : reg.isFree) (value : Word) (machine : Machine) :
    (Machine.putChecked slot value).run.run machine =
      (.ok (), { machine with registers := Machine.assign machine.registers slot value }) := by
  have apart := not_slotSP_of_isFree slots free
  unfold Machine.putChecked
  rw [if_neg apart]
  rfl

theorem comes_move (plain : site.Plain cell machine shown)
    (here : site.code[cell]? = some (.instruction ⟨.move, reg, other, 0⟩))
    (free : reg.isFree) (isShown : other.isShown) :
    machine.Comes site.program site.settings fun after =>
      site.Plain (cell + 1) after (shown.set reg (shown.get other)) := by
  obtain ⟨slot, slots⟩ := slot_of_isFree free
  obtain ⟨source, sources⟩ := slot_of_isShown isShown
  refine plain.comes_of_fetch (plain.fetch_narrow here rfl slots sources) fun moved after => ?_
  refine .inl ⟨_, run_putChecked slots free (moved.registers.get source) moved, ?_⟩
  rw [after.registers other source sources isShown]
  exact after.put slots free _

theorem comes_increase (plain : site.Plain cell machine shown)
    (here : site.code[cell]? = some (.instruction ⟨.increase, reg, .unused, 0⟩))
    (next : site.code[cell + 1]? = some (.immediate imm)) (free : reg.isFree) :
    machine.Comes site.program site.settings fun after => site.Plain (cell + 2) after
      (shown.set reg (shown.get reg + imm.signExtend 64)) := by
  obtain ⟨slot, slots⟩ := slot_of_isFree free
  refine plain.comes_of_fetch (plain.fetch_wide here next rfl slots rfl) fun moved after => ?_
  refine .inl ⟨_, run_putChecked slots free
    (moved.registers.get slot + imm.signExtend 64) moved, ?_⟩
  rw [after.registers reg slot slots (Register.isShown_of_isFree free)]
  exact after.put slots free _

theorem comes_convert (plain : site.Plain cell machine shown) (conversion : Conversion)
    (here : site.code[cell]? = some (.instruction ⟨.cast, reg, .unused, conversion.code⟩))
    (free : reg.isFree) :
    machine.Comes site.program site.settings fun after => site.Plain (cell + 1) after
      (shown.set reg (Arithmetic.convert conversion (shown.get reg))) := by
  obtain ⟨slot, slots⟩ := slot_of_isFree free
  refine plain.comes_of_fetch (plain.fetch_narrow here rfl slots rfl) fun moved after => ?_
  let word := Arithmetic.convert conversion (moved.registers.get slot)
  refine .inl ⟨{ moved with registers := Machine.assign moved.registers slot word }, ?_, ?_⟩
  · simp only [Machine.execute, Conversion.ofCode?_code]
    rfl
  · rw [← after.registers reg slot slots (Register.isShown_of_isFree free)]
    exact after.put slots free _

theorem comes_not (plain : site.Plain cell machine shown)
    (here : site.code[cell]? = some (.instruction ⟨.not, reg, other, 0⟩))
    (free : reg.isFree) (isShown : other.isShown) :
    machine.Comes site.program site.settings fun after => site.Plain (cell + 1) after
      (shown.set reg (Arithmetic.ofBool (shown.get other == 0))) := by
  obtain ⟨slot, slots⟩ := slot_of_isFree free
  obtain ⟨source, sources⟩ := slot_of_isShown isShown
  refine plain.comes_of_fetch (plain.fetch_narrow here rfl slots sources) fun moved after => ?_
  refine .inl ⟨_, rfl, ?_⟩
  rw [after.registers other source sources isShown]
  exact after.put slots free _

/-- The operations on two words. -/
def operations : List Opcode :=
  [.add, .sub, .mul, .div, .and, .or, .equal, .notEqual, .less, .greater, .lessEqual,
    .greaterEqual]

/-- An operation on two words has no immediate and is none of the opcodes that a piece counts. -/
theorem plain_of_mem_operations {op : Opcode} (operation : op ∈ operations) :
    op.hasImmediate = false ∧ op ≠ .push ∧ op ≠ .pop ∧ op ≠ .giveBack := by
  simp only [operations, List.mem_cons, List.not_mem_nil, or_false] at operation
  rcases operation with rfl | rfl | rfl | rfl | rfl | rfl | rfl | rfl | rfl | rfl | rfl | rfl <;>
    decide

/-- Two registers are combined into the first. -/
theorem run_combine (combine : Word → Word → Except FaultCause Word) (first second : Fin 12)
    (machine : Machine) :
    (do
      match combine (← Machine.get first) (← Machine.get second) with
      | .ok word => Machine.put first word
      | .error cause => throw cause : Exec Unit).run.run machine =
      match combine (machine.registers.get first) (machine.registers.get second) with
      | .ok word =>
        (.ok (), { machine with registers := Machine.assign machine.registers first word })
      | .error cause => (.error cause, machine) := by
  have unfolded : (do
      match combine (← Machine.get first) (← Machine.get second) with
      | .ok word => Machine.put first word
      | .error cause => throw cause : Exec Unit).run.run machine =
      (match combine (machine.registers.get first) (machine.registers.get second) with
        | .ok word => Machine.put first word
        | .error cause => throw cause : Exec Unit).run.run machine := rfl
  rw [unfolded]
  split <;> rfl

theorem run_operation {op : Opcode} (operation : op ∈ operations) (modifier : UInt8)
    (reg other : Register) (first second : Fin 12) (machine : Machine) :
    (Machine.execute site.program site.settings
      ⟨⟨op, reg, other, modifier⟩, 0, first, second⟩).run.run machine =
      match Arithmetic.apply op modifier (machine.registers.get first)
          (machine.registers.get second) with
      | .ok word =>
        (.ok (), { machine with registers := Machine.assign machine.registers first word })
      | .error cause => (.error cause, machine) := by
  rw [← run_combine]
  simp only [operations, List.mem_cons, List.not_mem_nil, or_false] at operation
  rcases operation with rfl | rfl | rfl | rfl | rfl | rfl | rfl | rfl | rfl | rfl | rfl | rfl <;>
    rfl

theorem comes_operation (plain : site.Plain cell machine shown) {op : Opcode} {modifier : UInt8}
    {word : Word} (operation : op ∈ operations)
    (here : site.code[cell]? = some (.instruction ⟨op, reg, other, modifier⟩))
    (free : reg.isFree) (isShown : other.isShown)
    (result : Arithmetic.apply op modifier (shown.get reg) (shown.get other) = .ok word) :
    machine.Comes site.program site.settings fun after =>
      site.Plain (cell + 1) after (shown.set reg word) := by
  obtain ⟨slot, slots⟩ := slot_of_isFree free
  obtain ⟨source, sources⟩ := slot_of_isShown isShown
  have narrow := (plain_of_mem_operations operation).1
  refine plain.comes_of_fetch (plain.fetch_narrow here narrow slots sources) fun moved after => ?_
  refine .inl ⟨{ moved with registers := Machine.assign moved.registers slot word }, ?_,
    after.put slots free _⟩
  rw [run_operation operation, after.registers reg slot slots
    (Register.isShown_of_isFree free), after.registers other source sources isShown, result]

/-- An operation that fails divides by zero. -/
theorem divides_operation (plain : site.Plain cell machine shown) {op : Opcode} {modifier : UInt8}
    {cause : FaultCause} (operation : op ∈ operations)
    (here : site.code[cell]? = some (.instruction ⟨op, reg, other, modifier⟩))
    (free : reg.isFree) (isShown : other.isShown)
    (result : Arithmetic.apply op modifier (shown.get reg) (shown.get other) = .error cause)
    (kind : cause.kind = .divideByZero) :
    machine.Divides site.program site.settings := by
  obtain ⟨slot, slots⟩ := slot_of_isFree free
  obtain ⟨source, sources⟩ := slot_of_isShown isShown
  have narrow := (plain_of_mem_operations operation).1
  have step := plain.step_eq (plain.fetch_narrow here narrow slots sources)
  have after := plain.moved (cell + 1)
  rw [run_operation operation, after.registers reg slot slots
    (Register.isShown_of_isFree free), after.registers other source sources isShown, result] at step
  refine ⟨plain.running, _, _, step, ?_, rfl⟩
  unfold Machine.faultAt
  split <;> exact kind

end Plain

end Site

end TinLang
