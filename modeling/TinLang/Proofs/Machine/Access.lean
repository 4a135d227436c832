import TinLang.Proofs.Machine.Step

/-!
# The operand stack and memory

Pushes and pops move words between registers and the operand stack; loads and stores reach the
bytes from the floor on and the words of the operand stack; and the stack pointer itself may move,
which makes words of the operand stack out of bytes or the other way round.
-/
namespace TinLang

namespace Site

variable {site : Site} {cell : Nat} {machine : Machine} {shown : Shown}

namespace Plain

variable {reg other : Register} {imm : BitVec 32}

/-- The stack pointer of a machine that shows something. -/
theorem pointer_toNat (plain : site.Plain cell machine shown) :
    machine.registers.get Machine.slotSP = BitVec.ofNat 64 shown.pointer ∧
      shown.pointer ≤ site.top ∧ Memory.stackBase ≤ shown.pointer ∧
      shown.pointer + 8 * shown.stack.length = shown.floor ∧ site.top < 2 ^ 31 := by
  have low := plain.low
  have high := plain.high
  have highest := plain.highest
  have below := site.below
  unfold Memory.dataBase at below
  refine ⟨plain.registers .stackPointer _ rfl rfl, ?_, ?_, ?_, by omega⟩ <;>
    unfold Shown.pointer <;> omega

/-- The stack pointer may move, and the memory below the floor change. -/
theorem repoint (plain : site.Plain cell machine shown) {after : Shown} {memory : Memory}
    (registers : ∀ reg, reg ≠ .stackPointer → after.get reg = shown.get reg)
    (base : after.base = shown.base) (output : after.output = shown.output)
    (top : memory.stackTop = machine.memory.stackTop)
    (dataSize : memory.dataSize = machine.memory.dataSize)
    (low : Memory.stackBase + 8 * after.stack.length ≤ after.floor)
    (high : after.floor ≤ after.base)
    (words : Bytes.Spells memory.byteAt after.pointer after.stack)
    (bytes : ∀ place, after.floor ≤ place → memory.byteAt place = after.bytes place) :
    site.Plain cell { machine with
      memory, registers := Machine.assign machine.registers Machine.slotSP
        (BitVec.ofNat 64 after.pointer) }
      after where
  running := plain.running
  piece := plain.piece
  counter := by
    rw [Machine.get_assign, if_neg (by decide)]
    exact plain.counter
  registers := by
    intro reg slot slots isShown
    rw [Machine.get_assign]
    by_cases same : reg = .stackPointer
    · subst same
      obtain rfl := Option.some.inj slots
      rfl
    · have apart : Machine.slotSP ≠ slot := by
        rintro rfl
        exact same (Register.slot_injective slots rfl)
      rw [if_neg apart, registers reg same]
      exact plain.registers reg slot slots isShown
  top := top.trans plain.top
  dataSize := dataSize.trans plain.dataSize
  low := low
  high := high
  highest := base ▸ plain.highest
  words := words
  bytes := bytes
  output := output ▸ plain.output

theorem get_stack (shown : Shown) (stack : List Word) (reg : Register)
    (other : reg ≠ .stackPointer) :
    Shown.get { shown with stack } reg = shown.get reg := by
  cases reg <;> first | rfl | exact absurd rfl other

theorem run_executePush (reg : Register) (slot second : Fin 12) (machine : Machine) :
    (Machine.execute site.program site.settings
      ⟨⟨.push, reg, .unused, 0⟩, 0, slot, second⟩).run.run machine =
      (Machine.push (machine.registers.get slot)).run.run machine := by
  simp only [Machine.execute, Machine.run_bind, Machine.run_get]

theorem comes_push (plain : site.Plain cell machine shown)
    (here : site.code[cell]? = some (.instruction ⟨.push, reg, .unused, 0⟩))
    (free : reg.isFree) :
    machine.Comes site.program site.settings fun after =>
      site.Plain (cell + 1) after { shown with stack := shown.get reg :: shown.stack } := by
  obtain ⟨slot, slots⟩ := slot_of_isFree free
  refine plain.comes_of_fetch (plain.fetch_narrow here rfl slots rfl) fun moved after => ?_
  have value := after.registers reg slot slots (Register.isShown_of_isFree free)
  obtain ⟨pointer, below, above, floor, top⟩ := after.pointer_toNat
  have number : (moved.registers.get Machine.slotSP).toNat = shown.pointer := by
    rw [pointer, BitVec.toNat_ofNat, Nat.mod_eq_of_lt (by omega)]
  by_cases full : shown.pointer < Memory.stackBase + 8
  · refine .inr ⟨.pushOverflow, moved, ?_, rfl⟩
    rw [run_executePush]
    exact Machine.run_push_overflow (by omega)
  · have less : moved.registers.get Machine.slotSP - 8 = BitVec.ofNat 64 (shown.pointer - 8) := by
      apply BitVec.eq_of_toNat_eq
      rw [BitVec.toNat_sub, number, BitVec.toNat_ofNat]
      have eight : (8 : Word).toNat = 8 := rfl
      omega
    have addr : (moved.registers.get Machine.slotSP - 8).toNat = shown.pointer - 8 := by
      rw [less, BitVec.toNat_ofNat, Nat.mod_eq_of_lt (by omega)]
    have covers : moved.memory.Covers (shown.pointer - 8) AccessSize.eight.bytes := by
      left
      rw [after.top]
      simp only [AccessSize.bytes]
      omega
    obtain ⟨memory, stored, bytes, sameTop, sameData⟩ :=
      Memory.store?_of_covers (shown.get reg) covers
    have length : Shown.pointer { shown with stack := shown.get reg :: shown.stack } =
        shown.pointer - 8 := by
      simp only [Shown.pointer, List.length_cons]
      omega
    refine .inl ⟨_, (run_executePush _ _ _ _).trans (Machine.run_push
      (by rw [number, after.top]; omega) (by rw [addr, value]; exact stored)), ?_⟩
    rw [less, ← length]
    refine after.repoint (get_stack shown _) rfl rfl sameTop sameData ?_ after.high ?_ ?_
    · simp only [List.length_cons]
      omega
    · have next : shown.pointer - 8 + 8 = shown.pointer := by omega
      rw [length, bytes]
      refine ⟨?_, ?_⟩
      · rw [Memory.word_store, Memory.narrow_eight]
      · rw [next]
        refine after.words.congr fun place low high => ?_
        exact (Memory.store_of_outside (.inr (by simp only [AccessSize.bytes]; omega))).symm
    · intro place high
      have outside : shown.pointer - 8 + AccessSize.eight.bytes ≤ place := by
        simp only [AccessSize.bytes]
        simp only at high
        omega
      rw [bytes, Memory.store_of_outside (.inr outside)]
      exact after.bytes place high

theorem run_executePop {reg : Register} {slot second : Fin 12} {machine popped : Machine}
    {word : Word} (pops : Machine.pop.run.run machine = (.ok word, popped)) :
    (Machine.execute site.program site.settings
      ⟨⟨.pop, reg, .unused, 0⟩, 0, slot, second⟩).run.run machine =
      (.ok (), { popped with registers := Machine.assign popped.registers slot word }) := by
  simp only [Machine.execute, Machine.run_bind, pops, Machine.run_put]

theorem comes_pop (plain : site.Plain cell machine shown)
    (here : site.code[cell]? = some (.instruction ⟨.pop, reg, .unused, 0⟩))
    (free : reg.isFree) {word : Word} {rest : List Word} (stack : shown.stack = word :: rest) :
    machine.Comes site.program site.settings fun after =>
      site.Plain (cell + 1) after (Shown.set { shown with stack := rest } reg word) := by
  obtain ⟨slot, slots⟩ := slot_of_isFree free
  refine plain.comes_of_fetch (plain.fetch_narrow here rfl slots rfl) fun moved after => ?_
  obtain ⟨pointer, below, above, floor, top⟩ := after.pointer_toNat
  have length : shown.stack.length = rest.length + 1 := by rw [stack, List.length_cons]
  have number : (moved.registers.get Machine.slotSP).toNat = shown.pointer := by
    rw [pointer, BitVec.toNat_ofNat, Nat.mod_eq_of_lt (by omega)]
  have next : Shown.pointer { shown with stack := rest } = shown.pointer + 8 := by
    simp only [Shown.pointer]
    omega
  have more : moved.registers.get Machine.slotSP + 8 =
      BitVec.ofNat 64 (Shown.pointer { shown with stack := rest }) := by
    rw [pointer, next, BitVec.ofNat_add]
    rfl
  have addr : (moved.registers.get Machine.slotSP + 8).toNat = shown.pointer + 8 := by
    rw [more, next, BitVec.toNat_ofNat, Nat.mod_eq_of_lt (by omega)]
  have high := after.high
  have highest := after.highest
  have covers : moved.memory.Covers shown.pointer AccessSize.eight.bytes := by
    left
    rw [after.top]
    simp only [AccessSize.bytes]
    omega
  have words := after.words
  rw [stack] at words
  have loaded := Memory.load?_of_covers covers
  rw [words.1] at loaded
  have popped := Machine.run_pop (by rw [number, addr, after.top]; omega)
    (by rw [number]; exact loaded)
  refine .inl ⟨_, run_executePop popped, ?_⟩
  rw [more]
  refine Plain.put (after.repoint (get_stack shown rest) rfl rfl rfl rfl ?_ high ?_ after.bytes)
    slots free word
  · have low := after.low
    simp only
    omega
  · rw [next]
    exact words.2

/-- A range that code sees: from the floor on inside the stack, or inside the data segment. -/
def Sees (site : Site) (shown : Shown) (addr count : Nat) : Prop :=
  shown.floor ≤ addr ∧ (addr + count ≤ site.top ∨
    (Memory.dataBase ≤ addr ∧ addr + count ≤ Memory.dataBase + site.dataSize))

theorem covers_of_sees (plain : site.Plain cell machine shown) {addr count : Nat}
    (sees : Sees site shown addr count) :
    machine.memory.Covers addr count ∧ addr < 2 ^ 32 := by
  have low := plain.low
  have below := site.below
  have data := site.data
  unfold Memory.dataBase at below
  obtain ⟨above, inside⟩ := sees
  unfold Memory.Covers
  rw [plain.top, plain.dataSize]
  unfold Memory.dataBase at inside ⊢
  refine ⟨?_, by omega⟩
  rcases inside with stack | ⟨start, stop⟩
  · exact .inl ⟨by omega, stack⟩
  · exact .inr ⟨start, stop⟩

theorem load?_of_sees (plain : site.Plain cell machine shown) {addr : Nat} {size : AccessSize}
    {word : Word} (sees : Sees site shown addr size.bytes)
    (place : word = BitVec.ofNat 64 addr) :
    machine.memory.load? word.toNat size = some (shown.bytes.word addr size) := by
  obtain ⟨covers, small⟩ := plain.covers_of_sees sees
  have number : word.toNat = addr := by
    rw [place, BitVec.toNat_ofNat, Nat.mod_eq_of_lt (by omega)]
  rw [number, Memory.load?_of_covers covers]
  congr 1
  exact Bytes.word_congr fun byte low high => plain.bytes byte (by have := sees.1; omega)

theorem comes_loadAt (plain : site.Plain cell machine shown) {modifier : UInt8} {addr : Nat}
    {size : AccessSize}
    (here : site.code[cell]? = some (.instruction ⟨.loadAt, reg, other, modifier⟩))
    (next : site.code[cell + 1]? = some (.immediate imm))
    (free : reg.isFree) (isShown : other.isShown)
    (width : AccessSize.ofCode? modifier = some size)
    (place : shown.get other + imm.signExtend 64 = BitVec.ofNat 64 addr)
    (sees : Sees site shown addr size.bytes) :
    machine.Comes site.program site.settings fun after => site.Plain (cell + 2) after
      (shown.set reg (shown.bytes.word addr size)) := by
  obtain ⟨slot, slots⟩ := slot_of_isFree free
  obtain ⟨source, sources⟩ := slot_of_isShown isShown
  refine plain.comes_of_fetch (plain.fetch_wide here next rfl slots sources) fun moved after => ?_
  rw [← after.registers other source sources isShown] at place
  refine .inl ⟨_, ?_, after.put slots free _⟩
  simp only [Machine.execute, Machine.run_bind, Machine.run_get, Machine.run_accessSize width,
    Machine.run_load (after.load?_of_sees sees place), Machine.run_put]

theorem comes_load (plain : site.Plain cell machine shown) {modifier : UInt8} {addr : Nat}
    {size : AccessSize}
    (here : site.code[cell]? = some (.instruction ⟨.load, reg, other, modifier⟩))
    (free : reg.isFree) (isShown : other.isShown)
    (width : AccessSize.ofCode? modifier = some size)
    (place : shown.get other = BitVec.ofNat 64 addr)
    (sees : Sees site shown addr size.bytes) :
    machine.Comes site.program site.settings fun after => site.Plain (cell + 1) after
      (shown.set reg (shown.bytes.word addr size)) := by
  obtain ⟨slot, slots⟩ := slot_of_isFree free
  obtain ⟨source, sources⟩ := slot_of_isShown isShown
  refine plain.comes_of_fetch (plain.fetch_narrow here rfl slots sources) fun moved after => ?_
  rw [← after.registers other source sources isShown] at place
  refine .inl ⟨_, ?_, after.put slots free _⟩
  simp only [Machine.execute, Machine.run_bind, Machine.run_get, Machine.run_accessSize width,
    Machine.run_load (after.load?_of_sees sees place), Machine.run_put]

theorem get_bytes (shown : Shown) (bytes : Bytes) (reg : Register) :
    Shown.get { shown with bytes } reg = shown.get reg := by
  cases reg <;> rfl

/-- Bytes from the floor on may change. -/
theorem rewrite (plain : site.Plain cell machine shown) {bytes : Bytes} {memory : Memory}
    (top : memory.stackTop = machine.memory.stackTop)
    (dataSize : memory.dataSize = machine.memory.dataSize)
    (below : ∀ place, place < shown.floor → memory.byteAt place = machine.memory.byteAt place)
    (above : ∀ place, shown.floor ≤ place → memory.byteAt place = bytes place) :
    site.Plain cell { machine with memory } { shown with bytes } where
  running := plain.running
  piece := plain.piece
  counter := plain.counter
  registers := by
    intro reg slot slots isShown
    rw [get_bytes]
    exact plain.registers reg slot slots isShown
  top := top.trans plain.top
  dataSize := dataSize.trans plain.dataSize
  low := plain.low
  high := plain.high
  highest := plain.highest
  words := by
    have floor := plain.pointer_toNat.2.2.2.1
    exact plain.words.congr fun place low high => (below place (by omega)).symm
  bytes := above
  output := plain.output

theorem store?_of_sees (plain : site.Plain cell machine shown) {addr : Nat} {size : AccessSize}
    {word : Word} (value : Word) (sees : Sees site shown addr size.bytes)
    (place : word = BitVec.ofNat 64 addr) :
    ∃ memory, machine.memory.store? word.toNat size value = some memory ∧
      site.Plain cell { machine with memory }
        { shown with bytes := shown.bytes.store addr size value } := by
  obtain ⟨covers, small⟩ := plain.covers_of_sees sees
  have number : word.toNat = addr := by
    rw [place, BitVec.toNat_ofNat, Nat.mod_eq_of_lt (by omega)]
  obtain ⟨memory, stored, bytes, top, dataSize⟩ := Memory.store?_of_covers value covers
  refine ⟨memory, by rw [number]; exact stored, plain.rewrite top dataSize ?_ ?_⟩
  · intro byte low
    rw [bytes]
    exact Memory.store_of_outside (.inl (by have := sees.1; omega))
  · intro byte high
    rw [bytes, Bytes.store, Bytes.store, Bytes.overwrite, Bytes.overwrite, plain.bytes byte high]

theorem comes_storeAt (plain : site.Plain cell machine shown) {modifier : UInt8} {addr : Nat}
    {size : AccessSize}
    (here : site.code[cell]? = some (.instruction ⟨.storeAt, other, reg, modifier⟩))
    (next : site.code[cell + 1]? = some (.immediate imm))
    (free : reg.isFree) (isShown : other.isShown)
    (width : AccessSize.ofCode? modifier = some size)
    (place : shown.get other + imm.signExtend 64 = BitVec.ofNat 64 addr)
    (sees : Sees site shown addr size.bytes) :
    machine.Comes site.program site.settings fun after => site.Plain (cell + 2) after
      { shown with bytes := shown.bytes.store addr size (shown.get reg) } := by
  obtain ⟨slot, slots⟩ := slot_of_isFree free
  obtain ⟨target, targets⟩ := slot_of_isShown isShown
  refine plain.comes_of_fetch (plain.fetch_wide here next rfl targets slots) fun moved after => ?_
  rw [← after.registers other target targets isShown] at place
  obtain ⟨memory, stored, reached⟩ := after.store?_of_sees (shown.get reg) sees place
  rw [← after.registers reg slot slots (Register.isShown_of_isFree free)] at stored
  refine .inl ⟨_, ?_, reached⟩
  simp only [Machine.execute, Machine.run_bind, Machine.run_get, Machine.run_accessSize width,
    Machine.run_store stored]

theorem comes_store (plain : site.Plain cell machine shown) {modifier : UInt8} {addr : Nat}
    {size : AccessSize}
    (here : site.code[cell]? = some (.instruction ⟨.store, other, reg, modifier⟩))
    (free : reg.isFree) (isShown : other.isShown)
    (width : AccessSize.ofCode? modifier = some size)
    (place : shown.get other = BitVec.ofNat 64 addr)
    (sees : Sees site shown addr size.bytes) :
    machine.Comes site.program site.settings fun after => site.Plain (cell + 1) after
      { shown with bytes := shown.bytes.store addr size (shown.get reg) } := by
  obtain ⟨slot, slots⟩ := slot_of_isFree free
  obtain ⟨target, targets⟩ := slot_of_isShown isShown
  refine plain.comes_of_fetch (plain.fetch_narrow here rfl targets slots) fun moved after => ?_
  rw [← after.registers other target targets isShown] at place
  obtain ⟨memory, stored, reached⟩ := after.store?_of_sees (shown.get reg) sees place
  rw [← after.registers reg slot slots (Register.isShown_of_isFree free)] at stored
  refine .inl ⟨_, ?_, reached⟩
  simp only [Machine.execute, Machine.run_bind, Machine.run_get, Machine.run_accessSize width,
    Machine.run_store stored]

theorem comes_clear (plain : site.Plain cell machine shown) {addr count : Nat}
    (here : site.code[cell]? = some (.instruction ⟨.memzero, .b, .a, 0⟩))
    (place : shown.b = BitVec.ofNat 64 addr) (size : shown.a = BitVec.ofNat 64 count)
    (small : count < 2 ^ 31) (sees : Sees site shown addr count) :
    machine.Comes site.program site.settings fun after => site.Plain (cell + 1) after
      { shown with bytes := shown.bytes.overwrite addr (List.replicate count 0) } := by
  refine plain.comes_of_fetch (plain.fetch_narrow here rfl rfl rfl) fun moved after => ?_
  obtain ⟨covers, low⟩ := after.covers_of_sees sees
  have target : moved.registers.get 2 = BitVec.ofNat 64 addr :=
    (after.registers .b _ rfl rfl).trans place
  have number : (moved.registers.get 2).toNat = addr := by
    rw [target, BitVec.toNat_ofNat, Nat.mod_eq_of_lt (by omega)]
  have length : (moved.registers.get 1).toInt = count := by
    have amount : moved.registers.get 1 = BitVec.ofNat 64 count :=
      (after.registers .a _ rfl rfl).trans size
    rw [amount, BitVec.toInt_ofNat']
    exact Int.bmod_eq_of_le (by omega) (by omega)
  obtain ⟨memory, cleared, bytes, top, dataSize⟩ := Memory.clear?_of_covers covers
  have run : (Machine.execute site.program site.settings
      ⟨⟨.memzero, .b, .a, 0⟩, 0, 2, 1⟩).run.run moved = (.ok (), { moved with memory }) := by
    simp only [Machine.execute, Machine.changeMemory, Machine.run_bind, Machine.run_get,
      Machine.run_getThe, number, length, cleared]
    rfl
  refine .inl ⟨_, run, after.rewrite top dataSize ?_ ?_⟩
  · intro byte below
    rw [bytes]
    exact Bytes.overwrite_of_outside (.inl (by have := sees.1; omega))
  · intro byte high
    rw [bytes, Bytes.overwrite, Bytes.overwrite, after.bytes byte high]

/-- The address of a word of the operand stack. -/
theorem word_place (plain : site.Plain cell machine shown) {index : Nat}
    (inside : index < shown.stack.length) (distance : imm.toInt = 8 * index) :
    (machine.registers.get Machine.slotSP + imm.signExtend 64).toNat =
        shown.pointer + 8 * index ∧
      machine.memory.Covers (shown.pointer + 8 * index) AccessSize.eight.bytes := by
  obtain ⟨pointer, below, above, floor, top⟩ := plain.pointer_toNat
  have high := plain.high
  have highest := plain.highest
  constructor
  · have extended : imm.signExtend 64 = BitVec.ofNat 64 (8 * index) := by
      rw [BitVec.signExtend, distance]
      apply BitVec.eq_of_toInt_eq
      rw [BitVec.toInt_ofInt, BitVec.toInt_ofNat']
      simp
    rw [pointer, extended, ← BitVec.ofNat_add, BitVec.toNat_ofNat, Nat.mod_eq_of_lt (by omega)]
  · left
    rw [plain.top]
    simp only [AccessSize.bytes]
    omega

theorem comes_loadWord (plain : site.Plain cell machine shown) {index : Nat}
    (here : site.code[cell]? = some (.instruction ⟨.loadAt, reg, .stackPointer, 8⟩))
    (next : site.code[cell + 1]? = some (.immediate imm)) (free : reg.isFree)
    (inside : index < shown.stack.length) (distance : imm.toInt = 8 * index) :
    machine.Comes site.program site.settings fun after => site.Plain (cell + 2) after
      (shown.set reg shown.stack[index]) := by
  obtain ⟨slot, slots⟩ := slot_of_isFree free
  refine plain.comes_of_fetch (plain.fetch_wide here next rfl slots rfl) fun moved after => ?_
  obtain ⟨place, covers⟩ := after.word_place inside distance
  have loaded := Memory.load?_of_covers covers
  rw [after.words.getElem inside, ← place] at loaded
  have run : (Machine.execute site.program site.settings
      ⟨⟨.loadAt, reg, .stackPointer, 8⟩, imm, slot, Machine.slotSP⟩).run.run moved =
      (.ok (),
        { moved with registers := Machine.assign moved.registers slot shown.stack[index] }) := by
    simp only [Machine.execute, Machine.run_bind, Machine.run_get,
      Machine.run_accessSize (show AccessSize.ofCode? 8 = some .eight by decide),
      Machine.run_load loaded, Machine.run_put]
  exact .inl ⟨_, run, after.put slots free _⟩

theorem comes_storeWord (plain : site.Plain cell machine shown) {index : Nat}
    (here : site.code[cell]? = some (.instruction ⟨.storeAt, .stackPointer, reg, 8⟩))
    (next : site.code[cell + 1]? = some (.immediate imm)) (free : reg.isFree)
    (inside : index < shown.stack.length) (distance : imm.toInt = 8 * index) :
    machine.Comes site.program site.settings fun after => site.Plain (cell + 2) after
      { shown with stack := shown.stack.set index (shown.get reg) } := by
  obtain ⟨slot, slots⟩ := slot_of_isFree free
  refine plain.comes_of_fetch (plain.fetch_wide here next rfl rfl slots) fun moved after => ?_
  obtain ⟨place, covers⟩ := after.word_place inside distance
  have floor := after.pointer_toNat.2.2.2.1
  obtain ⟨memory, stored, bytes, top, dataSize⟩ :=
    Memory.store?_of_covers (shown.get reg) covers
  rw [← place, ← after.registers reg slot slots (Register.isShown_of_isFree free)] at stored
  have run : (Machine.execute site.program site.settings
      ⟨⟨.storeAt, .stackPointer, reg, 8⟩, imm, Machine.slotSP, slot⟩).run.run moved =
      (.ok (), { moved with memory }) := by
    simp only [Machine.execute, Machine.run_bind, Machine.run_get,
      Machine.run_accessSize (show AccessSize.ofCode? 8 = some .eight by decide),
      Machine.run_store stored]
  refine .inl ⟨_, run, ?_⟩
  have same : Shown.pointer { shown with stack := shown.stack.set index (shown.get reg) } =
      shown.pointer := by
    simp only [Shown.pointer, List.length_set]
  refine { after with
    registers := ?_, top := top.trans after.top, dataSize := dataSize.trans after.dataSize
    low := by simpa using after.low, words := ?_, bytes := ?_ }
  · intro visible place' places isShown
    have value := after.registers visible place' places isShown
    by_cases stack : visible = .stackPointer
    · subst stack
      exact value.trans (congrArg (BitVec.ofNat 64) same.symm)
    · exact value.trans (get_stack shown _ visible stack).symm
  · rw [same]
    simp only [bytes]
    exact after.words.set inside _
  · intro byte high
    have outside : shown.pointer + 8 * index + AccessSize.eight.bytes ≤ byte := by
      simp only [AccessSize.bytes]
      simp only at high
      omega
    simp only [bytes]
    rw [Memory.store_of_outside (.inr outside)]
    exact after.bytes byte high

/-- Moving the stack pointer. -/
theorem run_increasePointer (plain : site.Plain cell machine shown) {target : Int}
    (distance : target = shown.pointer + imm.toInt) (small : imm.toInt ≤ 2 ^ 31) :
    (target < Memory.stackBase →
      ∃ after, (Machine.execute site.program site.settings
        ⟨⟨.increase, .stackPointer, .unused, 0⟩, imm, Machine.slotSP, 0⟩).run.run machine =
        (.error (.pointerBelow target), after)) ∧
    (Memory.stackBase ≤ target → target ≤ site.top →
      (Machine.execute site.program site.settings
        ⟨⟨.increase, .stackPointer, .unused, 0⟩, imm, Machine.slotSP, 0⟩).run.run machine =
        (.ok (), { machine with
          registers := Machine.assign machine.registers Machine.slotSP
            (BitVec.ofNat 64 target.toNat) })) := by
  obtain ⟨pointer, below, above, floor, top⟩ := plain.pointer_toNat
  have least : -2 ^ 31 ≤ imm.toInt := by
    have bound := imm.le_toInt
    omega
  have number : (machine.registers.get Machine.slotSP + imm.signExtend 64).toInt = target := by
    have extended : (imm.signExtend 64).toInt = imm.toInt :=
      BitVec.toInt_signExtend_of_le (by decide)
    have start : (BitVec.ofNat 64 shown.pointer).toInt = shown.pointer := by
      rw [BitVec.toInt_ofNat']
      exact Int.bmod_eq_of_le (by omega) (by omega)
    rw [pointer, BitVec.toInt_add, extended, start, Int.bmod_eq_of_le (by omega) (by omega)]
    exact distance.symm
  have read : ∀ value : Word, ({ machine with
      registers := Machine.assign machine.registers Machine.slotSP value } : Machine).registers.get
        Machine.slotSP = value := by
    intro value
    simp only [Machine.get_assign, ↓reduceIte]
  have memory := plain.top
  constructor
  · intro less
    let pointer := machine.registers.get Machine.slotSP + imm.signExtend 64
    refine ⟨{ machine with registers := Machine.assign machine.registers Machine.slotSP pointer },
      ?_⟩
    simp only [Machine.execute, Machine.putChecked, Machine.checkPointer, Machine.run_bind,
      Machine.run_get, Machine.run_put, Machine.run_getThe, ↓reduceIte, read, number, less,
      Machine.run_throw]
    rfl
  · intro least most
    have notLess : ¬ target < Memory.stackBase := by omega
    have notMore : ¬ (machine.memory.stackTop : Int) < target := by
      rw [memory]
      omega
    have place : BitVec.ofNat 64 target.toNat =
        machine.registers.get Machine.slotSP + imm.signExtend 64 := by
      apply BitVec.eq_of_toInt_eq
      rw [number, BitVec.toInt_ofNat', Int.bmod_eq_of_le (by omega) (by omega)]
      omega
    rw [place]
    simp only [Machine.execute, Machine.putChecked, Machine.checkPointer, Machine.run_bind,
      Machine.run_get, Machine.run_put, Machine.run_getThe, ↓reduceIte, read, number, notLess,
      notMore, Machine.run_pure]

/-- Room is made below the operand stack, whose words become bytes. -/
theorem comes_reserve (plain : site.Plain cell machine shown) {size : Nat}
    (here : site.code[cell]? = some (.instruction ⟨.increase, .stackPointer, .unused, 0⟩))
    (next : site.code[cell + 1]? = some (.immediate imm))
    (distance : imm.toInt = -(size : Int)) :
    machine.Comes site.program site.settings fun after => ∃ bytes : Bytes,
      size ≤ shown.pointer ∧
      site.Plain (cell + 2) after
        { shown with stack := [], floor := shown.pointer - size, bytes } ∧
      (∀ place, shown.floor ≤ place → bytes place = shown.bytes place) ∧
      bytes.Spells shown.pointer shown.stack := by
  refine plain.comes_of_fetch (plain.fetch_wide here next rfl rfl rfl) fun moved after => ?_
  obtain ⟨pointer, below, above, floor, top⟩ := after.pointer_toNat
  obtain ⟨overflows, moves⟩ :=
    after.run_increasePointer (show (shown.pointer : Int) - size = _ by rw [distance]; rfl)
      (by omega)
  by_cases low : ((shown.pointer : Int) - size) < Memory.stackBase
  · obtain ⟨last, run⟩ := overflows low
    exact .inr ⟨_, last, run, rfl⟩
  · refine .inl ⟨_, moves (by omega) (by omega), moved.memory.byteAt, by omega, ?_, after.bytes,
      after.words⟩
    have place : ((shown.pointer : Int) - size).toNat = shown.pointer - size := by omega
    have high := after.high
    rw [place]
    refine @repoint _ _ _ _ after { shown with
      stack := [], floor := shown.pointer - size, bytes := moved.memory.byteAt } _
      ?_ rfl rfl rfl rfl ?_ ?_ trivial fun _ _ => rfl
    · intro reg other
      cases reg <;> first | rfl | exact absurd rfl other
    · simp only [List.length_nil]
      omega
    · simp only
      omega

/-- Words of the operand stack are dropped. -/
theorem comes_drop (plain : site.Plain cell machine shown) {count : Nat}
    (here : site.code[cell]? = some (.instruction ⟨.increase, .stackPointer, .unused, 0⟩))
    (next : site.code[cell + 1]? = some (.immediate imm))
    (distance : imm.toInt = 8 * count) (enough : count ≤ shown.stack.length) :
    machine.Comes site.program site.settings fun after =>
      site.Plain (cell + 2) after { shown with stack := shown.stack.drop count } := by
  refine plain.comes_of_fetch (plain.fetch_wide here next rfl rfl rfl) fun moved after => ?_
  obtain ⟨pointer, below, above, floor, top⟩ := after.pointer_toNat
  have bound := imm.toInt_lt
  obtain ⟨_, moves⟩ := after.run_increasePointer
    (show (shown.pointer : Int) + 8 * count = _ by rw [distance]) (by omega)
  have high := after.high
  have highest := after.highest
  have length : (shown.stack.drop count).length = shown.stack.length - count :=
    List.length_drop
  have place : Shown.pointer { shown with stack := shown.stack.drop count } =
      ((shown.pointer : Int) + 8 * count).toNat := by
    simp only [Shown.pointer, length]
    omega
  refine .inl ⟨_, moves (by omega) (by omega), ?_⟩
  rw [← place]
  refine after.repoint (get_stack shown _) rfl rfl rfl rfl ?_ high ?_ after.bytes
  · have low := after.low
    simp only [length]
    omega
  · have words := after.words
    rw [← List.take_append_drop count shown.stack, Bytes.spells_append, List.length_take,
      Nat.min_eq_left enough] at words
    have start : ((shown.pointer : Int) + 8 * count).toNat = shown.pointer + 8 * count := by omega
    rw [place, start]
    exact words.2

/-- Bytes above an empty operand stack are given back, or become its words. -/
theorem comes_release (plain : site.Plain cell machine shown) {size : Nat} {stack : List Word}
    (here : site.code[cell]? = some (.instruction ⟨.increase, .stackPointer, .unused, 0⟩))
    (next : site.code[cell + 1]? = some (.immediate imm))
    (distance : imm.toInt = size) (empty : shown.stack = [])
    (room : shown.floor + size + 8 * stack.length ≤ shown.base)
    (words : shown.bytes.Spells (shown.floor + size) stack) :
    machine.Comes site.program site.settings fun after => site.Plain (cell + 2) after
      { shown with stack, floor := shown.floor + size + 8 * stack.length } := by
  refine plain.comes_of_fetch (plain.fetch_wide here next rfl rfl rfl) fun moved after => ?_
  obtain ⟨pointer, below, above, floor, top⟩ := after.pointer_toNat
  rw [empty, List.length_nil] at floor
  have bound := imm.toInt_lt
  obtain ⟨_, moves⟩ := after.run_increasePointer
    (show (shown.pointer : Int) + size = _ by rw [distance]) (by omega)
  have highest := after.highest
  have start : ((shown.pointer : Int) + size).toNat = shown.floor + size := by omega
  have place : Shown.pointer { shown with stack, floor := shown.floor + size + 8 * stack.length } =
      ((shown.pointer : Int) + size).toNat := by
    rw [start]
    simp only [Shown.pointer]
    omega
  refine .inl ⟨_, moves (by omega) (by omega), ?_⟩
  rw [← place]
  refine after.repoint ?_ rfl rfl rfl rfl ?_ room ?_ ?_
  · intro reg other
    cases reg <;> first | rfl | exact absurd rfl other
  · simp only
    omega
  · rw [place, start]
    exact words.congr fun byte low high => (after.bytes byte (by omega)).symm
  · intro byte high
    simp only at high
    exact after.bytes byte (by omega)

/-- The words of the operand stack are bytes as well. -/
theorem absorb (plain : site.Plain cell machine shown) :
    site.Plain cell machine
        { shown with stack := [], floor := shown.pointer, bytes := machine.memory.byteAt } ∧
      (∀ place, shown.floor ≤ place → machine.memory.byteAt place = shown.bytes place) ∧
      Bytes.Spells machine.memory.byteAt shown.pointer shown.stack := by
  obtain ⟨pointer, below, above, floor, top⟩ := plain.pointer_toNat
  refine ⟨?_, plain.bytes, plain.words⟩
  exact { plain with
    registers := fun reg slot slots isShown => by
      have value := plain.registers reg slot slots isShown
      exact value.trans (by cases reg <;> rfl)
    low := by simpa using above
    high := Nat.le_trans (by dsimp only; omega) plain.high
    words := trivial
    bytes := fun _ _ => rfl }

/-- Bytes that spell words are words of the operand stack as well. -/
theorem emerge (plain : site.Plain cell machine shown) (empty : shown.stack = [])
    {stack : List Word}
    (room : shown.floor + 8 * stack.length ≤ shown.base)
    (words : shown.bytes.Spells shown.floor stack) :
    site.Plain cell machine { shown with stack, floor := shown.floor + 8 * stack.length } := by
  obtain ⟨pointer, below, above, floor, top⟩ := plain.pointer_toNat
  rw [empty, List.length_nil] at floor
  have same : Shown.pointer { shown with stack, floor := shown.floor + 8 * stack.length } =
      shown.pointer := by
    simp only [Shown.pointer]
    simp only [empty, List.length_nil]
    omega
  exact { plain with
    registers := fun reg slot slots isShown => by
      have value := plain.registers reg slot slots isShown
      by_cases pointer : reg = .stackPointer
      · subst pointer
        exact value.trans (congrArg (BitVec.ofNat 64) same.symm)
      · exact value.trans (by cases reg <;> first | rfl | exact absurd rfl pointer)
    low := by
      have low := plain.low
      rw [empty, List.length_nil] at low
      dsimp only
      omega
    high := room
    words := by
      rw [same, show shown.pointer = shown.floor by omega]
      exact words.congr fun place low _ => (plain.bytes place low).symm
    bytes := fun place high => plain.bytes place (by dsimp only at high; omega) }

end Plain

end Site

end TinLang
