import TinLang.Proofs.Simulation.Emitted

/-!
# What emitted code leads to

`Scene.Leads` says of a step of a generator what the code that it emits does to what is shown,
whatever code follows. One lemma for each instruction says so for the steps that emit it, and steps
one after another lead on as the code does. A program with pointers reads and writes wherever they
lead, which may fault and may change any word of the operand stack: `Scene.Tries` says what is shown
behind the code of a step unless it faults.
-/
namespace TinLang

/-- Where the code of a function under construction runs, and what its names stand for. -/
structure Scene where
  /-- Where the final code runs. -/
  site : Site
  /-- The jumps whose targets are not looked at. -/
  holes : List Nat
  /-- What the code depends on. -/
  context : FunctionContext
  /-- The scopes in which it is generated. -/
  scopes : List Scope

namespace Scene

variable {scene : Scene} {α β : Type} {before : Shown → Prop}

open Generate

/-- The code that a step emits leads from one condition to another. -/
structure Leads (scene : Scene) (before : Shown → Prop) (step : Generate α)
    (after : α → Shown → Prop) : Prop where
  emits : Emits step
  comes : ∀ ⦃gen value later⦄, step scene.context gen = .done (value, later) →
    gen.scopes = scene.scopes → later.piece.Completes scene.site.code scene.holes →
    ∀ ⦃machine shown⦄, scene.site.Shows gen.piece machine shown → before shown →
      machine.Comes scene.site.program scene.site.settings fun last =>
        ∃ final, scene.site.Shows later.piece last final ∧ after value final

namespace Leads

theorem pure {value : α} {after : α → Shown → Prop}
    (holds : ∀ shown, before shown → after value shown) :
    scene.Leads before (pure value) after where
  emits := .pure value
  comes gen result later done _ _ machine shown shows start := by
    obtain ⟨rfl, rfl⟩ := Prod.mk.inj (pure_done.mp done)
    exact .here ⟨shown, shows, holds shown start⟩

theorem bind {step : Generate α} {next : α → Generate β} {middle : α → Shown → Prop}
    {after : β → Shown → Prop} (first : scene.Leads before step middle)
    (second : ∀ value, scene.Leads (middle value) (next value) after) :
    scene.Leads before (step >>= next) after where
  emits := first.emits.bind fun value => (second value).emits
  comes gen result later done scopes complete machine shown shows start := by
    obtain ⟨value, between, one, two⟩ := bind_done.mp done
    obtain ⟨piece, rfl, emitted⟩ := first.emits one shows.bounded
    obtain ⟨_, rfl, more⟩ := (second value).emits two emitted.bounded
    refine (first.comes one scopes (more.completes complete) shows start).bind ?_
    rintro last ⟨final, reached, held⟩
    exact (second value).comes two scopes complete reached held

theorem mono {step : Generate α} {wanted : Shown → Prop} {after weaker : α → Shown → Prop}
    (leads : scene.Leads before step after) (stronger : ∀ shown, wanted shown → before shown)
    (weakens : ∀ value shown, after value shown → weaker value shown) :
    scene.Leads wanted step weaker where
  emits := leads.emits
  comes _ _ _ done scopes complete _ _ shows start :=
    (leads.comes done scopes complete shows (stronger _ start)).mono
      fun _ ⟨final, reached, held⟩ => ⟨final, reached, weakens _ final held⟩

theorem weaken {step : Generate α} {after weaker : α → Shown → Prop}
    (leads : scene.Leads before step after)
    (weakens : ∀ value shown, after value shown → weaker value shown) :
    scene.Leads before step weaker :=
  leads.mono (fun _ => id) weakens

theorem ite {test : Prop} [Decidable test] {yes no : Generate α} {after : α → Shown → Prop}
    (first : test → scene.Leads before yes after) (second : ¬ test → scene.Leads before no after) :
    scene.Leads before (if test then yes else no) after := by
  split
  · next holds => exact first holds
  · next fails => exact second fails

/-- A step that only looks at the surroundings. -/
theorem look {step : Generate α} {after : α → Shown → Prop} {found : Generator → α}
    (same : ∀ ctx gen, ∃ value, step ctx gen = .done (value, gen))
    (looks : ∀ gen, step scene.context gen = .done (found gen, gen))
    (holds : ∀ gen, gen.scopes = scene.scopes → ∀ shown, before shown →
      after (found gen) shown) : scene.Leads before step after where
  emits := .look same
  comes gen value later done scopes _ machine shown shows start := by
    rw [looks] at done
    obtain ⟨rfl, rfl⟩ := Prod.mk.inj (Task.done.inj done)
    exact .here ⟨shown, shows, holds gen scopes shown start⟩

/-- A step that emits one instruction. -/
theorem change {step : Piece → Piece} {after : Unit → Shown → Prop}
    (emitted : ∀ piece : Piece, piece.barrier ≤ piece.size → piece.Emitted (step piece))
    (comes : ∀ piece : Piece, (step piece).Completes scene.site.code scene.holes →
      ∀ machine shown, scene.site.Shows piece machine shown → before shown →
        machine.Comes scene.site.program scene.site.settings fun last =>
          ∃ final, scene.site.Shows (step piece) last final ∧ after () final) :
    scene.Leads before (Generate.change step) after where
  emits := .change emitted
  comes gen value later done _ complete machine shown shows start := by
    obtain ⟨-, rfl⟩ := Prod.mk.inj (Task.done.inj done)
    exact comes gen.piece complete machine shown shows start

/-- From a known start. -/
theorem of_eq {step : Generate α} {after : α → Shown → Prop}
    (each : ∀ shown, before shown → scene.Leads (· = shown) step after) (emits : Emits step) :
    scene.Leads before step after :=
  ⟨emits, fun _ _ _ done scopes complete _ shown shows start =>
    (each shown start).comes done scopes complete shows rfl⟩

end Leads

theorem leads_environment : scene.Leads before environment fun found shown =>
    found = scene.context.environment ∧ before shown :=
  @Leads.look _ _ _ _ _ (fun _ => scene.context.environment)
    (fun ctx _ => ⟨ctx.environment, rfl⟩) (fun _ => rfl) fun _ _ _ start => ⟨rfl, start⟩

variable {shown : Shown} {reg other : Register} {number : Int}
  {size : AccessSize} {modifier : UInt8}

theorem leads_push (free : reg.isFree) :
    scene.Leads (· = shown) (push reg)
      fun _ final => final = { shown with stack := shown.get reg :: shown.stack } :=
  .change (fun _ bounded => Piece.emitted_emitPush bounded reg)
    fun _ _ _ _ shows start => .here ⟨_, shows.push free, by rw [start]⟩

theorem leads_pop (free : reg.isFree) {word : Word} {rest : List Word}
    (stack : shown.stack = word :: rest) :
    scene.Leads (· = shown) (pop reg)
      fun _ final => final = Shown.set { shown with stack := rest } reg word :=
  .change (fun _ bounded => Piece.emitted_emitPop bounded reg)
    fun _ complete _ _ shows start =>
      (shows.comes_pop complete free (start ▸ stack)).mono fun _ reached =>
        ⟨_, reached, by rw [start]⟩

/-- An instruction without an immediate, other than a push or a pop. -/
theorem leads_emit_to {op : Opcode} {after : Shown → Prop}
    (plain : op ≠ .push ∧ op ≠ .pop ∧ op ≠ .giveBack)
    (runs : ∀ cell machine,
      scene.site.code[cell]? = some (.instruction ⟨op, reg, other, modifier⟩) →
      scene.site.Plain cell machine shown →
      machine.Comes scene.site.program scene.site.settings fun last =>
        ∃ final, scene.site.Plain (cell + 1) last final ∧ after final) :
    scene.Leads (· = shown) (emit op reg other modifier) fun _ final => after final := by
  refine .change (fun _ bounded => Piece.emitted_emit bounded plain.1 plain.2.1 plain.2.2) ?_
  rintro piece complete machine _ shows rfl
  exact shows.comes_emit complete plain.1 plain.2.1 fun after here reached =>
    runs piece.size after here reached

theorem leads_emit {op : Opcode} {final : Shown} (plain : op ≠ .push ∧ op ≠ .pop ∧ op ≠ .giveBack)
    (runs : ∀ cell machine,
      scene.site.code[cell]? = some (.instruction ⟨op, reg, other, modifier⟩) →
      scene.site.Plain cell machine shown →
      machine.Comes scene.site.program scene.site.settings fun after =>
        scene.site.Plain (cell + 1) after final) :
    scene.Leads (· = shown) (emit op reg other modifier) fun _ last => last = final :=
  leads_emit_to plain fun cell machine here reached =>
    (runs cell machine here reached).mono fun _ done => ⟨final, done, rfl⟩

/-- An instruction with an immediate, other than a jump or a call. -/
theorem leads_emitNumber {op : Opcode} {after : Shown → Prop}
    (plain : op ≠ .jump ∧ op ≠ .jumpZero ∧ op ≠ .call ∧ op ≠ .giveBack)
    (runs : ∀ cell machine,
      scene.site.code[cell]? = some (.instruction ⟨op, reg, other, modifier⟩) →
      scene.site.code[cell + 1]? = some (.immediate (.ofInt 32 number)) →
      scene.site.Plain cell machine shown →
      machine.Comes scene.site.program scene.site.settings fun last =>
        ∃ final, scene.site.Plain (cell + 2) last final ∧ after final) :
    scene.Leads (· = shown) (emitNumber op reg other modifier number)
      fun _ final => after final := by
  refine .change (fun _ bounded => Piece.emitted_emitImmediate bounded _ plain.2.2.2) ?_
  rintro piece complete machine _ shows rfl
  exact shows.comes_emitImmediate complete ⟨plain.1, plain.2.1⟩ (.inl plain.2.2.1)
    fun after here next reached => runs piece.size after here next reached

theorem leads_move (free : reg.isFree) (isShown : other.isShown) :
    scene.Leads (· = shown) (emit .move reg other)
      fun _ final => final = shown.set reg (shown.get other) :=
  leads_emit (by decide) fun _ _ here plain => plain.comes_move here free isShown

/-- The address of the operand stack is taken; its words fit the stack. -/
theorem leads_movePointer (free : reg.isFree) :
    scene.Leads (· = shown) (emit .move reg .stackPointer) fun _ final =>
      final = shown.set reg (BitVec.ofNat 64 shown.pointer) ∧
        Memory.stackBase + 8 * shown.stack.length ≤ shown.floor ∧ shown.base ≤ scene.site.top :=
  leads_emit_to (by decide) fun _ _ here plain =>
    (plain.comes_move here free rfl).mono fun _ done => ⟨_, done, rfl, plain.low, plain.highest⟩

theorem leads_increase (free : reg.isFree) :
    scene.Leads (· = shown) (increase reg number) fun _ final =>
      final = shown.set reg (shown.get reg + (BitVec.ofInt 32 number).signExtend 64) :=
  leads_emitNumber (by decide) fun _ _ here next plain =>
    (plain.comes_increase here next free).mono fun _ done => ⟨_, done, rfl⟩

theorem leads_setNumber (free : reg.isFree) :
    scene.Leads (· = shown) (setNumber reg number) fun _ final =>
      final = shown.set reg ((BitVec.ofInt 32 number).signExtend 64) :=
  leads_emitNumber (by decide) fun _ _ here next plain =>
    (plain.comes_setNumber here next free).mono fun _ done => ⟨_, done, rfl⟩

theorem leads_pushNumber :
    scene.Leads (· = shown) (pushNumber number) fun _ final =>
      final = { shown with
        a := (BitVec.ofInt 32 number).signExtend 64
        stack := (BitVec.ofInt 32 number).signExtend 64 :: shown.stack } := by
  refine .bind (leads_setNumber rfl) fun _ => .of_eq ?_ (emits_push _)
  rintro _ rfl
  exact leads_push rfl

theorem leads_setDataAddress (free : reg.isFree) :
    scene.Leads (· = shown) (setDataAddress reg number) fun _ final =>
      final = shown.set reg
        (BitVec.ofNat 64 Memory.dataBase + (BitVec.ofInt 32 number).signExtend 64) :=
  leads_emitNumber (by decide) fun _ _ here next plain =>
    (plain.comes_setDataAddress here next free).mono fun _ done => ⟨_, done, rfl⟩

theorem leads_convert (conversion : Conversion) (free : reg.isFree) :
    scene.Leads (· = shown) (convert conversion reg) fun _ final =>
      final = shown.set reg (Arithmetic.convert conversion (shown.get reg)) :=
  leads_emit (by decide) fun _ _ here plain => plain.comes_convert conversion here free

theorem leads_not (free : reg.isFree) (isShown : other.isShown) :
    scene.Leads (· = shown) (emit .not reg other) fun _ final =>
      final = shown.set reg (Arithmetic.ofBool (shown.get other == 0)) :=
  leads_emit (by decide) fun _ _ here plain => plain.comes_not here free isShown

theorem leads_load (addr : Nat) (free : reg.isFree) (isShown : other.isShown)
    (width : AccessSize.ofCode? modifier = some size)
    (place : shown.get other = BitVec.ofNat 64 addr)
    (sees : Site.Plain.Sees scene.site shown addr size.bytes) :
    scene.Leads (· = shown) (emit .load reg other modifier) fun _ final =>
      final = shown.set reg (shown.bytes.word addr size) :=
  leads_emit (by decide) fun _ _ here plain => plain.comes_load here free isShown width place sees

theorem leads_store (addr : Nat) (free : reg.isFree) (isShown : other.isShown)
    (width : AccessSize.ofCode? modifier = some size)
    (place : shown.get other = BitVec.ofNat 64 addr)
    (sees : Site.Plain.Sees scene.site shown addr size.bytes) :
    scene.Leads (· = shown) (emit .store other reg modifier) fun _ final =>
      final = { shown with bytes := shown.bytes.store addr size (shown.get reg) } :=
  leads_emit (by decide) fun _ _ here plain => plain.comes_store here free isShown width place sees

theorem leads_loadAt (addr : Nat) (free : reg.isFree) (isShown : other.isShown)
    (width : AccessSize.ofCode? modifier = some size)
    (place : shown.get other + (BitVec.ofInt 32 number).signExtend 64 = BitVec.ofNat 64 addr)
    (sees : Site.Plain.Sees scene.site shown addr size.bytes) :
    scene.Leads (· = shown) (emitNumber .loadAt reg other modifier number) fun _ final =>
      final = shown.set reg (shown.bytes.word addr size) :=
  leads_emitNumber (by decide) fun _ _ here next plain =>
    (plain.comes_loadAt here next free isShown width place sees).mono fun _ done => ⟨_, done, rfl⟩

theorem leads_storeAt (addr : Nat) (free : reg.isFree) (isShown : other.isShown)
    (width : AccessSize.ofCode? modifier = some size)
    (place : shown.get other + (BitVec.ofInt 32 number).signExtend 64 = BitVec.ofNat 64 addr)
    (sees : Site.Plain.Sees scene.site shown addr size.bytes) :
    scene.Leads (· = shown) (emitNumber .storeAt other reg modifier number) fun _ final =>
      final = { shown with bytes := shown.bytes.store addr size (shown.get reg) } :=
  leads_emitNumber (by decide) fun _ _ here next plain =>
    (plain.comes_storeAt here next free isShown width place sees).mono fun _ done => ⟨_, done, rfl⟩

/-- A number that an immediate holds is read back from it. -/
theorem toInt_ofInt {number : Int} (low : -2 ^ 31 ≤ number) (high : number < 2 ^ 31) :
    (BitVec.ofInt 32 number).toInt = number := by
  rw [BitVec.toInt_ofInt]
  exact Int.bmod_eq_of_le (by omega) (by omega)

theorem leads_loadWord (free : reg.isFree) {index : Nat} (inside : index < shown.stack.length)
    (small : 8 * index < 2 ^ 31) :
    scene.Leads (· = shown) (emitNumber .loadAt reg .stackPointer 8 ((8 * index : Nat) : Int))
      fun _ final => final = shown.set reg shown.stack[index] :=
  leads_emitNumber (by decide) fun _ _ here next plain =>
    (plain.comes_loadWord here next free inside (by rw [toInt_ofInt] <;> omega)).mono
      fun _ done => ⟨_, done, rfl⟩

theorem leads_storeWord (free : reg.isFree) {index : Nat} (inside : index < shown.stack.length)
    (small : 8 * index < 2 ^ 31) :
    scene.Leads (· = shown) (emitNumber .storeAt .stackPointer reg 8 ((8 * index : Nat) : Int))
      fun _ final =>
        final = { shown with stack := shown.stack.set index (shown.get reg) } :=
  leads_emitNumber (by decide) fun _ _ here next plain =>
    (plain.comes_storeWord here next free inside (by rw [toInt_ofInt] <;> omega)).mono
      fun _ done => ⟨_, done, rfl⟩

theorem leads_clear (addr : Nat) {count : Nat} (place : shown.b = BitVec.ofNat 64 addr)
    (amount : shown.a = BitVec.ofNat 64 count) (small : count < 2 ^ 31)
    (sees : Site.Plain.Sees scene.site shown addr count) :
    scene.Leads (· = shown) (emit .memzero .b .a) fun _ final =>
      final = { shown with bytes := shown.bytes.overwrite addr (List.replicate count 0) } :=
  leads_emit (by decide) fun _ _ here plain => plain.comes_clear here place amount small sees

theorem leads_reserve {count : Nat} (small : count ≤ 2 ^ 31) :
    scene.Leads (· = shown) (increase .stackPointer (-(count : Int))) fun _ final =>
      ∃ (floor : Nat) (bytes : Bytes), floor + count + 8 * shown.stack.length = shown.floor ∧
        final = { shown with stack := [], floor, bytes } ∧
        (∀ place, shown.floor ≤ place → bytes place = shown.bytes place) ∧
        bytes.Spells (floor + count) shown.stack := by
  refine leads_emitNumber (by decide) fun _ _ here next plain =>
    (plain.comes_reserve here next (toInt_ofInt (by omega) (by omega))).mono ?_
  rintro _ ⟨bytes, room, done, same, words⟩
  have low := plain.low
  have place : shown.pointer - count + count = shown.pointer := Nat.sub_add_cancel room
  refine ⟨_, done, shown.pointer - count, bytes, ?_, rfl, same, place.symm ▸ words⟩
  rw [place, Shown.pointer]
  omega

theorem leads_drop {count : Nat} (small : 8 * count < 2 ^ 31)
    (enough : count ≤ shown.stack.length) :
    scene.Leads (· = shown) (increase .stackPointer ((8 * count : Nat) : Int)) fun _ final =>
      final = { shown with stack := shown.stack.drop count } :=
  leads_emitNumber (by decide) fun _ _ here next plain =>
    (plain.comes_drop here next (by rw [toInt_ofInt] <;> omega) enough).mono
      fun _ done => ⟨_, done, rfl⟩

theorem leads_release {count : Nat} {stack : List Word} (small : count < 2 ^ 31)
    (empty : shown.stack = []) (room : shown.floor + count + 8 * stack.length ≤ shown.base)
    (words : shown.bytes.Spells (shown.floor + count) stack) :
    scene.Leads (· = shown) (increase .stackPointer (count : Int)) fun _ final =>
      final = { shown with stack, floor := shown.floor + count + 8 * stack.length } :=
  leads_emitNumber (by decide) fun _ _ here next plain =>
    (plain.comes_release here next (toInt_ofInt (by omega) (by omega)) empty room words).mono
      fun _ done => ⟨_, done, rfl⟩

end Scene

/-- The next step faults. -/
def Machine.Faults (prog : Program) (settings : Settings) (machine : Machine) : Prop :=
  machine.running = true ∧ ∃ after fault, machine.step prog settings = (after, some fault)

theorem Bytes.exists_spells (bytes : Bytes) (addr count : Nat) :
    ∃ words : List Word, words.length = count ∧ bytes.Spells addr words := by
  induction count generalizing addr with
  | zero => exact ⟨[], rfl, trivial⟩
  | succ count ih =>
    obtain ⟨words, length, spells⟩ := ih (addr + 8)
    exact ⟨bytes.word addr .eight :: words, by rw [List.length_cons, length], rfl, spells⟩

namespace Memory

variable {memory after : Memory} {addr : Nat} {size : AccessSize} {word : Word}

theorem narrow_of_load? (loaded : memory.load? addr size = some word) :
    narrow size word.toNat = word := by
  obtain ⟨bytes, -, rfl⟩ := Option.map_eq_some_iff.mp loaded
  exact narrow_narrow size _

/-- A store changes only contents. -/
theorem sizes_of_store? (stored : memory.store? addr size word = some after) :
    after.stackTop = memory.stackTop ∧ after.dataSize = memory.dataSize := by
  unfold store? write? at stored
  split at stored
  · rw [← Option.some.inj stored]
    exact ⟨stackTop_setBytes _ _, dataSize_setBytes _ _⟩
  · contradiction

end Memory

namespace Site.Plain

variable {site : Site} {cell : Nat} {machine : Machine} {shown : Shown} {reg other : Register}
  {imm : BitVec 32} {modifier : UInt8}

/-- An instruction that is fetched faults or leads on. -/
theorem tries_of_fetch (plain : site.Plain cell machine shown) {fetched : Fetched} {width : Nat}
    (fetches : machine.fetch site.program = (width, .ok fetched)) {goal : Machine → Prop}
    (executes : ∀ moved after, site.Plain (cell + width) moved shown →
      (Machine.execute site.program site.settings fetched).run.run moved = (.ok (), after) →
      goal after) :
    machine.Comes site.program site.settings fun last =>
      last.Faults site.program site.settings ∨ goal last := by
  have step := plain.step_eq fetches
  cases run : (Machine.execute site.program site.settings fetched).run.run
      (machine.moved (cell + width)) with
  | mk outcome after =>
    rw [run] at step
    cases outcome with
    | ok => exact .step plain.running step (.here (.inr (executes _ after (plain.moved _) run)))
    | error cause => exact .here (.inl ⟨plain.running, after, _, step⟩)

/-- What a load that completes has loaded is extended by its sign. -/
theorem put_of_load (plain : site.Plain cell machine shown) {slot : Fin 12} {after : Machine}
    {addr : Word} (slots : reg.slot? = some slot) (free : reg.isFree)
    (run : (do
      let size ← Machine.accessSize modifier
      Machine.put slot (← Machine.load addr size) : Exec Unit).run.run machine =
        (.ok (), after)) :
    ∃ size word, AccessSize.ofCode? modifier = some size ∧ Memory.narrow size word.toNat = word ∧
      site.Plain cell after (shown.set reg word) := by
  obtain ⟨size, _, sized, rest⟩ := Machine.run_bind_ok.mp run
  obtain ⟨width, rfl⟩ := Machine.accessSize_of_run sized
  obtain ⟨word, _, loads, puts⟩ := Machine.run_bind_ok.mp rest
  obtain ⟨loaded, rfl⟩ := Machine.load_of_run loads
  obtain ⟨-, rfl⟩ := Prod.mk.inj puts
  exact ⟨size, word, width, Memory.narrow_of_load? loaded, plain.put slots free word⟩

theorem tries_loadAt (plain : site.Plain cell machine shown)
    (here : site.code[cell]? = some (.instruction ⟨.loadAt, reg, other, modifier⟩))
    (next : site.code[cell + 1]? = some (.immediate imm))
    (free : reg.isFree) (isShown : other.isShown) :
    machine.Comes site.program site.settings fun last =>
      last.Faults site.program site.settings ∨
        ∃ size word, AccessSize.ofCode? modifier = some size ∧
        Memory.narrow size word.toNat = word ∧ site.Plain (cell + 2) last (shown.set reg word) := by
  obtain ⟨slot, slots⟩ := slot_of_isFree free
  obtain ⟨source, sources⟩ := slot_of_isShown isShown
  refine plain.tries_of_fetch (plain.fetch_wide here next rfl slots sources) ?_
  intro moved after reached run
  obtain ⟨addr, _, found, rest⟩ := Machine.run_bind_ok.mp run
  obtain ⟨-, rfl⟩ := Prod.mk.inj found
  exact reached.put_of_load slots free rest

/-- A store that completes may change every word of the operand stack, but not how many there are
nor a register. -/
theorem tries_store (plain : site.Plain cell machine shown)
    (here : site.code[cell]? = some (.instruction ⟨.store, other, reg, modifier⟩))
    (free : reg.isFree) (isShown : other.isShown) :
    machine.Comes site.program site.settings fun last =>
      last.Faults site.program site.settings ∨ ∃ stack bytes, stack.length = shown.stack.length ∧
        site.Plain (cell + 1) last { shown with stack, bytes } := by
  obtain ⟨slot, slots⟩ := slot_of_isFree free
  obtain ⟨target, targets⟩ := slot_of_isShown isShown
  refine plain.tries_of_fetch (plain.fetch_narrow here rfl targets slots) ?_
  intro moved after reached run
  obtain ⟨addr, _, found, rest⟩ := Machine.run_bind_ok.mp run
  obtain ⟨-, rfl⟩ := Prod.mk.inj found
  obtain ⟨size, _, sized, reads⟩ := Machine.run_bind_ok.mp rest
  obtain ⟨-, rfl⟩ := Machine.accessSize_of_run sized
  obtain ⟨word, _, read, stores⟩ := Machine.run_bind_ok.mp reads
  obtain ⟨-, rfl⟩ := Prod.mk.inj read
  obtain ⟨memory, stored, rfl⟩ := Machine.store_of_run stores
  obtain ⟨top, dataSize⟩ := Memory.sizes_of_store? stored
  obtain ⟨stack, length, spells⟩ :=
    Bytes.exists_spells memory.byteAt shown.pointer shown.stack.length
  have pointer : Shown.pointer { shown with stack, bytes := memory.byteAt } = shown.pointer := by
    simp only [Shown.pointer, length]
  refine ⟨stack, memory.byteAt, length, { reached with
    registers := ?_, top := top.trans reached.top, dataSize := dataSize.trans reached.dataSize
    low := by simpa only [length] using reached.low
    words := by rw [pointer]; exact spells
    bytes := fun _ _ => rfl }⟩
  intro visible place places isShown
  have value := reached.registers visible place places isShown
  cases visible <;> first
  | exact value
  | exact value.trans (congrArg (BitVec.ofNat 64) pointer.symm)

theorem tries_operation (plain : site.Plain cell machine shown) {op : Opcode}
    (operation : op ∈ operations)
    (here : site.code[cell]? = some (.instruction ⟨op, reg, other, modifier⟩))
    (free : reg.isFree) (isShown : other.isShown) :
    machine.Comes site.program site.settings fun last =>
      last.Faults site.program site.settings ∨ ∃ word,
        Arithmetic.apply op modifier (shown.get reg) (shown.get other) = .ok word ∧
        site.Plain (cell + 1) last (shown.set reg word) := by
  obtain ⟨slot, slots⟩ := slot_of_isFree free
  obtain ⟨source, sources⟩ := slot_of_isShown isShown
  have narrow := (plain_of_mem_operations operation).1
  refine plain.tries_of_fetch (plain.fetch_narrow here narrow slots sources) ?_
  intro moved after reached run
  rw [run_operation operation, reached.registers reg slot slots
    (Register.isShown_of_isFree free), reached.registers other source sources isShown] at run
  cases result : Arithmetic.apply op modifier (shown.get reg) (shown.get other) with
  | error cause =>
    rw [result] at run
    cases (Prod.mk.inj run).1
  | ok word =>
    rw [result] at run
    obtain ⟨-, rfl⟩ := Prod.mk.inj run
    exact ⟨word, rfl, reached.put slots free word⟩

end Site.Plain

namespace Scene

open Generate

variable {scene : Scene} {α β : Type} {before : Shown → Prop}

/-- The code that a step emits leads from one condition to another, unless it faults. -/
structure Tries (scene : Scene) (before : Shown → Prop) (step : Generate α)
    (after : α → Shown → Prop) : Prop where
  emits : Emits step
  comes : ∀ ⦃gen value later⦄, step scene.context gen = .done (value, later) →
    gen.scopes = scene.scopes → later.piece.Completes scene.site.code scene.holes →
    ∀ ⦃machine shown⦄, scene.site.Shows gen.piece machine shown → before shown →
      machine.Comes scene.site.program scene.site.settings fun last =>
        last.Faults scene.site.program scene.site.settings ∨
          ∃ final, scene.site.Shows later.piece last final ∧ after value final

theorem Leads.tries {step : Generate α} {after : α → Shown → Prop}
    (leads : scene.Leads before step after) : scene.Tries before step after :=
  ⟨leads.emits, fun _ _ _ done scopes complete _ _ shows start =>
    (leads.comes done scopes complete shows start).mono fun _ => .inr⟩

namespace Tries

theorem pure {value : α} {after : α → Shown → Prop}
    (holds : ∀ shown, before shown → after value shown) :
    scene.Tries before (pure value) after := (Leads.pure holds).tries

theorem bind {step : Generate α} {next : α → Generate β} {middle : α → Shown → Prop}
    {after : β → Shown → Prop} (first : scene.Tries before step middle)
    (second : ∀ value, scene.Tries (middle value) (next value) after) :
    scene.Tries before (step >>= next) after where
  emits := first.emits.bind fun value => (second value).emits
  comes gen result later done scopes complete machine shown shows start := by
    obtain ⟨value, between, one, two⟩ := bind_done.mp done
    obtain ⟨piece, rfl, emitted⟩ := first.emits one shows.bounded
    obtain ⟨_, rfl, more⟩ := (second value).emits two emitted.bounded
    refine (first.comes one scopes (more.completes complete) shows start).bind ?_
    rintro last (faults | ⟨final, reached, held⟩)
    · exact .here (.inl faults)
    · exact (second value).comes two scopes complete reached held

/-- From a known start. -/
theorem of_eq {step : Generate α} {after : α → Shown → Prop}
    (each : ∀ shown, before shown → scene.Tries (· = shown) step after) (emits : Emits step) :
    scene.Tries before step after :=
  ⟨emits, fun _ _ _ done scopes complete _ shown shows start =>
    (each shown start).comes done scopes complete shows rfl⟩

theorem ite {test : Prop} [Decidable test] {yes no : Generate α} {after : α → Shown → Prop}
    (first : test → scene.Tries before yes after) (second : ¬ test → scene.Tries before no after) :
    scene.Tries before (if test then yes else no) after := by
  split
  · next holds => exact first holds
  · next fails => exact second fails

/-- A step that reports a problem is not done. -/
theorem reported {span : Span} {cause : ProblemCause} {next : Unit → Generate α}
    {after : α → Shown → Prop} (plain : cause.internal = false)
    (emits : ∀ value, Emits (next value)) :
    scene.Tries before (report span cause >>= next) after :=
  ⟨(emits_report span plain).bind emits, fun _ _ _ done => by
    obtain ⟨_, _, reports, -⟩ := bind_done.mp done
    cases reports⟩

end Tries

variable {shown : Shown} {reg other : Register} {modifier : UInt8} {number : Int}

/-- An instruction without an immediate that may fault. -/
theorem tries_emit {op : Opcode} {after : Shown → Prop}
    (plain : op ≠ .push ∧ op ≠ .pop ∧ op ≠ .giveBack)
    (runs : ∀ cell machine,
      scene.site.code[cell]? = some (.instruction ⟨op, reg, other, modifier⟩) →
      scene.site.Plain cell machine shown →
      machine.Comes scene.site.program scene.site.settings fun last =>
        last.Faults scene.site.program scene.site.settings ∨
          ∃ final, scene.site.Plain (cell + 1) last final ∧ after final) :
    scene.Tries (· = shown) (emit op reg other modifier) fun _ final => after final where
  emits := emits_emit plain.1 plain.2.1 plain.2.2
  comes := by
    intro gen value later done _ complete machine _ shows start
    subst start
    obtain ⟨-, rfl⟩ := Prod.mk.inj (Task.done.inj done)
    obtain ⟨here, behind, reaches⟩ := shows.comes_at complete plain.1 plain.2.1
    refine reaches.bind fun middle reached => (runs _ middle here reached).mono fun last =>
      Or.imp id ?_
    rintro ⟨final, done, held⟩
    exact ⟨final, behind last final done, held⟩

theorem tries_store (free : reg.isFree) (isShown : other.isShown) :
    scene.Tries (· = shown) (emit .store other reg modifier) fun _ final =>
      ∃ stack bytes, stack.length = shown.stack.length ∧ final = { shown with stack, bytes } :=
  tries_emit (by decide) fun _ _ here plain =>
    (plain.tries_store here free isShown).mono fun _ => Or.imp id
      fun ⟨stack, bytes, length, done⟩ => ⟨_, done, stack, bytes, length, rfl⟩

theorem operation_mem (op : BinaryOp) : (operation op).1 ∈ Site.Plain.operations := by
  cases op <;> decide

theorem tries_operation {op : Opcode} (operation : op ∈ Site.Plain.operations)
    (free : reg.isFree) (isShown : other.isShown) :
    scene.Tries (· = shown) (emit op reg other modifier) fun _ final => ∃ word,
      Arithmetic.apply op modifier (shown.get reg) (shown.get other) = .ok word ∧
        final = shown.set reg word := by
  exact tries_emit (Site.Plain.plain_of_mem_operations operation).2 fun _ _ here plain =>
    (plain.tries_operation operation here free isShown).mono fun _ => Or.imp id
      fun ⟨word, result, done⟩ => ⟨_, done, word, result, rfl⟩

theorem tries_loadAt (free : reg.isFree) (isShown : other.isShown) :
    scene.Tries (· = shown) (emitNumber .loadAt reg other modifier number) fun _ final =>
      ∃ size word, AccessSize.ofCode? modifier = some size ∧ Memory.narrow size word.toNat = word ∧
        final = shown.set reg word where
  emits := emits_emitNumber (by decide)
  comes := by
    intro gen value later done _ complete machine _ shows start
    subst start
    obtain ⟨-, rfl⟩ := Prod.mk.inj (Task.done.inj done)
    have bounded := (Piece.grows_emitImmediate shows.bounded
      ⟨.loadAt, reg, other, modifier⟩ (.ofInt 32 number)).bounded
    have pending := gen.piece.pending_emitImmediate shows.bounded
      ⟨.loadAt, reg, other, modifier⟩ (.ofInt 32 number)
    have here := complete.emitted_instruction shows.bounded
    have next := complete.emitted_immediate shows.bounded ⟨nofun, nofun⟩ (.inl nofun)
    refine (shows.comes_before complete).bind fun middle reached =>
      (reached.tries_loadAt here next free isShown).mono fun last => Or.imp id ?_
    rintro ⟨size, word, width, canonical, done⟩
    refine ⟨_, .ofPlain pending bounded ?_, size, word, width, canonical, rfl⟩
    rw [gen.piece.size_emitImmediate]
    exact done

end Scene

end TinLang
