import TinLang.Machine.Run
import TinLang.Proofs.Machine.Memory

/-!
# The course of a run

Nothing in a program says how deep the stack has to be, so what holds of a run holds unless the
stack overflows. `Comes` says that a machine comes to a state with some property, and `Lasts` that
it executes some number of instructions, each with that exception. The code of a function works on
four registers, on the words of its operand stack and on the bytes above them: `Shown` is this view
and `Plain` says that a machine at some cell has it. Bytes below the floor of the operand stack are
nobody's, so pushing a word changes nothing that is shown.
-/
namespace TinLang.Machine

variable {prog : Program} {settings : Settings}

/-- The next step overflows the stack. -/
def Overflows (prog : Program) (settings : Settings) (machine : Machine) : Prop :=
  ∃ after fault, machine.step prog settings = (after, some fault) ∧ fault.kind = .stackOverflow

/-- The next step divides by zero. -/
def Divides (prog : Program) (settings : Settings) (machine : Machine) : Prop :=
  machine.running = true ∧ ∃ after fault, machine.step prog settings = (after, some fault) ∧
    fault.kind = .divideByZero ∧ after.output = machine.output

/-- The machine comes to a state with a property, unless the stack overflows before. -/
inductive Comes (prog : Program) (settings : Settings) (goal : Machine → Prop) :
    Machine → Prop where
  | here {machine : Machine} (reached : goal machine) : Comes prog settings goal machine
  | step {machine after : Machine} (running : machine.running = true)
    (stepped : machine.step prog settings = (after, none))
    (later : Comes prog settings goal after) : Comes prog settings goal machine
  | overflow {machine : Machine} (running : machine.running = true)
    (overflows : machine.Overflows prog settings) : Comes prog settings goal machine

/-- The machine executes some instructions, unless the stack overflows before. -/
inductive Lasts (prog : Program) (settings : Settings) : Nat → Machine → Prop where
  | zero (machine : Machine) : Lasts prog settings 0 machine
  | step {count : Nat} {machine after : Machine} (running : machine.running = true)
    (stepped : machine.step prog settings = (after, none))
    (later : Lasts prog settings count after) : Lasts prog settings (count + 1) machine
  | overflow {count : Nat} {machine : Machine} (running : machine.running = true)
    (overflows : machine.Overflows prog settings) : Lasts prog settings count machine

/-- A run from a machine comes to another by steps that complete. -/
inductive Reaches (prog : Program) (settings : Settings) (start : Machine) : Machine → Prop where
  | start : Reaches prog settings start start
  | step {machine after : Machine} (earlier : Reaches prog settings start machine)
    (running : machine.running = true)
    (stepped : machine.step prog settings = (after, none)) : Reaches prog settings start after

/-- The next step leads to a state with a property, unless it overflows the stack. -/
def Takes (prog : Program) (settings : Settings) (goal : Machine → Prop) (machine : Machine) :
    Prop :=
  machine.running = true ∧ ((∃ after, machine.step prog settings = (after, none) ∧ goal after) ∨
    machine.Overflows prog settings)

namespace Comes

variable {goal next : Machine → Prop} {machine : Machine}

theorem bind (comes : Comes prog settings goal machine)
    (later : ∀ after, goal after → Comes prog settings next after) :
    Comes prog settings next machine := by
  induction comes with
  | here reached => exact later _ reached
  | step running stepped _ ih => exact .step running stepped ih
  | overflow running overflows => exact .overflow running overflows

theorem mono (comes : Comes prog settings goal machine)
    (weaker : ∀ after, goal after → next after) : Comes prog settings next machine :=
  comes.bind fun after reached => .here (weaker after reached)

end Comes

theorem Lasts.mono {count fewer : Nat} {machine : Machine}
    (lasts : Lasts prog settings count machine) (less : fewer ≤ count) :
    Lasts prog settings fewer machine := by
  induction lasts generalizing fewer with
  | zero =>
    obtain rfl : fewer = 0 := by omega
    exact .zero _
  | step running stepped _ ih =>
    cases fewer with
    | zero => exact .zero _
    | succ fewer => exact .step running stepped (ih (by omega))
  | overflow running overflows => exact .overflow running overflows

/-- What comes to a state lasts as long as it does from there. -/
theorem Comes.lasts {goal : Machine → Prop} {count : Nat} {machine : Machine}
    (comes : Comes prog settings goal machine)
    (later : ∀ after, goal after → Lasts prog settings count after) :
    Lasts prog settings count machine := by
  induction comes with
  | here reached => exact later _ reached
  | step running stepped _ ih => exact (Lasts.step running stepped ih).mono (by omega)
  | overflow running overflows => exact .overflow running overflows

namespace Takes

variable {goal : Machine → Prop} {machine : Machine}

theorem comes (takes : Takes prog settings goal machine) :
    Comes prog settings goal machine := by
  obtain ⟨running, ⟨after, stepped, reached⟩ | overflows⟩ := takes
  · exact .step running stepped (.here reached)
  · exact .overflow running overflows

theorem mono {weaker : Machine → Prop} (takes : Takes prog settings goal machine)
    (weakens : ∀ after, goal after → weaker after) : Takes prog settings weaker machine :=
  ⟨takes.1, takes.2.imp_left fun ⟨after, stepped, reached⟩ =>
    ⟨after, stepped, weakens after reached⟩⟩

theorem lasts {count : Nat} (takes : Takes prog settings goal machine)
    (later : ∀ after, goal after → Lasts prog settings count after) :
    Lasts prog settings (count + 1) machine := by
  obtain ⟨running, ⟨after, stepped, reached⟩ | overflows⟩ := takes
  · exact .step running stepped (later after reached)
  · exact .overflow running overflows

end Takes

/-- The state and the end of a run of at most some rounds that nobody watches. -/
def outcome (prog : Program) (settings : Settings) (bound : Nat) (machine : Machine) :
    Machine × Option StopReason :=
  let (after, reason, _) := machine.runWithin prog settings .none bound ()
  (after, reason)

theorem outcome_ended {machine : Machine} (ended : machine.running = false) (bound : Nat) :
    outcome prog settings (bound + 1) machine = (machine, none) := by
  simp [outcome, runWithin, ended]

theorem outcome_limit {machine : Machine} (running : machine.running = true)
    (limit : 0 < settings.maxSteps ∧ settings.maxSteps ≤ machine.steps) (bound : Nat) :
    outcome prog settings (bound + 1) machine =
      (machine, some (.stepLimit settings.maxSteps)) := by
  simp [outcome, runWithin, running, limit]

theorem outcome_step {machine after : Machine} (running : machine.running = true)
    (free : ¬ (0 < settings.maxSteps ∧ settings.maxSteps ≤ machine.steps))
    (stepped : machine.step prog settings = (after, none)) (bound : Nat) :
    outcome prog settings (bound + 1) machine = outcome prog settings bound after := by
  simp only [outcome, runWithin, running, free, ↓reduceIte, Watcher.none, stepped]

theorem outcome_fault {machine after : Machine} {fault : Fault} (running : machine.running = true)
    (free : ¬ (0 < settings.maxSteps ∧ settings.maxSteps ≤ machine.steps))
    (stepped : machine.step prog settings = (after, some fault)) (bound : Nat) :
    outcome prog settings (bound + 1) machine =
      ({ after with running := false }, some (.fault fault)) := by
  simp only [outcome, runWithin, running, free, ↓reduceIte, Watcher.none, stepped]

end TinLang.Machine

namespace TinLang

/-- Words stand one after another from an address on. -/
def Bytes.Spells (bytes : Bytes) : Nat → List Word → Prop
  | _, [] => True
  | addr, word :: words => bytes.word addr .eight = word ∧ bytes.Spells (addr + 8) words

namespace Bytes

variable {bytes others : Bytes} {addr : Nat} {words : List Word}

theorem Spells.congr (spells : bytes.Spells addr words)
    (same : ∀ place, addr ≤ place → place < addr + 8 * words.length →
      bytes place = others place) : others.Spells addr words := by
  induction words generalizing addr with
  | nil => trivial
  | cons word words ih =>
    rw [List.length_cons] at same
    refine ⟨?_, ih spells.2 fun place low high => same place (by omega) (by omega)⟩
    rw [← spells.1]
    refine (word_congr fun place low high => ?_).symm
    exact same place low (by simp only [AccessSize.bytes] at high; omega)

theorem spells_append {more : List Word} : bytes.Spells addr (words ++ more) ↔
    bytes.Spells addr words ∧ bytes.Spells (addr + 8 * words.length) more := by
  induction words generalizing addr with
  | nil => simp [Spells]
  | cons word words ih =>
    have place : addr + 8 + 8 * words.length = addr + 8 * (words.length + 1) := by omega
    simp only [List.cons_append, Spells, ih, place, List.length_cons, and_assoc]

theorem Spells.getElem (spells : bytes.Spells addr words) {index : Nat}
    (bound : index < words.length) :
    bytes.word (addr + 8 * index) .eight = words[index] := by
  induction words generalizing addr index with
  | nil => simp at bound
  | cons word words ih =>
    cases index with
    | zero => exact spells.1
    | succ index =>
      have later := ih spells.2 (Nat.lt_of_succ_lt_succ bound)
      rw [List.getElem_cons_succ, ← later]
      congr 1
      omega

/-- Another word in the place of one. -/
theorem Spells.set (spells : bytes.Spells addr words) {index : Nat}
    (bound : index < words.length) (value : Word) :
    (bytes.store (addr + 8 * index) .eight value).Spells addr (words.set index value) := by
  induction words generalizing addr index with
  | nil => simp at bound
  | cons word words ih =>
    cases index with
    | zero =>
      refine ⟨?_, spells.2.congr fun place low high => ?_⟩
      · rw [Nat.mul_zero, Nat.add_zero, Memory.word_store, Memory.narrow_eight]
      · exact (Memory.store_of_outside (by simp only [AccessSize.bytes]; omega)).symm
    | succ index =>
      have later := ih spells.2 (Nat.lt_of_succ_lt_succ bound)
      have place : addr + 8 + 8 * index = addr + 8 * (index + 1) := by omega
      rw [place] at later
      refine ⟨?_, later⟩
      rw [← spells.1]
      exact Memory.word_store_of_apart (by simp only [AccessSize.bytes]; omega)

end Bytes

/-- What the code of a function sees. -/
structure Shown where
  /-- The register of values. -/
  a : Word
  /-- The register of addresses. -/
  b : Word
  /-- A free register. -/
  c : Word
  /-- A free register. -/
  d : Word
  /-- The words of the operand stack, the top first. -/
  stack : List Word
  /-- The address above the operand stack. -/
  floor : Nat
  /-- The address of the frame. -/
  base : Nat
  /-- What stands from the floor on. -/
  bytes : Bytes
  /-- What was printed. -/
  output : Array UInt8

namespace Shown

/-- The address of the top of the operand stack. -/
def pointer (shown : Shown) : Nat := shown.floor - 8 * shown.stack.length

/-- The value of a register. -/
def get (shown : Shown) : Register → Word
  | .a => shown.a
  | .b => shown.b
  | .c => shown.c
  | .d => shown.d
  | .stackPointer => BitVec.ofNat 64 shown.pointer
  | .basePointer => BitVec.ofNat 64 shown.base
  | _ => 0

/-- Another value in a register. -/
def set (shown : Shown) (reg : Register) (value : Word) : Shown :=
  match reg with
  | .a => { shown with a := value }
  | .b => { shown with b := value }
  | .c => { shown with c := value }
  | .d => { shown with d := value }
  | _ => shown

section

variable (shown : Shown) (reg : Register) (value : Word)

@[simp] theorem stack_set : (shown.set reg value).stack = shown.stack := by
  cases reg <;> rfl

@[simp] theorem floor_set : (shown.set reg value).floor = shown.floor := by
  cases reg <;> rfl

@[simp] theorem base_set : (shown.set reg value).base = shown.base := by
  cases reg <;> rfl

@[simp] theorem bytes_set : (shown.set reg value).bytes = shown.bytes := by
  cases reg <;> rfl

@[simp] theorem output_set : (shown.set reg value).output = shown.output := by
  cases reg <;> rfl

@[simp] theorem pointer_set : (shown.set reg value).pointer = shown.pointer := by
  simp [pointer]

end

end Shown

/-- A register that code may change as it likes. -/
def Register.isFree (reg : Register) : Bool :=
  decide (reg = .a ∨ reg = .b ∨ reg = .c ∨ reg = .d)

/-- A register whose value code sees. -/
def Register.isShown (reg : Register) : Bool :=
  reg.isFree || decide (reg = .stackPointer ∨ reg = .basePointer)

/-- Where code runs: its piece in a linked program, and the extent of the memory. -/
structure Site where
  /-- The program. -/
  program : Program
  /-- The limits of the run. -/
  settings : Settings
  /-- The index of the piece. -/
  index : Nat
  /-- The code of the piece. -/
  code : Code
  /-- The address above the stack. -/
  top : Nat
  /-- The size of the data segment. -/
  dataSize : Nat
  found : (program.pieces[index]?).map Piece.code = some code
  small : code.size < 2 ^ 31
  few : program.pieces.size < 2 ^ 31
  below : top ≤ Memory.dataBase
  data : dataSize < 2 ^ 31

namespace Site

/-- The site of another piece of the program. -/
def elsewhere (site : Site) (index : Nat) (code : Code)
    (found : (site.program.pieces[index]?).map Piece.code = some code)
    (small : code.size < 2 ^ 31) : Site :=
  { site with index, code, found, small }

/-- A machine at a cell shows what code sees. -/
structure Plain (site : Site) (cell : Nat) (machine : Machine) (shown : Shown) : Prop where
  running : machine.running = true
  piece : machine.piece = site.index
  counter : machine.registers.get Machine.slotPC = BitVec.ofNat 64 cell
  registers : ∀ reg slot, reg.slot? = some slot → reg.isShown →
    machine.registers.get slot = shown.get reg
  top : machine.memory.stackTop = site.top
  dataSize : machine.memory.dataSize = site.dataSize
  low : Memory.stackBase + 8 * shown.stack.length ≤ shown.floor
  high : shown.floor ≤ shown.base
  highest : shown.base ≤ site.top
  words : Bytes.Spells machine.memory.byteAt shown.pointer shown.stack
  bytes : ∀ place, shown.floor ≤ place → machine.memory.byteAt place = shown.bytes place
  output : machine.output = shown.output

/-- A machine at a cell whose registers, operand stack and memory are zero. -/
def standing (site : Site) (cell floor base count : Nat) : Machine where
  registers := Machine.assign (Machine.assign (Machine.assign (Vector.replicate 12 0)
    Machine.slotPC (BitVec.ofNat 64 cell)) Machine.slotSP (BitVec.ofNat 64 (floor - 8 * count)))
    Machine.slotBP (BitVec.ofNat 64 base)
  memory := ⟨site.top - Memory.stackBase, site.dataSize, { limit := 0 }, {}⟩
  piece := site.index
  running := true
  steps := 0
  softErrors := 0
  output := #[]
  files := {}

/-- What code sees of that machine. -/
def blank (floor base count : Nat) : Shown :=
  ⟨0, 0, 0, 0, List.replicate count 0, floor, base, fun _ => 0, #[]⟩

theorem spells_replicate (addr count : Nat) :
    Bytes.Spells (fun _ => 0) addr (List.replicate count 0) := by
  induction count generalizing addr with
  | zero => trivial
  | succ count ih =>
    have zero : Memory.narrow .eight (Memory.numberOf (List.replicate 8 0)) = 0 := by decide
    exact ⟨zero, ih _⟩

/-- Where the stack has room for its words, the machine shows them. -/
theorem plain_standing (site : Site) {cell floor base count : Nat}
    (low : Memory.stackBase + 8 * count ≤ floor) (high : floor ≤ base) (highest : base ≤ site.top) :
    site.Plain cell (site.standing cell floor base count) (blank floor base count) := by
  have zero : (site.standing cell floor base count).memory.byteAt = fun _ => 0 := by
    funext addr
    simp [standing, Memory.byteAt]
  have length : (blank floor base count).stack.length = count := List.length_replicate
  refine ⟨rfl, rfl, rfl, fun reg slot found visible => ?_, ?_, rfl, by rw [length]; exact low, high,
    highest, ?_, fun place _ => congrFun zero place, rfl⟩
  · cases reg <;> cases found <;> try first | rfl | cases visible
    rw [Shown.get, Shown.pointer, length]
    rfl
  · show Memory.stackBase + (site.top - Memory.stackBase) = site.top
    omega
  · rw [zero]
    exact spells_replicate _ count

end Site

end TinLang
