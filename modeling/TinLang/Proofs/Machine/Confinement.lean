import TinLang.Machine.Dump
import TinLang.Proofs.Machine.HeapCalls
import TinLang.Proofs.Machine.Regions

/-!
# Machines stay inside their program

A step reads the piece being executed, and the lines of that piece when it ends in a fault or is
traced, without asking whether they are there. `strictStep?` and `strictTrace?` are the step and the
trace in which such a lookup can fail. From the start of a program whose line tables are in range
none of them ever fails, whatever the guest writes to its registers, its frames and its memory
(`strictStep?_after`); the tables of the heap hold what they are asked for (`consistent_after`).
-/
namespace TinLang

variable {condition : Prop} {addr index : Nat} {machine : Machine} {piece : Piece} {heap : Heap}
    {text : Text}

/-- Every cell has its entry in the line table, and every entry names a line. -/
structure Piece.Lined (piece : Piece) : Prop where
  cells : piece.lineOf.size = piece.size
  indices : ∀ index, some index ∈ piece.lineOf → index < piece.lines.size

/-- The source line of a cell, if it has one; none outside when its entry names no line. -/
def Piece.strictLine? (piece : Piece) (index : Int) : Option (Option SourceLine) :=
  if index < 0 then some none else
    match piece.lineOf[index.toNat]? with
    | some (some line) => (piece.lines[line]?).map some
    | _ => some none

theorem Piece.Lined.strictLine?_eq (lined : piece.Lined) (index : Int) :
    piece.strictLine? index = some (piece.line? index) := by
  unfold strictLine? line?
  by_cases negative : index < 0
  · simp only [negative, ↓reduceIte]
  · simp only [negative, ↓reduceIte]
    cases found : piece.lineOf[index.toNat]? with
    | none => rfl
    | some entry =>
      cases entry with
      | none => rfl
      | some line =>
        have inside := lined.indices line (Array.mem_of_getElem? found)
        simp [inside]

/-- The lines of a listing from a cell on; none when an entry of the line table names no line. -/
def Listing.strictLines? (prog : Option Program) (targets : Array CallTarget) (piece : Piece) :
    (count cell : Nat) → (latest : Option Nat) → Option Text
  | 0, _, _ => some []
  | count + 1, cell, latest =>
    match piece.code.instruction? cell with
    | none => strictLines? prog targets piece count (cell + 1) latest
    | some _ => do
      let shown := (piece.lineOf[cell]?).getD none
      let comment : Text ← if shown.isNone ∨ shown = latest then some [] else
        (shown.bind (piece.lines[·]?)).map fun line =>
          ("; " ++ Text.ofInt line.number ++ ": " ++ line.text.trim ++ "\n" : Text)
      let later : Text ← strictLines? prog targets piece count (cell + 1) (shown.or latest)
      some (comment ++ cellText prog targets piece cell ++ "\n" ++ later)

/-- The listing of a piece; none when an entry of its line table names no line. -/
def Listing.strictPiece? (prog : Option Program) (targets : Array CallTarget) (piece : Piece) :
    Option Text :=
  (strictLines? prog targets piece piece.size 0 none).map (piece.name ++ ":\n" ++ ·)

theorem Listing.strictLines?_eq (lined : piece.Lined) (prog : Option Program)
    (targets : Array CallTarget) (count cell : Nat) (latest : Option Nat) :
    strictLines? prog targets piece count cell latest =
      some (lines prog targets piece count cell latest) := by
  induction count generalizing cell latest with
  | zero => rfl
  | succ count ih =>
    unfold strictLines? lines
    cases piece.code.instruction? cell with
    | none => exact ih (cell + 1) latest
    | some instr =>
      simp only [ih]
      cases entry : (piece.lineOf[cell]?).getD none with
      | none => rfl
      | some line =>
        have there : piece.lineOf[cell]? = some (some line) := by
          cases found : piece.lineOf[cell]? with
          | none => simp [found] at entry
          | some shown => simpa [found] using entry
        have inside := lined.indices line (Array.mem_of_getElem? there)
        by_cases same : some line = latest <;> simp [same, inside]

/-- The listing of a piece whose line table is in range never fails. -/
theorem Listing.strictPiece?_eq (lined : piece.Lined) (prog : Option Program)
    (targets : Array CallTarget) :
    strictPiece? prog targets piece = some (ofPiece prog targets piece) := by
  rw [strictPiece?, strictLines?_eq lined, Option.map_some, ofPiece]

namespace Heap

/-- The two tables of a heap belong together: bisection leads to a live block, and a live block has
its place in the order. -/
structure Consistent (heap : Heap) : Prop where
  finds : ∀ addr before, heap.position (fun start => decide (addr < start)) = before + 1 →
    ∃ start block, heap.order[before]? = some start ∧ heap.at? start = some block
  removes : ∀ addr block, heap.at? addr = some block →
    heap.position (fun start => decide (addr ≤ start)) < heap.order.size

theorem Orderly.consistent (orderly : heap.Orderly) : heap.Consistent where
  finds addr before place := by
    have bound := heap.position_le fun start => decide (addr < start)
    rw [place, Array.length_toList] at bound
    have known := (orderly.listed heap.order[before]).mp (Array.getElem_mem bound)
    exact ⟨_, _, Array.getElem?_eq_getElem bound, at?_of_mem known⟩
  removes addr block found := by
    have mem : addr ∈ heap.sizes := by
      by_contra absent
      rw [at?_of_not_mem absent] at found
      contradiction
    obtain ⟨index, inside, here⟩ := Array.getElem_of_mem ((orderly.listed addr).mpr mem)
    have late : index < heap.position (fun start => decide (addr ≤ start)) ↔ _ :=
      lt_position_iff orderly.ascending (fun _ _ less => by simp only [decide_eq_true_eq]; omega)
        (by simpa using inside)
    have here' : heap.order.toList[index] = addr := by simpa using here
    simp only [here', Nat.le_refl, decide_true, Bool.true_eq_false, iff_false] at late
    omega

/-- What one native call can do to a heap. -/
def Moves (heap after : Heap) : Prop :=
  after = heap ∨ ∃ call, Small [call] ∧ after = (heap.perform call).1

/-- A call keeps the order of a heap when the next address does not fall. -/
theorem Orderly.moves {after : Heap} (orderly : heap.Orderly) (moves : heap.Moves after)
    (rises : heap.next ≤ after.next) : after.Orderly := by
  rcases moves with rfl | ⟨call, small, rfl⟩
  · exact orderly
  cases call with
  | free addr =>
    by_cases live : addr ∈ heap.sizes
    · rw [perform, free_of_mem live]
      exact orderly.shrunk live
    · rw [perform, free_of_not_mem live]
      exact orderly
  | allocate size =>
    have bound := small size List.mem_cons_self
    rw [perform, allocate] at rises ⊢
    by_cases positive : size ≤ 0
    · simpa only [positive, ↓reduceIte] using orderly
    by_cases full : heap.effectiveLimit < wrapSigned (heap.total + size)
    · simpa only [positive, full, ↓reduceIte] using orderly
    simp only [positive, full, ↓reduceIte] at rises ⊢
    obtain ⟨number, rfl⟩ := Int.eq_ofNat_of_zero_le (Int.le_of_lt (Int.not_le.mp positive))
    have small' : number ≤ largestRequest := Int.ofNat_le.mp bound
    refine orderly.placed (Nat.lt_of_le_of_ne rises fun same => ?_)
    have moved : heap.next = ((heap.next + stride number) % 0x10000000000000000).toNat := same
    rw [stride_eq small'] at moved
    unfold distance at moved
    unfold largestRequest at small'
    omega

end Heap

namespace Memory

/-- A block that is found is live. -/
theorem mem_live_of_block? {block : HeapBlock}
    (found : heap.block? addr = some block) : block ∈ heap.live := by
  unfold Heap.block? at found
  split at found
  · contradiction
  · obtain ⟨start, listed, live⟩ := Option.bind_eq_some_iff.mp found
    exact List.mem_filterMap.mpr ⟨start, (Array.mem_of_getElem? listed).val, live⟩

/-- A range that is addressable lies in a region, whatever the heap holds. -/
theorem region_of_addressable {memory : Memory} {count : Int}
    (inside : memory.addressable addr count = true) :
    0 ≤ count ∧ ∃ region ∈ memory.regions, region.Holds addr count.toNat := by
  have holds : ∀ base size, Heap.within base size addr count.toNat = true →
      (Region.mk base size).Holds addr count.toNat := by
    intro base size within
    simpa [Heap.within, Region.Holds] using within
  unfold addressable at inside
  simp only [Bool.and_eq_true, Bool.or_eq_true, decide_eq_true_eq] at inside
  obtain ⟨natural, (stack | data) | heap⟩ := inside
  · exact ⟨natural, _, List.mem_cons_self, holds _ _ stack⟩
  · exact ⟨natural, _, List.mem_cons_of_mem _ List.mem_cons_self, holds _ _ data⟩
  · simp only [Heap.holds, natural, decide_true, Bool.true_and] at heap
    split at heap
    · rename_i block found
      refine ⟨natural, _, List.mem_cons_of_mem _ (List.mem_cons_of_mem _ ?_), holds _ _ heap⟩
      exact List.mem_map_of_mem (mem_live_of_block? found)
    · contradiction

theorem length_bytesAt (memory : Memory) (addr count : Nat) :
    (memory.bytesAt addr count).length = count := by
  induction count generalizing addr with
  | zero => rfl
  | succ count ih => rw [bytesAt, List.length_cons, ih]

/-- Every byte of a string, and the zero after it, lies in a region. -/
theorem places_of_stringWithin {memory : Memory} {bound : Nat}
    (small : addr < 2 ^ 64) (done : memory.stringWithin bound addr = .ok text)
    (inside : index ≤ text.length) :
    ∃ region ∈ memory.regions, region.Holds ((addr + index) % 2 ^ 64) 1 := by
  induction bound generalizing addr index text with
  | zero => contradiction
  | succ bound ih =>
    unfold stringWithin at done
    split at done
    · rename_i addressable
      have here : ∃ region ∈ memory.regions, region.Holds ((addr + 0) % 2 ^ 64) 1 := by
        rw [Nat.add_zero, Nat.mod_eq_of_lt small]
        exact (region_of_addressable addressable).2
      dsimp only at done
      split at done
      · obtain rfl := Except.ok.inj done
        obtain rfl := Nat.le_zero.mp inside
        exact here
      · cases found : memory.stringWithin bound ((addr + 1) % 0x10000000000000000) with
        | error place => simp [found, Except.map] at done
        | ok rest =>
          rw [found] at done
          obtain rfl := Except.ok.inj done
          cases index with
          | zero => exact here
          | succ index =>
            have later := ih (Nat.mod_lt _ (by decide)) found (Nat.le_of_succ_le_succ inside)
            have place : ((addr + 1) % 2 ^ 64 + index) % 2 ^ 64 =
                (addr + (index + 1)) % 2 ^ 64 := by omega
            rwa [place] at later
    · contradiction

/-- The stack and the data segment keep their sizes, and a byte that changes lies in a region of the
one or the other memory. -/
structure Keeps (memory after : Memory) : Prop where
  stackSize : after.stackSize = memory.stackSize
  dataSize : after.dataSize = memory.dataSize
  bytes : ∀ place, after.byteAt place ≠ memory.byteAt place →
    ∃ region ∈ memory.regions ++ after.regions, region.Holds place 1

variable {memory middle after : Memory}

theorem Keeps.of_byteAt_eq (stackSize : after.stackSize = memory.stackSize)
    (dataSize : after.dataSize = memory.dataSize)
    (same : ∀ place, after.byteAt place = memory.byteAt place) : memory.Keeps after :=
  ⟨stackSize, dataSize, fun place differ => absurd (same place) differ⟩

theorem Keeps.refl (memory : Memory) : memory.Keeps memory := .of_byteAt_eq rfl rfl fun _ => rfl

/-- Memories with the same heap have the same regions. -/
theorem Keeps.regions_eq (keeps : memory.Keeps after) (heap : after.heap = memory.heap) :
    after.regions = memory.regions :=
  SameLayout.regions_eq ⟨keeps.stackSize, keeps.dataSize, heap⟩

/-- One change after another, of which one leaves the heap alone. -/
theorem Keeps.trans (first : memory.Keeps middle) (second : middle.Keeps after)
    (heap : middle.heap = memory.heap ∨ after.heap = middle.heap) : memory.Keeps after where
  stackSize := second.stackSize.trans first.stackSize
  dataSize := second.dataSize.trans first.dataSize
  bytes place differ := by
    have known : ∀ region ∈ middle.regions, region ∈ memory.regions ++ after.regions := by
      intro region mem
      rcases heap with heap | heap
      · exact List.mem_append_left _ (first.regions_eq heap ▸ mem)
      · exact List.mem_append_right _ (second.regions_eq heap ▸ mem)
    by_cases same : after.byteAt place = middle.byteAt place
    · obtain ⟨region, mem, holds⟩ := first.bytes place (same ▸ differ)
      rcases List.mem_append.mp mem with mem | mem
      · exact ⟨region, List.mem_append_left _ mem, holds⟩
      · exact ⟨region, known region mem, holds⟩
    · obtain ⟨region, mem, holds⟩ := second.bytes place same
      rcases List.mem_append.mp mem with mem | mem
      · exact ⟨region, known region mem, holds⟩
      · exact ⟨region, List.mem_append_right _ mem, holds⟩

/-- Writing an addressable range changes bytes of one region. -/
theorem keeps_setBytes
    (inside : memory.addressable addr text.length = true) :
    memory.Keeps (memory.setBytes addr text) where
  stackSize := (sameLayout_setBytes memory addr text).1
  dataSize := (sameLayout_setBytes memory addr text).2.1
  bytes place differ := by
    obtain ⟨-, region, mem, holds⟩ := region_of_addressable inside
    refine ⟨region, List.mem_append_left _ mem, ?_⟩
    rw [byteAt_setBytes] at differ
    by_contra outside
    refine differ (Bytes.overwrite_of_outside ?_)
    unfold Region.Holds at outside holds
    omega

/-- Every access that is not refused lies in a region. -/
structure Contained (memory : Memory) : Prop where
  reads : ∀ addr count bytes, memory.read? addr count = some bytes →
    (bytes.length : Int) = count ∧ ∃ region ∈ memory.regions, region.Holds addr bytes.length
  writes : ∀ addr bytes after, memory.write? addr bytes = some after →
    ∃ region ∈ memory.regions, region.Holds addr bytes.length
  clears : ∀ addr count after, memory.clear? addr count = some after →
    0 ≤ count ∧ ∃ region ∈ memory.regions, region.Holds addr count.toNat
  strings : ∀ (addr : Word) text, memory.string addr.toNat = .ok text →
    ∀ index ≤ text.length,
      ∃ region ∈ memory.regions, region.Holds ((addr.toNat + index) % 2 ^ 64) 1

theorem contained (memory : Memory) : memory.Contained where
  reads addr count bytes done := by
    unfold read? at done
    split at done
    · rename_i inside
      obtain ⟨natural, region⟩ := region_of_addressable inside
      obtain rfl := Option.some.inj done
      rw [length_bytesAt]
      exact ⟨Int.toNat_of_nonneg natural, region⟩
    · contradiction
  writes addr bytes after done := by
    unfold write? at done
    split at done
    · rename_i inside
      exact (region_of_addressable inside).2
    · contradiction
  clears addr count after done := by
    unfold clear? at done
    split at done
    · rename_i inside
      exact region_of_addressable inside
    · contradiction
  strings addr text done index inside := places_of_stringWithin addr.isLt done inside

end Memory

namespace Machine

variable {α β : Type}

/-- An operation leads from every machine to one that is in a relation with it, whether it faults or
not. -/
def Relates (relation : Machine → Machine → Prop) (action : Exec α) : Prop :=
  ∀ machine, relation machine (action.run.run machine).2

/-- One operation after another. -/
theorem Relates.andThen {one other whole : Machine → Machine → Prop} {first : Exec α}
    {next : α → Exec β} (start : Relates one first) (later : ∀ value, Relates other (next value))
    (stops : ∀ {machine after}, one machine after → whole machine after)
    (goes : ∀ {machine middle after}, one machine middle → other middle after →
      whole machine after) : Relates whole (first >>= next) := by
  intro machine
  have reached := start machine
  rw [run_bind]
  cases found : first.run.run machine with
  | mk result after =>
    rw [found] at reached
    cases result with
    | ok value => exact goes reached (later value after)
    | error cause => exact stops reached

/-- The registers, the piece, the count of steps and the heap are the same, and of memory only bytes
of regions change. -/
structure Unmoved (machine after : Machine) : Prop where
  registers : after.registers = machine.registers
  memory : machine.memory.Keeps after.memory
  piece : after.piece = machine.piece
  steps : after.steps = machine.steps
  heap : after.memory.heap = machine.memory.heap

/-- The same with at most one call to the heap. -/
structure Tended (machine after : Machine) : Prop where
  registers : after.registers = machine.registers
  memory : machine.memory.Keeps after.memory
  piece : after.piece = machine.piece
  steps : after.steps = machine.steps
  heap : machine.memory.heap.Moves after.memory.heap

/-- An operation leaves all of the machine but its bytes, its output and its files alone. -/
def Still (action : Exec α) : Prop := Relates Unmoved action

/-- So does an operation with at most one call to the heap. -/
def Modest (action : Exec α) : Prop := Relates Tended action

/-- An operation leaves the piece, the heap and the count of steps alone, and of memory changes only
bytes of regions. -/
def Steady (action : Exec α) : Prop :=
  Relates (fun machine after => after.piece = machine.piece ∧
    after.memory.heap = machine.memory.heap ∧ after.steps = machine.steps ∧
      machine.memory.Keeps after.memory) action

theorem Unmoved.refl (machine : Machine) : Unmoved machine machine := ⟨rfl, .refl _, rfl, rfl, rfl⟩

theorem Unmoved.trans {middle after : Machine} (first : Unmoved machine middle)
    (second : Unmoved middle after) : Unmoved machine after :=
  ⟨second.registers.trans first.registers, first.memory.trans second.memory (.inl first.heap),
    second.piece.trans first.piece, second.steps.trans first.steps, second.heap.trans first.heap⟩

theorem Unmoved.tended {after : Machine} (unmoved : Unmoved machine after) :
    Tended machine after :=
  { unmoved with heap := .inl unmoved.heap }

theorem Still.modest {action : Exec α} (still : Still action) : Modest action :=
  fun machine => (still machine).tended

theorem Still.steady {action : Exec α} (still : Still action) : Steady action :=
  fun machine =>
    ⟨(still machine).piece, (still machine).heap, (still machine).steps, (still machine).memory⟩

theorem Still.bind {first : Exec α} {next : α → Exec β} (still : Still first)
    (later : ∀ value, Still (next value)) : Still (first >>= next) :=
  still.andThen later id .trans

theorem Still.bind_modest {first : Exec α} {next : α → Exec β} (still : Still first)
    (later : ∀ value, Modest (next value)) : Modest (first >>= next) :=
  still.andThen later Unmoved.tended fun first second =>
    ⟨second.registers.trans first.registers, first.memory.trans second.memory (.inl first.heap),
      second.piece.trans first.piece, second.steps.trans first.steps, first.heap ▸ second.heap⟩

theorem Modest.bind {first : Exec α} {next : α → Exec β} (modest : Modest first)
    (later : ∀ value, Still (next value)) : Modest (first >>= next) :=
  modest.andThen later id fun first second =>
    ⟨second.registers.trans first.registers, first.memory.trans second.memory (.inr second.heap),
      second.piece.trans first.piece, second.steps.trans first.steps, second.heap ▸ first.heap⟩

theorem Steady.bind {first : Exec α} {next : α → Exec β} (steady : Steady first)
    (later : ∀ value, Steady (next value)) : Steady (first >>= next) :=
  steady.andThen later id fun first second =>
    ⟨second.1.trans first.1, second.2.1.trans first.2.1, second.2.2.1.trans first.2.2.1,
      first.2.2.2.trans second.2.2.2 (.inl first.2.1)⟩

theorem still_pure (value : α) : Still (pure value : Exec α) := fun _ => .refl _

theorem still_throw (cause : FaultCause) : Still (throw cause : Exec α) := fun _ => .refl _

theorem still_get (slot : Fin 12) : Still (get slot) := fun _ => .refl _

theorem still_getThe : Still (getThe Machine : Exec Machine) := fun _ => .refl _

theorem steady_put (slot : Fin 12) (value : Word) : Steady (put slot value) :=
  fun _ => ⟨rfl, rfl, rfl, .refl _⟩

theorem still_print (text : Text) : Still (print text) := fun _ => ⟨rfl, .refl _, rfl, rfl, rfl⟩

theorem still_countSoftError : Still countSoftError := fun _ => ⟨rfl, .refl _, rfl, rfl, rfl⟩

theorem still_ite [Decidable condition] {first second : Exec α}
    (still : Still first) (still' : Still second) :
    Still (if condition then first else second) := by
  split
  · exact still
  · exact still'

/-- An operation that is left out in some case before the rest. -/
theorem still_unless [Decidable condition] {action : Exec Unit}
    {next : Unit → Exec α} (still : Still action) (later : ∀ value, Still (next value)) :
    Still (if condition then next () else action >>= next) :=
  still_ite (later ()) (still.bind later)

/-- One of two operations before the rest. -/
theorem still_choice [Decidable condition] {first second : Exec α}
    {next : α → Exec β} (still : Still first) (still' : Still second)
    (later : ∀ value, Still (next value)) :
    Still (if condition then first >>= next else second >>= next) :=
  still_ite (still.bind later) (still'.bind later)

theorem modest_choice [Decidable condition] {first second : Exec α}
    {next : α → Exec β} (modest : Modest first) (modest' : Modest second)
    (later : ∀ value, Still (next value)) :
    Modest (if condition then first >>= next else second >>= next) := by
  split
  · exact modest.bind later
  · exact modest'.bind later

theorem heap_setBytes (memory : Memory) (addr : Nat) (text : Text) :
    (memory.setBytes addr text).heap = memory.heap := by
  induction text generalizing memory addr with
  | nil => rfl
  | cons byte text ih => exact ih (memory.setByte addr byte) (addr + 1)

/-- A change of memory that writes an addressable range. -/
theorem still_changeMemory {change : Memory → Option Memory} (cause : FaultCause)
    (writes : ∀ memory after, change memory = some after → ∃ addr text,
      memory.addressable addr (text.length : Nat) = true ∧
        memory.setBytes addr text = after) : Still (changeMemory change cause) := by
  intro machine
  rw [changeMemory, run_bind, run_getThe]
  simp only
  cases found : change machine.memory with
  | none => exact .refl _
  | some memory =>
    obtain ⟨addr, text, inside, rfl⟩ := writes _ _ found
    exact ⟨rfl, Memory.keeps_setBytes inside, rfl, rfl, heap_setBytes _ _ _⟩

/-- What is written was an addressable range. -/
theorem addressable_of_write? {memory after : Memory}
    (done : memory.write? addr text = some after) :
    memory.addressable addr text.length = true ∧ memory.setBytes addr text = after := by
  unfold Memory.write? at done
  split at done
  · rename_i inside
    exact ⟨inside, Option.some.inj done⟩
  · contradiction

theorem still_writeBytes (addr : Word) (text : Text) : Still (writeBytes addr text) :=
  still_changeMemory _ fun _ _ done => ⟨_, _, addressable_of_write? done⟩

theorem still_store (addr : Word) (size : AccessSize) (value : Word) :
    Still (store addr size value) :=
  still_changeMemory _ fun _ _ done => ⟨_, _, addressable_of_write? done⟩

theorem still_clear (addr : Word) (count : Int) :
    Still (changeMemory (·.clear? addr.toNat count) (.access addr.toNat count)) := by
  refine still_changeMemory _ fun memory after done => ?_
  unfold Memory.clear? at done
  split at done
  · rename_i inside
    have natural := (Memory.region_of_addressable inside).1
    refine ⟨_, _, ?_, Option.some.inj done⟩
    rw [List.length_replicate, Int.toNat_of_nonneg natural]
    exact inside
  · contradiction

theorem still_readBytes (addr : Word) (count : Int) : Still (readBytes addr count) := by
  refine still_getThe.bind fun machine => ?_
  cases machine.memory.read? addr.toNat count with
  | none => exact still_throw _
  | some bytes => exact still_pure _

theorem still_load (addr : Word) (size : AccessSize) : Still (load addr size) := by
  refine still_getThe.bind fun machine => ?_
  cases machine.memory.load? addr.toNat size with
  | none => exact still_throw _
  | some word => exact still_pure _

theorem still_accessSize (modifier : UInt8) : Still (accessSize modifier) := by
  unfold accessSize
  cases AccessSize.ofCode? modifier with
  | none => exact still_throw _
  | some size => exact still_pure _

theorem still_loadString (addr : Word) : Still (loadString addr) := by
  refine still_getThe.bind fun machine => ?_
  cases machine.memory.string addr.toNat with
  | error place => exact still_throw _
  | ok text => exact still_pure _

theorem steady_ite [Decidable condition] {first second : Exec α}
    (steady : Steady first) (steady' : Steady second) :
    Steady (if condition then first else second) := by
  split
  · exact steady
  · exact steady'

/-- A check that may fault before the rest. -/
theorem steady_guard [Decidable condition] {cause : FaultCause}
    {next : Unit → Exec α} (later : ∀ value, Steady (next value)) :
    Steady (if condition then throw cause >>= next else next ()) :=
  steady_ite ((still_throw cause).steady.bind later) (later ())

theorem steady_push (value : Word) : Steady (push value) := by
  refine (still_get _).steady.bind fun pointer => still_getThe.steady.bind fun machine => ?_
  exact steady_guard fun _ => (still_store _ _ _).steady.bind fun _ => steady_put _ _

theorem steady_pop : Steady pop := by
  refine (still_get _).steady.bind fun pointer => still_getThe.steady.bind fun machine => ?_
  exact steady_guard fun _ => (still_load _ _).steady.bind fun value =>
    (steady_put _ _).bind fun _ => (still_pure _).steady

theorem steady_checkPointer : Steady checkPointer := by
  refine (still_get _).steady.bind fun pointer => still_getThe.steady.bind fun machine => ?_
  exact steady_guard fun _ => (still_ite (still_throw _) (still_pure _)).steady

theorem steady_putChecked (slot : Fin 12) (value : Word) : Steady (putChecked slot value) :=
  (steady_put _ _).bind fun _ => steady_ite steady_checkPointer (still_pure _).steady

theorem still_argument (native : Native) (index : Nat) : Still (argument native index) := by
  refine (still_get _).bind fun pointer => ?_
  split
  · exact still_load _ _
  · exact still_pure _

theorem still_giveResult (native : Native) (value : Word) : Still (giveResult native value) := by
  unfold giveResult
  cases typeAccess? native.result with
  | none => exact still_pure _
  | some size => exact (still_get _).bind fun pointer => still_store _ _ _

theorem still_giveUp (native : Native) : Still (giveUp native) :=
  still_countSoftError.bind fun _ => still_giveResult native 0

theorem run_reserve (size : Int) (machine : Machine) :
    ((reserve size).run.run machine).2 = { machine with
      memory := { machine.memory with heap := (machine.memory.heap.allocate size).1 } } := by
  rw [reserve, run_bind, run_getThe]
  simp only
  cases machine.memory.heap.allocate size with
  | mk heap outcome => cases outcome <;> rfl

theorem modest_reserve {size : Int} (small : size ≤ Heap.largestRequest) :
    Modest (reserve size) := by
  intro machine
  rw [run_reserve]
  refine ⟨rfl, .of_byteAt_eq rfl rfl fun _ => rfl, rfl, rfl,
    .inr ⟨.allocate size, fun other mem => ?_, ?_⟩⟩
  · obtain rfl : other = size := by simpa using mem
    exact small
  · show (machine.memory.heap.allocate size).1 = (machine.memory.heap.perform (.allocate size)).1
    rw [Heap.perform]
    cases machine.memory.heap.allocate size with
    | mk heap outcome => cases outcome <;> rfl

theorem modest_release (addr : Word) : Modest (release addr) := by
  intro machine
  rw [release, run_bind, run_getThe]
  simp only
  have small : Heap.Small [.free addr.toNat] := by
    intro size mem
    simp at mem
  cases found : machine.memory.heap.free addr.toNat with
  | error cause => exact ⟨rfl, .refl _, rfl, rfl, .inl rfl⟩
  | ok heap =>
    refine ⟨rfl, .of_byteAt_eq rfl rfl fun _ => rfl, rfl, rfl, .inr ⟨.free addr.toNat, small, ?_⟩⟩
    rw [Heap.perform, found]
    rfl

theorem modest_readFile (settings : Settings) (native : Native) :
    Modest (readFile settings native) := by
  refine (still_argument _ _).bind_modest fun path => ?_
  refine (still_argument _ _).bind_modest fun dataPlace => ?_
  refine (still_argument _ _).bind_modest fun sizePlace => ?_
  refine (still_loadString _).bind_modest fun path => ?_
  split
  · exact (still_giveUp _).modest
  refine still_getThe.bind_modest fun machine => ?_
  cases machine.files.read path with
  | error cause => exact (still_giveUp _).modest
  | ok content =>
    dsimp only
    split
    · exact (still_giveUp _).modest
    · rename_i short
      have small : (content.length : Int) ≤ Heap.largestRequest := by
        unfold Heap.largestRequest
        omega
      refine modest_choice (still_pure _).modest (modest_reserve small) fun block => ?_
      cases block with
      | none => exact still_giveUp _
      | some addr =>
        exact still_unless (still_writeBytes _ _) fun _ =>
          still_unless (still_store _ _ _) fun _ =>
            still_unless (still_store _ _ _) fun _ => still_giveResult _ _

theorem still_writeFile (settings : Settings) (native : Native) :
    Still (writeFile settings native) := by
  refine (still_argument _ _).bind fun path => ?_
  refine (still_argument _ _).bind fun data => ?_
  refine (still_argument _ _).bind fun count => ?_
  refine (still_loadString _).bind fun path => ?_
  refine still_ite (still_giveUp _) ?_
  refine still_choice (still_pure _) (still_readBytes _ _) fun content => ?_
  intro machine
  rw [run_bind, run_getThe]
  dsimp only
  cases machine.files.write path content with
  | error cause => exact still_giveUp native machine
  | ok files =>
    have written := still_giveResult native 1 { machine with files }
    exact ⟨written.registers, written.memory, written.piece, written.steps, written.heap⟩

theorem signedHalf_le (word : Word) : signedHalf word ≤ Heap.largestRequest := by
  have bound := (word.setWidth 32).toInt_lt
  unfold signedHalf Heap.largestRequest
  omega

/-- A native call leaves the registers, the piece and the count of steps alone and does at most one
call to the heap. -/
theorem modest_callNative (settings : Settings) (native : Native) :
    Modest (callNative settings native) := by
  cases native with
  | printInt => exact ((still_argument _ _).bind fun _ => still_print _).modest
  | printFloat => exact ((still_argument _ _).bind fun _ => still_print _).modest
  | printChar => exact ((still_argument _ _).bind fun _ => still_print _).modest
  | printString =>
    exact ((still_argument _ _).bind fun _ => (still_loadString _).bind fun _ =>
      still_print _).modest
  | allocate =>
    refine (still_argument _ _).bind_modest fun size => ?_
    refine (modest_reserve (signedHalf_le size)).bind fun block => ?_
    cases block with
    | none => exact still_giveUp _
    | some addr => exact still_giveResult _ _
  | release => exact (still_argument _ _).bind_modest fun addr => modest_release addr
  | copy =>
    refine ((still_argument _ _).bind fun target => ?_).modest
    refine (still_argument _ _).bind fun source => (still_argument _ _).bind fun count => ?_
    exact (still_readBytes _ _).bind fun bytes => still_writeBytes _ _
  | power =>
    refine ((still_argument _ _).bind fun base => ?_).modest
    exact (still_argument _ _).bind fun exponent => still_giveResult _ _
  | squareRoot => exact ((still_argument _ _).bind fun number => still_giveResult _ _).modest
  | readFile => exact modest_readFile _ _
  | writeFile => exact (still_writeFile _ _).modest

/-- An operation leads from one piece of the program to one of its pieces, does at most one call
to the heap, leaves the count of steps alone and changes only bytes of regions. -/
def Confines (prog : Program) (action : Exec α) : Prop :=
  Relates (fun machine after => machine.piece < prog.pieces.size →
    after.piece < prog.pieces.size ∧ machine.memory.heap.Moves after.memory.heap ∧
      after.steps = machine.steps ∧ machine.memory.Keeps after.memory) action

variable {prog : Program}

theorem Steady.confines {action : Exec α} (steady : Steady action) : Confines prog action :=
  fun machine inside => ⟨(steady machine).1 ▸ inside, .inl (steady machine).2.1,
    (steady machine).2.2⟩

theorem Steady.bind_confines {first : Exec α} {next : α → Exec β} (steady : Steady first)
    (later : ∀ value, Confines prog (next value)) : Confines prog (first >>= next) :=
  steady.andThen later (fun same inside => ⟨same.1 ▸ inside, .inl same.2.1, same.2.2⟩)
    fun same rest inside => by
      obtain ⟨piece, heap, steps, keeps⟩ := rest (same.1 ▸ inside)
      exact ⟨piece, same.2.1 ▸ heap, steps.trans same.2.2.1, same.2.2.2.trans keeps (.inl same.2.1)⟩

theorem confines_guard [Decidable condition] {cause : FaultCause}
    {next : Unit → Exec α} (later : ∀ value, Confines prog (next value)) :
    Confines prog (if condition then throw cause >>= next else next ()) := by
  split
  · exact (still_throw cause).steady.bind_confines later
  · exact later ()

theorem confines_enter (inside : index < prog.pieces.size) :
    Confines prog (modify fun machine => { machine with piece := index } : Exec Unit) :=
  fun _ _ => ⟨inside, .inl rfl, rfl, .refl _⟩

theorem confines_callPiece (inside : index < prog.pieces.size) (callee : Piece) :
    Confines prog (callPiece index callee) := by
  refine (still_get _).steady.bind_confines fun pointer => ?_
  refine confines_guard fun _ => ?_
  refine (still_get _).steady.bind_confines fun counter => ?_
  refine (still_store _ _ _).steady.bind_confines fun _ => still_getThe.steady.bind_confines
    fun machine => ?_
  refine (still_store _ _ _).steady.bind_confines fun _ => (still_get _).steady.bind_confines
    fun base => ?_
  refine (still_store _ _ _).steady.bind_confines fun _ =>
    (steady_put _ _).bind_confines fun _ => ?_
  refine (steady_put _ _).bind_confines fun _ => (steady_put _ _).bind_confines fun _ => ?_
  exact confines_enter inside

theorem confines_call (settings : Settings) (imm : Int) :
    Confines prog (call prog settings imm) := by
  unfold call
  split
  · cases Native.ofId? imm with
    | none => exact (still_throw _).steady.confines
    | some native =>
      intro machine inside
      have tended := modest_callNative settings native machine
      exact ⟨tended.piece ▸ inside, tended.heap, tended.steps, tended.memory⟩
  split
  · exact (still_throw _).steady.confines
  · cases found : prog.pieces[(imm - 1).toNat]? with
    | none => exact (still_throw _).steady.confines
    | some callee =>
      exact confines_callPiece (Array.getElem?_eq_some_iff.mp found).1 callee

theorem confines_giveBack : Confines prog (giveBack prog) := by
  refine (still_get _).steady.bind_confines fun pointer => (still_get _).steady.bind_confines
    fun base => ?_
  refine confines_guard fun _ => still_getThe.steady.bind_confines fun machine => ?_
  dsimp only
  split
  · exact fun _ inside => ⟨inside, .inl rfl, rfl, .refl _⟩
  refine confines_guard fun _ => (still_load _ _).steady.bind_confines fun savedBase => ?_
  refine (still_load _ _).steady.bind_confines fun piece => ?_
  refine (still_load _ _).steady.bind_confines fun counter => ?_
  split
  · exact fun _ inside => ⟨inside, .inl rfl, rfl, .refl _⟩
  · rename_i inside
    refine (steady_put _ _).bind_confines fun _ => (steady_put _ _).bind_confines fun _ => ?_
    refine (steady_put _ _).bind_confines fun _ => confines_enter ?_
    omega

/-- An instruction leads from one piece of the program to one of its pieces. -/
theorem confines_execute (settings : Settings) (fetched : Fetched) :
    Confines prog (execute prog settings fetched) := by
  unfold execute
  dsimp only
  split
  case h_1 => exact fun _ inside => ⟨inside, .inl rfl, rfl, .refl _⟩
  case h_2 => exact (still_pure _).steady.confines
  case h_3 =>
    cases Conversion.ofCode? fetched.instruction.modifier with
    | none => exact (still_throw _).steady.confines
    | some conversion => exact ((still_get _).steady.bind fun _ => steady_put _ _).confines
  case h_4 => exact ((still_get _).steady.bind fun _ => steady_putChecked _ _).confines
  case h_5 =>
    exact ((still_get _).steady.bind fun _ => (still_accessSize _).steady.bind fun _ =>
      (still_get _).steady.bind fun _ => (still_store _ _ _).steady).confines
  case h_6 =>
    exact ((still_get _).steady.bind fun _ => (still_accessSize _).steady.bind fun _ =>
      (still_load _ _).steady.bind fun _ => steady_put _ _).confines
  case h_7 => exact ((still_get _).steady.bind fun _ => steady_push _).confines
  case h_8 => exact (steady_pop.bind fun _ => steady_put _ _).confines
  case h_9 => exact ((still_get _).steady.bind fun _ => steady_put _ _).confines
  case h_10 => exact confines_giveBack
  case h_11 =>
    exact ((still_get _).steady.bind fun _ => (still_get _).steady.bind fun _ =>
      (still_clear _ _).steady).confines
  case h_12 => exact (steady_put _ _).confines
  case h_13 => exact ((still_get _).steady.bind fun _ => steady_put _ _).confines
  case h_14 =>
    exact ((still_get _).steady.bind fun _ => steady_ite
      ((still_get _).steady.bind fun _ => steady_put _ _) (still_pure _).steady).confines
  case h_15 => exact confines_call _ _
  case h_16 =>
    exact ((still_get _).steady.bind fun _ => (still_accessSize _).steady.bind fun _ =>
      (still_get _).steady.bind fun _ => (still_store _ _ _).steady).confines
  case h_17 =>
    exact ((still_get _).steady.bind fun _ => (still_accessSize _).steady.bind fun _ =>
      (still_load _ _).steady.bind fun _ => steady_put _ _).confines
  case h_18 => exact (steady_put _ _).confines
  case h_19 => exact ((still_get _).steady.bind fun _ => steady_putChecked _ _).confines
  case h_20 => exact (still_throw _).steady.confines
  case h_21 =>
    refine ((still_get _).steady.bind fun first => (still_get _).steady.bind fun second =>
      ?_).confines
    cases Arithmetic.apply fetched.instruction.op fetched.instruction.modifier first second with
    | error cause => exact (still_throw _).steady
    | ok word => exact steady_put _ _

/-- A step leads from one piece of the program to one of its pieces, does at most one call to the
heap and changes only bytes of regions. -/
theorem confined_step (settings : Settings)
    (inside : machine.piece < prog.pieces.size) :
    (machine.step prog settings).1.piece < prog.pieces.size ∧
      machine.memory.heap.Moves (machine.step prog settings).1.memory.heap ∧
      machine.memory.Keeps (machine.step prog settings).1.memory := by
  unfold step
  cases machine.fetch prog with
  | mk width outcome =>
    cases outcome with
    | error cause => exact ⟨inside, .inl rfl, .refl _⟩
    | ok fetched =>
      dsimp only
      generalize start : ({ machine with
        registers := assign machine.registers slotPC
          (machine.registers.get slotPC + BitVec.ofNat 64 width)
        steps := machine.steps + 1 } : Machine) = moved
      have same : moved.piece = machine.piece ∧ moved.memory = machine.memory := by
        rw [← start]
        exact ⟨rfl, rfl⟩
      have confined := confines_execute settings fetched moved (same.1 ▸ inside)
      rw [same.2] at confined
      cases found : (execute prog settings fetched).run.run moved with
      | mk result after =>
        rw [found] at confined
        cases result <;> exact ⟨confined.1, confined.2.1, confined.2.2.2⟩

/-- The machine after some number of steps, whatever they end in. The machines that a run comes
through are among these. -/
def after (prog : Program) (settings : Settings) (machine : Machine) : Nat → Machine
  | 0 => machine
  | count + 1 => ((machine.after prog settings count).step prog settings).1

/-- The step in which the lookup of the piece and of its lines can fail. -/
def strictStep? (prog : Program) (settings : Settings) (machine : Machine) :
    Option (Machine × Option Fault) := do
  let piece ← prog.pieces[machine.piece]?
  let located (cause : FaultCause) : Option Fault := do
    let line ← piece.strictLine? machine.counter
    some ⟨cause, piece.name, machine.counter, line⟩
  let (width, fetched) := machine.fetch prog
  let counter := machine.registers.get slotPC + BitVec.ofNat 64 width
  let moved := { machine with registers := assign machine.registers slotPC counter }
  match fetched with
  | .error cause => some (moved, some (← located cause))
  | .ok fetched =>
    match (execute prog settings fetched).run.run { moved with steps := moved.steps + 1 } with
    | (.ok _, after) => some (after, none)
    | (.error cause, after) => some (after, some (← located cause))

/-- The trace of a cell in which the lookup of the piece and of its lines can fail. -/
def strictTrace? (prog : Program) (machine : Machine) (cell : Int) : Option Text := do
  let piece ← prog.pieces[machine.piece]?
  let line ← piece.strictLine? cell
  let shown := Listing.cellText (some prog) prog.targets piece cell
  match line with
  | some line =>
    some (Text.padRight 16 piece.name ++ " " ++ Text.padRight 40 shown ++ " ; " ++
      Text.ofInt line.number ++ ": " ++ line.text ++ "\n")
  | none => some (Text.padRight 16 piece.name ++ " " ++ shown ++ "\n")

variable {settings : Settings} {files : FileSystem} {start : Machine}

theorem piece_start (started : start? prog settings files = .ok start) :
    start.piece < prog.pieces.size ∧ start.memory.heap.Orderly := by
  unfold start? at started
  split at started
  · split at started
    · contradiction
    · rename_i main found
      split at started
      · contradiction
      · obtain rfl := Except.ok.inj started
        have mem : main < prog.pieces.size := by
          simpa using List.mem_of_find?_eq_some found
        refine ⟨mem, ?_⟩
        have heap : (Machine.start prog settings files main).memory.heap =
            { limit := settings.heapLimit } := heap_setBytes _ _ _
        rw [heap]
        exact (Heap.sound_empty _).orderly
  · contradiction

/-- After any number of steps the machine is in a piece of the program. -/
theorem piece_after (started : start? prog settings files = .ok start) (count : Nat) :
    (start.after prog settings count).piece < prog.pieces.size := by
  induction count with
  | zero => exact (piece_start started).1
  | succ count ih => exact (confined_step settings ih).1

/-- Each step of a run changes only bytes of regions. -/
theorem keeps_after (started : start? prog settings files = .ok start) (count : Nat) :
    (start.after prog settings count).memory.Keeps
      (start.after prog settings (count + 1)).memory :=
  (confined_step settings (piece_after started count)).2.2

/-- As long as the next address did not fall the heap is in order. -/
theorem orderly_after (started : start? prog settings files = .ok start) {count : Nat}
    (rises : ∀ earlier < count, (start.after prog settings earlier).memory.heap.next ≤
      (start.after prog settings (earlier + 1)).memory.heap.next) :
    (start.after prog settings count).memory.heap.Orderly := by
  induction count with
  | zero => exact (piece_start started).2
  | succ count ih =>
    exact (ih fun earlier early => rises earlier (Nat.lt_succ_of_lt early)).moves
      (confined_step settings (piece_after started count)).2.1
        (rises count (Nat.lt_succ_self count))

/-- No step fails to find the piece being executed or a source line. -/
theorem strictStep?_after (lined : ∀ piece ∈ prog.pieces, piece.Lined)
    (started : start? prog settings files = .ok start) (count : Nat) :
    strictStep? prog settings (start.after prog settings count) =
      some ((start.after prog settings count).step prog settings) := by
  have inside := piece_after started count
  generalize start.after prog settings count = machine at inside
  have here : prog.pieces[machine.piece]? = some prog.pieces[machine.piece] :=
    Array.getElem?_eq_getElem inside
  have lines := (lined _ (Array.getElem_mem inside)).strictLine?_eq machine.counter
  unfold strictStep? step faultAt
  simp only [here, lines, Option.bind_eq_bind, Option.bind_some]
  cases machine.fetch prog with
  | mk width outcome =>
    cases outcome with
    | error cause => rfl
    | ok fetched =>
      dsimp only
      cases (execute prog settings fetched).run.run _ with
      | mk result after => cases result <;> rfl

/-- No trace fails to find the piece being executed or a source line. -/
theorem strictTrace?_after (lined : ∀ piece ∈ prog.pieces, piece.Lined)
    (started : start? prog settings files = .ok start) (count : Nat) (cell : Int) :
    strictTrace? prog (start.after prog settings count) cell =
      some ((start.after prog settings count).traceLine prog cell) := by
  have inside := piece_after started count
  generalize start.after prog settings count = machine at inside
  have here : prog.pieces[machine.piece]? = some prog.pieces[machine.piece] :=
    Array.getElem?_eq_getElem inside
  have lines := (lined _ (Array.getElem_mem inside)).strictLine?_eq cell
  unfold strictTrace? traceLine
  simp only [here, lines, Option.bind_eq_bind, Option.bind_some]
  cases prog.pieces[machine.piece].line? cell <;> rfl

end Machine

end TinLang
