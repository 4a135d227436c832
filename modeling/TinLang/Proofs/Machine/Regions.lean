import Mathlib.Data.List.Pairwise
import TinLang.Proofs.Machine.HeapTable
import TinLang.Proofs.Machine.Step

/-!
# Regions of memory

A memory that was changed by stores, clearings, requests and frees keeps its regions apart: the
stack ends below the data segment, the data segment below the heap, and the live blocks stand
apart from each other. So a range is addressable exactly when it lies in one region, a range that
is not empty lies in no second one, and a store changes the bytes of its range and nothing else.
-/
namespace TinLang

/-- A part of memory without gaps. -/
structure Region where
  /-- The address of its first byte. -/
  base : Nat
  /-- Its size in bytes. -/
  size : Nat
  deriving DecidableEq, Repr

/-- A range lies in a region. -/
def Region.Holds (region : Region) (addr count : Nat) : Prop :=
  region.base ≤ addr ∧ addr - region.base + count ≤ region.size

namespace Memory

/-- The stack, the data segment and the live blocks of the heap. -/
def regions (memory : Memory) : List Region :=
  ⟨stackBase, memory.stackSize⟩ :: ⟨dataBase, memory.dataSize⟩ ::
    memory.heap.live.map fun block => ⟨block.address, block.size⟩

/-- A change of a memory. -/
inductive Action where
  | store (addr : Word) (size : AccessSize) (value : Word)
  | clear (addr : Word) (count : Int)
  | allocate (size : Int)
  | free (addr : Word)
  deriving DecidableEq, Repr

/-- The memory after a change; a change that is refused leaves it as it was. -/
def act (memory : Memory) : Action → Memory
  | .store addr size value => (memory.store? addr.toNat size value).getD memory
  | .clear addr count => (memory.clear? addr.toNat count).getD memory
  | .allocate size => { memory with heap := (memory.heap.allocate size).1 }
  | .free addr =>
    match memory.heap.free addr.toNat with
    | .ok heap => { memory with heap }
    | .error _ => memory

/-- How many of some changes are requests for a block. -/
def requests (actions : List Action) : Nat :=
  actions.countP fun
    | .allocate _ => true
    | _ => false

/-- No request asks for more than the largest size. -/
def Modest (actions : List Action) : Prop :=
  ∀ size : Int, .allocate size ∈ actions → size ≤ Heap.largestRequest

/-- The regions of a memory stand apart, after some number of requests. -/
structure Laid (memory : Memory) (count : Nat) : Prop where
  /-- The stack ends below the data segment. -/
  stack : memory.stackSize ≤ maxStackSize
  /-- The data segment ends below the heap. -/
  data : memory.dataSize ≤ Heap.base - dataBase
  /-- The blocks of the heap stand apart. -/
  heap : memory.heap.Sound count

variable {memory : Memory} {count : Nat}

/-- Two memories of the same layout, whatever their bytes. -/
def SameLayout (memory other : Memory) : Prop :=
  other.stackSize = memory.stackSize ∧ other.dataSize = memory.dataSize ∧ other.heap = memory.heap

/-- Writing bytes keeps the layout. -/
theorem sameLayout_setBytes (memory : Memory) (addr : Nat) (text : Text) :
    memory.SameLayout (memory.setBytes addr text) := by
  induction text generalizing memory addr with
  | nil => exact ⟨rfl, rfl, rfl⟩
  | cons byte text ih => exact ih (memory.setByte addr byte) (addr + 1)

/-- The layout determines the regions. -/
theorem SameLayout.regions_eq {other : Memory} (same : memory.SameLayout other) :
    other.regions = memory.regions := by
  obtain ⟨stack, data, heap⟩ := same
  rw [regions, regions, stack, data, heap]

/-- The layout determines what is addressable. -/
theorem SameLayout.addressable_eq {other : Memory} (same : memory.SameLayout other) (addr : Nat)
    (amount : Int) : other.addressable addr amount = memory.addressable addr amount := by
  obtain ⟨stack, data, heap⟩ := same
  rw [addressable, addressable, stack, data, heap]

/-- Being laid out depends on the layout only. -/
theorem Laid.congr {other : Memory} (laid : memory.Laid count) (same : memory.SameLayout other) :
    other.Laid count := by
  obtain ⟨stack, data, heap⟩ := same
  exact ⟨stack ▸ laid.stack, data ▸ laid.data, heap ▸ laid.heap⟩

/-- A store is done exactly when its range is addressable. -/
theorem store?_eq (addr : Nat) (size : AccessSize) (value : Word) :
    memory.store? addr size value =
      if memory.addressable addr size.bytes then
        some (memory.setBytes addr (bytesOf size.bytes value.toNat))
      else none := by
  rw [store?, write?, length_bytesOf]

/-- The memory of a start is laid out. -/
theorem laid_initial {stackSize : Nat} {data : Array UInt8} (limit : Int)
    (stack : stackSize ≤ maxStackSize) (room : data.size ≤ Heap.base - dataBase) :
    (initial stackSize data { limit }).Laid 0 := by
  have empty : (⟨stackSize, data.size, { limit }, {}⟩ : Memory).Laid 0 :=
    ⟨stack, room, Heap.sound_empty limit⟩
  exact empty.congr (sameLayout_setBytes _ _ _)

/-- A store keeps the layout. -/
theorem sameLayout_store (memory : Memory) (addr : Word) (size : AccessSize) (value : Word) :
    memory.SameLayout (memory.act (.store addr size value)) := by
  rw [act, store?_eq]
  split
  · exact sameLayout_setBytes _ _ _
  · exact ⟨rfl, rfl, rfl⟩

/-- Clearing keeps the layout. -/
theorem sameLayout_clear (memory : Memory) (addr : Word) (amount : Int) :
    memory.SameLayout (memory.act (.clear addr amount)) := by
  rw [act, clear?]
  split
  · exact sameLayout_setBytes _ _ _
  · exact ⟨rfl, rfl, rfl⟩

/-- One change keeps the regions apart. -/
theorem Laid.act (laid : memory.Laid count) (action : Action) (modest : Modest [action])
    (few : count + requests [action] ≤ Heap.mostRequests) :
    (memory.act action).Laid (count + requests [action]) := by
  cases action with
  | store addr size value => exact laid.congr (sameLayout_store memory addr size value)
  | clear addr amount => exact laid.congr (sameLayout_clear memory addr amount)
  | allocate size =>
    have one : requests [.allocate size] = 1 := rfl
    rw [one] at few ⊢
    refine ⟨laid.stack, laid.data, ?_⟩
    have small := modest size List.mem_cons_self
    have result := laid.heap.allocate_eq few small
    show (memory.heap.allocate size).1.Sound (count + 1)
    rw [result]
    split
    · exact laid.heap.mono (Nat.le_succ _)
    split
    · exact laid.heap.mono (Nat.le_succ _)
    · exact laid.heap.grown (by omega)
  | free addr =>
    by_cases live : addr.toNat ∈ memory.heap.sizes
    · have freed : memory.act (.free addr) =
          { memory with heap := memory.heap.shrunk addr.toNat } := by
        rw [Memory.act, Heap.free_of_mem live]
      rw [freed]
      exact ⟨laid.stack, laid.data, laid.heap.shrunk live⟩
    · have refused : memory.act (.free addr) = memory := by
        rw [Memory.act, Heap.free_of_not_mem live]
      rw [refused]
      exact laid

/-- A sequence of changes keeps the regions apart. -/
theorem Laid.acts (laid : memory.Laid count) {actions : List Action} (modest : Modest actions)
    (few : count + requests actions ≤ Heap.mostRequests) :
    (actions.foldl Memory.act memory).Laid (count + requests actions) := by
  induction actions generalizing memory count with
  | nil => exact laid
  | cons action actions ih =>
    have split : requests (action :: actions) = requests [action] + requests actions := by
      rw [requests, requests, requests, ← List.countP_append, List.singleton_append]
    rw [split, ← Nat.add_assoc] at few ⊢
    have first := laid.act action
      (fun size mem => modest size (List.mem_cons.mpr (.inl (List.mem_singleton.mp mem))))
      (Nat.le_trans (Nat.le_add_right _ _) few)
    exact ih first (fun size mem => modest size (List.mem_cons_of_mem _ mem)) few

/-- A range is addressable exactly when it lies in one region. -/
theorem Laid.addressable_iff (laid : memory.Laid count) (addr : Nat) (amount : Int) :
    memory.addressable addr amount = true ↔
      0 ≤ amount ∧ ∃ region ∈ memory.regions, region.Holds addr amount.toNat := by
  have inside : ∀ region : Region, (Heap.within region.base region.size addr amount.toNat = true ↔
      region.Holds addr amount.toNat) := by
    intro region
    rw [Heap.within, Bool.and_eq_true, decide_eq_true_eq, decide_eq_true_eq, Region.Holds]
  rw [addressable, Bool.and_eq_true, Bool.or_eq_true, Bool.or_eq_true, decide_eq_true_eq,
    inside ⟨stackBase, memory.stackSize⟩, inside ⟨dataBase, memory.dataSize⟩, laid.heap.holds_iff,
    regions]
  refine and_congr_right fun nonnegative => ?_
  simp only [nonnegative, true_and, List.mem_cons, List.mem_map]
  constructor
  · rintro ((stack | data) | ⟨block, live, holds⟩)
    · exact ⟨_, .inl rfl, stack⟩
    · exact ⟨_, .inr (.inl rfl), data⟩
    · exact ⟨_, .inr (.inr ⟨block, live, rfl⟩), holds⟩
  · rintro ⟨region, rfl | rfl | ⟨block, live, rfl⟩, holds⟩
    · exact .inl (.inl holds)
    · exact .inl (.inr holds)
    · exact .inr ⟨block, live, holds⟩

/-- The regions stand one after another. -/
theorem Laid.regions_apart (laid : memory.Laid count) :
    memory.regions.Pairwise fun lower upper => lower.base + lower.size ≤ upper.base := by
  have stack : stackBase + memory.stackSize ≤ dataBase := by
    have bound := laid.stack
    unfold maxStackSize stackBase dataBase at *
    omega
  have data : dataBase + memory.dataSize ≤ Heap.base := by
    have bound := laid.data
    unfold dataBase Heap.base at *
    omega
  have low : ∀ region ∈ memory.heap.live.map fun block => Region.mk block.address block.size,
      Heap.base ≤ region.base := by
    intro region mem
    obtain ⟨block, live, rfl⟩ := List.mem_map.mp mem
    exact (laid.heap.placed block.address (laid.heap.mem_live.mp live).1).1
  rw [regions, List.pairwise_cons, List.pairwise_cons, List.pairwise_map]
  refine ⟨?_, fun region mem => Nat.le_trans data (low region mem), ?_⟩
  · intro region mem
    rcases List.mem_cons.mp mem with rfl | block
    · exact stack
    · have high := low region block
      simp only
      omega
  · exact laid.heap.live_apart.imp fun apart => Nat.le_trans (Nat.le_add_right _ 16) apart

/-- Two regions that hold the same byte are one. -/
theorem Laid.region_unique (laid : memory.Laid count) {first second : Region}
    (mem : first ∈ memory.regions) (member' : second ∈ memory.regions) {addr amount : Nat}
    (positive : 1 ≤ amount) (holds : first.Holds addr amount)
    (holds' : second.Holds addr amount) : first = second := by
  let Once (first second : Region) : Prop :=
    first.Holds addr amount → second.Holds addr amount → first = second
  have apart : memory.regions.Pairwise Once := laid.regions_apart.imp fun {first second} below holds
      holds' => by
    obtain ⟨-, inside⟩ := holds
    obtain ⟨low, -⟩ := holds'
    omega
  have symmetric : Std.Symm Once := ⟨fun _ _ once holds holds' => (once holds' holds).symm⟩
  exact apart.forall_of_forall (fun _ _ _ _ => rfl) mem member' holds holds'

/-- A store in an addressable range is read back, cut to its size and extended by its sign, and
changes no byte outside its range. -/
theorem run_store_of_addressable {machine : Machine} (addr : Word) (size : AccessSize)
    (value : Word) (inside : machine.memory.addressable addr.toNat size.bytes = true) :
    ∃ after, (Machine.store addr size value).run.run machine =
        (.ok (), { machine with memory := after }) ∧
      (Machine.load addr size).run.run { machine with memory := after } =
        (.ok ((value.setWidth (8 * size.bytes)).signExtend 64), { machine with memory := after }) ∧
      (∀ place, place < addr.toNat ∨ addr.toNat + size.bytes ≤ place →
        after.byteAt place = machine.memory.byteAt place) ∧
      after.regions = machine.memory.regions := by
  have stored := @store?_eq machine.memory addr.toNat size value
  rw [if_pos inside] at stored
  have same := machine.memory.sameLayout_setBytes addr.toNat (bytesOf size.bytes value.toNat)
  have bytes : (machine.memory.setBytes addr.toNat (bytesOf size.bytes value.toNat)).byteAt =
      Bytes.store machine.memory.byteAt addr.toNat size value := byteAt_setBytes _ _
  refine ⟨_, Machine.run_store stored, Machine.run_load ?_, ?_, same.regions_eq⟩
  · rw [load?, read?, same.addressable_eq, if_pos inside, Int.toNat_natCast, bytesAt_eq, bytes]
    have back := word_store machine.memory.byteAt addr.toNat size value
    rw [Option.map_some, ← Bytes.word, back, narrow, BitVec.ofNat_toNat]
  · intro place outside
    rw [bytes]
    exact store_of_outside outside

/-- A store outside every region is refused and changes nothing. -/
theorem run_store_of_not_addressable {machine : Machine} (addr : Word) (size : AccessSize)
    (value : Word) (outside : ¬ machine.memory.addressable addr.toNat size.bytes = true) :
    (Machine.store addr size value).run.run machine =
      (.error (.access addr.toNat size.bytes), machine) := by
  have refused := @store?_eq machine.memory addr.toNat size value
  rw [if_neg outside] at refused
  simp only [Machine.store, Machine.changeMemory, Machine.run_bind, Machine.run_getThe, refused]
  rfl

/-- What holds of the regions of a memory and of every access to it. -/
structure Guarded (memory : Memory) : Prop where
  /-- A range is addressable exactly when it lies in a region. -/
  addressable_iff : ∀ (addr : Word) (amount : Int),
    memory.addressable addr.toNat amount = true ↔
      0 ≤ amount ∧ ∃ region ∈ memory.regions, region.base ≤ addr.toNat ∧
        addr.toNat - region.base + amount.toNat ≤ region.size
  /-- A range that is not empty lies in one region only. -/
  unique : ∀ (addr : Word) (amount : Int), 1 ≤ amount →
    memory.addressable addr.toNat amount = true →
      ∃! region, region ∈ memory.regions ∧ region.base ≤ addr.toNat ∧
        addr.toNat - region.base + amount.toNat ≤ region.size
  /-- A store in an addressable range is done, is read back cut to its size and extended by its
  sign, and changes no byte outside its range. -/
  stores : ∀ (machine : Machine) (addr : Word) (size : AccessSize) (value : Word),
    machine.memory = memory → memory.addressable addr.toNat size.bytes = true →
      ∃ after, (Machine.store addr size value).run.run machine =
          (.ok (), { machine with memory := after }) ∧
        (Machine.load addr size).run.run { machine with memory := after } =
          (.ok ((value.setWidth (8 * size.bytes)).signExtend 64),
            { machine with memory := after }) ∧
        (∀ place, place < addr.toNat ∨ addr.toNat + size.bytes ≤ place →
          after.byteAt place = memory.byteAt place) ∧
        after.regions = memory.regions
  /-- Any other store is refused and changes nothing. -/
  refuses : ∀ (machine : Machine) (addr : Word) (size : AccessSize) (value : Word),
    machine.memory = memory → ¬ memory.addressable addr.toNat size.bytes = true →
      (Machine.store addr size value).run.run machine =
        (.error (.access addr.toNat size.bytes), machine)

/-- A laid out memory is guarded. -/
theorem Laid.guarded (laid : memory.Laid count) : memory.Guarded where
  addressable_iff addr amount := laid.addressable_iff addr.toNat amount
  unique addr amount positive inside := by
    obtain ⟨-, region, mem, holds⟩ := (laid.addressable_iff _ _).mp inside
    refine ⟨region, ⟨mem, holds⟩, ?_⟩
    rintro other ⟨member', holds'⟩
    exact laid.region_unique member' mem (by omega) holds' holds
  stores machine addr size value same inside := by
    subst same
    exact run_store_of_addressable addr size value inside
  refuses machine addr size value same outside := by
    subst same
    exact run_store_of_not_addressable addr size value outside

/-- Every memory that changes lead to from the start of a run is guarded. -/
theorem guarded_of_actions {stackSize : Nat} {data : Array UInt8} (limit : Int)
    (stack : stackSize ≤ maxStackSize) (room : data.size ≤ Heap.base - dataBase)
    {actions : List Action} (few : requests actions ≤ Heap.mostRequests)
    (modest : Modest actions) :
    (actions.foldl act (initial stackSize data { limit })).Guarded := by
  have start := laid_initial limit stack room
  have bounded : 0 + requests actions ≤ Heap.mostRequests := by rwa [Nat.zero_add]
  exact (start.acts modest bounded).guarded

/-- A block is taken, written past its end and freed twice. -/
theorem guarded_of_actions_block :
    let actions : List Action := [.allocate 16, .store 0x100000008 .eight (-1),
      .store 0x100000009 .eight 5, .clear 0x100000000 4, .free 0x100000000, .free 0x100000000]
    64 ≤ maxStackSize ∧ #[1, 2, 3].size ≤ Heap.base - dataBase ∧
      requests actions ≤ Heap.mostRequests ∧ Modest actions ∧
      (actions.foldl act (initial 64 #[1, 2, 3] { limit := 0 })).Guarded := by
  intro actions
  have stack : 64 ≤ maxStackSize := by decide
  have room : (#[1, 2, 3] : Array UInt8).size ≤ Heap.base - dataBase := by decide
  have few : requests actions ≤ Heap.mostRequests := by decide
  have modest : Modest actions := by
    intro size mem
    have only : size = 16 := by simpa [actions] using mem
    rw [only]
    decide
  exact ⟨stack, room, few, modest, guarded_of_actions 0 stack room few modest⟩

end Memory

end TinLang
