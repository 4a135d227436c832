import Mathlib.Algebra.Order.BigOperators.Group.List
import Mathlib.Algebra.Order.Group.Nat
import TinLang.Proofs.Machine.Regions

/-!
# Strings in memory

A string is read byte by byte, and every byte is looked up in all regions. Reading comes to an end
in every memory whose regions stand apart (`Laid.reads_string`): each byte uses up a place of a
region, and the addresses do not come around. Where no region ends at the start of another
(`Parted`), the bytes of a string and the zero after it lie in the region of its first byte, so a
string is read exactly when one region holds it (`strung_of_actions`). The largest stack ends where
the data segment starts, and there a string runs on from one into the other
(`not_strung_adjacent`).
-/
namespace TinLang.Memory

variable {addr : Word} {region : Region}

/-- Reading a string: a byte outside every region refuses it, a zero ends it, and it goes on after
any other byte. -/
inductive Reads (memory : Memory) : Word → Except Nat Text → Prop where
  | refused {addr : Word} (outside : ¬ memory.addressable addr.toNat 1 = true) :
    Reads memory addr (.error addr.toNat)
  | ended {addr : Word} (inside : memory.addressable addr.toNat 1 = true)
    (zero : memory.byteAt addr.toNat = 0) : Reads memory addr (.ok [])
  | next {addr : Word} {result : Except Nat Text}
    (inside : memory.addressable addr.toNat 1 = true)
    (some : memory.byteAt addr.toNat ≠ 0) (later : Reads memory (addr + 1) result) :
    Reads memory addr (result.map (memory.byteAt addr.toNat :: ·))

variable {memory : Memory} {count : Nat}

/-- A string is read in one way only. -/
theorem Reads.unique {first second : Except Nat Text}
    (left : memory.Reads addr first) (right : memory.Reads addr second) : first = second := by
  induction left generalizing second with
  | refused outside =>
    cases right with
    | refused => rfl
    | ended inside | next inside => exact absurd inside outside
  | ended inside zero =>
    cases right with
    | refused outside => exact absurd inside outside
    | ended => rfl
    | next _ some => exact absurd zero some
  | next inside some _ ih =>
    cases right with
    | refused outside => exact absurd inside outside
    | ended _ zero => exact absurd zero some
    | next _ _ later => rw [ih later]

/-- A refused string is refused at a byte outside every region. -/
theorem Reads.outside {result : Except Nat Text} {place : Nat}
    (reads : memory.Reads addr result) (error : result = .error place) :
    ¬ memory.addressable place 1 = true := by
  induction reads with
  | refused outside =>
    obtain rfl := Except.error.inj error
    exact outside
  | ended => cases error
  | @next _ result _ _ _ ih =>
    cases result with
    | error other => exact ih error
    | ok text => cases error

/-- How many places the regions have from an address on. -/
def room (memory : Memory) (addr : Nat) : Nat :=
  (memory.regions.map fun region => region.base + region.size - max addr region.base).sum

/-- A byte in a region uses up a place. -/
theorem room_succ_lt {addr : Nat} (mem : region ∈ memory.regions)
    (holds : region.Holds addr 1) : memory.room (addr + 1) < memory.room addr := by
  refine List.sum_lt_sum _ _ (fun other _ => by omega) ⟨region, mem, ?_⟩
  obtain ⟨low, high⟩ := holds
  omega

/-- All the room of a memory is below its extent. -/
theorem room_zero_le (memory : Memory) : memory.room 0 < memory.extent := by
  have sizes : ∀ blocks : List HeapBlock,
      ((blocks.map fun block => Region.mk block.address block.size).map
        fun region => region.base + region.size - max 0 region.base).sum =
          (blocks.map HeapBlock.size).sum := by
    intro blocks
    rw [List.map_map]
    exact congrArg List.sum (List.map_congr_left fun block _ => by simp)
  have total : (memory.heap.blocks.map HeapBlock.size).foldr (· + ·) 0 =
      (memory.heap.live.map HeapBlock.size).sum := by
    rw [Heap.blocks, List.map_reverse, ← List.sum_reverse (memory.heap.live.map HeapBlock.size)]
    rfl
  rw [room, regions, List.map_cons, List.map_cons, List.sum_cons, List.sum_cons, sizes, extent,
    total]
  simp only [Nat.zero_max, Nat.add_sub_cancel_left]
  omega

/-- Higher addresses have no more room. -/
theorem room_le {addr other : Nat} (above : addr ≤ other) :
    memory.room other ≤ memory.room addr :=
  List.sum_le_sum fun region _ => by omega

/-- The first address is outside every region. -/
theorem Laid.not_addressable_zero (laid : memory.Laid count) :
    ¬ memory.addressable 0 1 = true := by
  intro inside
  obtain ⟨-, region, mem, low, -⟩ := (laid.addressable_iff 0 1).mp inside
  have above : stackBase ≤ region.base := by
    have apart := laid.regions_apart
    rw [regions, List.pairwise_cons] at apart
    rcases List.mem_cons.mp mem with rfl | later
    · exact Nat.le_refl _
    · exact Nat.le_trans (Nat.le_add_right _ _) (apart.1 region later)
  unfold stackBase at above
  omega

/-- A bound above the places that are left is not used up. -/
theorem Laid.reads_stringWithin (laid : memory.Laid count) {bound : Nat}
    (enough : memory.room addr.toNat < bound) :
    memory.Reads addr (memory.stringWithin bound addr.toNat) := by
  induction bound generalizing addr with
  | zero => omega
  | succ bound ih =>
    unfold stringWithin
    split
    next inside =>
      simp only
      split
      next zero => exact .ended inside zero
      next some =>
        have next : (addr + 1).toNat = (addr.toNat + 1) % 0x10000000000000000 :=
          BitVec.toNat_add _ _
        obtain ⟨-, region, mem, holds⟩ := (laid.addressable_iff _ _).mp inside
        have fewer := room_succ_lt mem holds
        rw [← next]
        refine .next inside some ?_
        have small := addr.isLt
        by_cases last : addr.toNat + 1 = 2 ^ 64
        · have start : (addr + 1).toNat = 0 := by omega
          have outside : ¬ memory.addressable (addr + 1).toNat 1 = true :=
            start ▸ laid.not_addressable_zero
          obtain ⟨less, rfl⟩ : ∃ less, bound = less + 1 := ⟨bound - 1, by omega⟩
          rw [stringWithin, if_neg outside]
          exact .refused outside
        · have same : (addr + 1).toNat = addr.toNat + 1 := by omega
          exact ih (by rw [same]; omega)
    next outside => exact .refused outside

/-- Reading a string comes to an end, whatever the memory holds. -/
theorem Laid.reads_string (laid : memory.Laid count) (addr : Word) :
    memory.Reads addr (memory.string addr.toNat) :=
  laid.reads_stringWithin (Nat.lt_of_le_of_lt (room_le (Nat.zero_le _)) memory.room_zero_le)

/-- A region holds a string and the zero after it. -/
structure Spells (memory : Memory) (region : Region) (addr : Nat) (text : Text) : Prop where
  holds : region.Holds addr (text.length + 1)
  bytes : memory.bytesAt addr text.length = text
  solid : 0 ∉ text
  zero : memory.byteAt (addr + text.length) = 0

/-- Strings stay in one region: a string is read exactly when one region holds it and the zero after
it, and every other read faults at a byte outside every region. -/
structure Strung (memory : Memory) : Prop where
  string_iff : ∀ (addr : Word) (text : Text), memory.string addr.toNat = .ok text ↔
    ∃ region ∈ memory.regions, memory.Spells region addr.toNat text
  loads : ∀ (machine : Machine) (addr : Word) (text : Text), machine.memory = memory →
    (∃ region ∈ memory.regions, memory.Spells region addr.toNat text) →
      (Machine.loadString addr).run.run machine = (.ok text, machine)
  refuses : ∀ (machine : Machine) (addr : Word), machine.memory = memory →
    (∀ text, ¬ ∃ region ∈ memory.regions, memory.Spells region addr.toNat text) →
      ∃ place, ¬ memory.addressable place 1 = true ∧
        (Machine.loadString addr).run.run machine = (.error (.access place 1), machine)

/-- No region ends where another one starts, unless one of them is empty. -/
def Parted (memory : Memory) : Prop :=
  ∀ lower ∈ memory.regions, ∀ upper ∈ memory.regions, 1 ≤ lower.size → 1 ≤ upper.size →
    lower.base + lower.size ≠ upper.base

/-- Only at the largest sizes regions meet: the stack and the data segment, or the data segment and
the first block. -/
theorem Laid.parted (laid : memory.Laid count)
    (stack : memory.stackSize < maxStackSize ∨ memory.dataSize = 0)
    (data : memory.dataSize < Heap.base - dataBase ∨ Heap.base ∉ memory.heap.sizes) :
    memory.Parted := by
  have tall := laid.stack
  have wide := laid.data
  have placed : ∀ block ∈ memory.heap.live,
      Heap.base ≤ block.address ∧ block.address ∈ memory.heap.sizes := fun block live =>
    ⟨(laid.heap.placed _ (laid.heap.mem_live.mp live).1).1, (laid.heap.mem_live.mp live).1⟩
  have bases : stackBase + maxStackSize = dataBase ∧ dataBase + (Heap.base - dataBase) = Heap.base ∧
      stackBase < dataBase ∧ dataBase < Heap.base := by decide
  intro lower first upper second some more meet
  simp only [regions, List.mem_cons, List.mem_map] at first second
  rcases first with rfl | rfl | ⟨block, live, rfl⟩
  · rcases second with rfl | rfl | ⟨block, live, rfl⟩
    · simp only at some meet
      omega
    · simp only at more meet
      omega
    · have low := (placed block live).1
      simp only at meet
      omega
  · rcases second with rfl | rfl | ⟨block, live, rfl⟩
    · simp only at meet
      omega
    · simp only at some meet
      omega
    · obtain ⟨low, mem⟩ := placed block live
      simp only at meet
      rcases data with less | absent
      · omega
      · have first : block.address = Heap.base := by omega
        exact absent (first ▸ mem)
  · have low := (placed block live).1
    rcases second with rfl | rfl | ⟨other, live', rfl⟩
    · simp only at meet
      omega
    · simp only at meet
      omega
    · obtain ⟨mem, size⟩ := laid.heap.mem_live.mp live
      obtain ⟨member', size'⟩ := laid.heap.mem_live.mp live'
      simp only at some meet
      have above : block.address < other.address := by omega
      have apart := laid.heap.apart _ _ mem member' above
      omega

/-- With fewer requests than the limit no region reaches the last address. -/
theorem Laid.below_last (laid : memory.Laid count) (few : count ≤ Heap.mostRequests)
    (mem : region ∈ memory.regions) : region.base + region.size < 2 ^ 64 := by
  have tall := laid.stack
  have wide := laid.data
  have bases : stackBase + maxStackSize = dataBase ∧ dataBase + (Heap.base - dataBase) = Heap.base ∧
      Heap.base = 2 ^ 32 := by decide
  simp only [regions, List.mem_cons, List.mem_map] at mem
  rcases mem with rfl | rfl | ⟨block, live, rfl⟩
  · simp only
    omega
  · simp only
    omega
  · obtain ⟨mem, size⟩ := laid.heap.mem_live.mp live
    have below := laid.heap.below _ mem
    have addresses := laid.heap.addresses
    unfold Heap.mostRequests at few
    unfold Heap.largestRequest at addresses
    simp only
    omega

/-- The first byte of a range in a region is addressable. -/
theorem Laid.addressable_of_holds (laid : memory.Laid count)
    (mem : region ∈ memory.regions) {addr amount : Nat} (some : 1 ≤ amount)
    (holds : region.Holds addr amount) : memory.addressable addr 1 = true := by
  obtain ⟨low, high⟩ := holds
  have one : region.Holds addr 1 := ⟨low, by omega⟩
  exact (laid.addressable_iff addr 1).mpr ⟨by decide, region, mem, one⟩

/-- A string in one region is read. -/
theorem Laid.reads_of_spells (laid : memory.Laid count) (few : count ≤ Heap.mostRequests)
    (mem : region ∈ memory.regions) {text : Text}
    (spells : memory.Spells region addr.toNat text) : memory.Reads addr (.ok text) := by
  induction text generalizing addr with
  | nil =>
    exact .ended (laid.addressable_of_holds mem (Nat.le_add_left _ _) spells.holds) spells.zero
  | cons byte text ih =>
    obtain ⟨holds, bytes, solid, zero⟩ := spells
    have inside := laid.addressable_of_holds mem (Nat.le_add_left _ _) holds
    rw [List.length_cons] at holds bytes zero
    obtain ⟨here, later⟩ := List.cons.inj bytes
    have last := laid.below_last few mem
    obtain ⟨low, high⟩ := holds
    have next : (addr + 1).toNat = addr.toNat + 1 := by
      rw [BitVec.toNat_add_of_lt (by simp; omega)]
      rfl
    have some : memory.byteAt addr.toNat ≠ 0 := by
      rw [here]
      exact fun same => solid (List.mem_cons.mpr (.inl same.symm))
    have rest : memory.Reads (addr + 1) (.ok text) := by
      refine ih ⟨⟨?_, ?_⟩, ?_, fun there => solid (List.mem_cons_of_mem _ there), ?_⟩ <;> rw [next]
      · omega
      · omega
      · exact later
      · rw [← zero]
        congr 1
        omega
    have whole := Reads.next inside some rest
    rwa [here] at whole

/-- Neighbouring bytes lie in one region. -/
theorem Laid.region_eq_of_next (laid : memory.Laid count) (parted : memory.Parted)
    {first second : Region} (mem : first ∈ memory.regions) (member' : second ∈ memory.regions)
    {addr : Nat} (holds : first.Holds addr 1) (holds' : second.Holds (addr + 1) 1) :
    first = second := by
  obtain ⟨low, high⟩ := holds
  obtain ⟨low', high'⟩ := holds'
  have meet := parted first mem second member' (by omega) (by omega)
  by_cases inside : second.base ≤ addr
  · exact laid.region_unique mem member' (Nat.le_refl 1) ⟨low, high⟩ ⟨inside, by omega⟩
  · -- The second region starts at the next byte, so the first one has to go on there.
    have further : first.Holds (addr + 1) 1 := ⟨by omega, by omega⟩
    exact laid.region_unique mem member' (Nat.le_refl 1) further ⟨low', high'⟩

/-- Where no region ends at the start of another, a string that is read lies in one region. -/
theorem Laid.spells_of_reads (laid : memory.Laid count) (parted : memory.Parted)
    {result : Except Nat Text} (reads : memory.Reads addr result) {text : Text}
    (found : result = .ok text) :
    ∃ region ∈ memory.regions, memory.Spells region addr.toNat text := by
  induction reads generalizing text with
  | refused => cases found
  | ended inside zero =>
    obtain rfl := Except.ok.inj found
    obtain ⟨-, region, mem, holds⟩ := (laid.addressable_iff _ _).mp inside
    exact ⟨region, mem, holds, rfl, List.not_mem_nil, zero⟩
  | @next addr result inside some later ih =>
    cases result with
    | error place => cases found
    | ok rest =>
      obtain rfl := Except.ok.inj found
      obtain ⟨region, mem, holds, bytes, solid, zero⟩ := ih rfl
      obtain ⟨-, first, member', here⟩ := (laid.addressable_iff _ _).mp inside
      have further := laid.addressable_of_holds mem (Nat.le_add_left _ _) holds
      have next : (addr + 1).toNat = addr.toNat + 1 := by
        have small := addr.isLt
        have sum : (addr + 1).toNat = (addr.toNat + 1) % 2 ^ 64 := BitVec.toNat_add _ _
        by_contra around
        have start : (addr + 1).toNat = 0 := by omega
        exact laid.not_addressable_zero (start ▸ further)
      rw [next] at holds bytes zero
      obtain ⟨low, high⟩ := holds
      have one : region.Holds (addr.toNat + 1) 1 := ⟨low, by omega⟩
      obtain rfl := laid.region_eq_of_next parted member' mem here one
      refine ⟨first, mem, ⟨here.1, ?_⟩, ?_, ?_, ?_⟩
      · have base := here.1
        rw [List.length_cons]
        omega
      · rw [List.length_cons, bytesAt, bytes]
      · exact fun there => (List.mem_cons.mp there).elim (fun same => some same.symm) solid
      · rw [List.length_cons, ← zero]
        congr 1
        omega

/-- Where no region ends at the start of another, strings stay in one region. -/
theorem Laid.strung (laid : memory.Laid count) (few : count ≤ Heap.mostRequests)
    (parted : memory.Parted) : memory.Strung := by
  have string_iff : ∀ (addr : Word) (text : Text), memory.string addr.toNat = .ok text ↔
      ∃ region ∈ memory.regions, memory.Spells region addr.toNat text := by
    intro addr text
    constructor
    · exact laid.spells_of_reads parted (laid.reads_string addr)
    · rintro ⟨region, mem, spells⟩
      exact (laid.reads_string addr).unique (laid.reads_of_spells few mem spells)
  refine ⟨string_iff, ?_, ?_⟩
  · intro machine addr text same spelled
    have found := (string_iff addr text).mpr spelled
    rw [Machine.loadString, Machine.run_bind, Machine.run_getThe]
    simp only [same, found]
    rfl
  · intro machine addr same nothing
    cases found : memory.string addr.toNat with
    | ok text => exact absurd ((string_iff addr text).mp found) (nothing text)
    | error place =>
      refine ⟨place, (laid.reads_string addr).outside found, ?_⟩
      rw [Machine.loadString, Machine.run_bind, Machine.run_getThe]
      simp only [same, found]
      rfl

/-- No change resizes the stack or the data segment. -/
theorem sizes_act (memory : Memory) (action : Action) :
    (memory.act action).stackSize = memory.stackSize ∧
      (memory.act action).dataSize = memory.dataSize := by
  cases action with
  | store addr size value =>
    obtain ⟨stack, data, -⟩ := memory.sameLayout_store addr size value
    exact ⟨stack, data⟩
  | clear addr amount =>
    obtain ⟨stack, data, -⟩ := memory.sameLayout_clear addr amount
    exact ⟨stack, data⟩
  | allocate size => exact ⟨rfl, rfl⟩
  | free addr =>
    rw [act]
    split <;> exact ⟨rfl, rfl⟩

/-- Actions keep the sizes of stack and data. -/
theorem sizes_acts (memory : Memory) (actions : List Action) :
    (actions.foldl act memory).stackSize = memory.stackSize ∧
      (actions.foldl act memory).dataSize = memory.dataSize := by
  induction actions generalizing memory with
  | nil => exact ⟨rfl, rfl⟩
  | cons action actions ih =>
    obtain ⟨stack, data⟩ := ih (memory.act action)
    obtain ⟨stack', data'⟩ := memory.sizes_act action
    exact ⟨stack.trans stack', data.trans data'⟩

/-- In every memory that changes lead to from the start of a run reading a string comes to an end.
Strings stay in one region when the stack is not the largest or the data segment is empty, and the
data segment is not the largest or there is no block at the first address of the heap. -/
theorem strung_of_actions {stackSize : Nat} {data : Array UInt8} (limit : Int)
    (stack : stackSize ≤ maxStackSize) (room : data.size ≤ Heap.base - dataBase)
    {actions : List Action} (few : requests actions ≤ Heap.mostRequests) (modest : Modest actions) :
    let memory := actions.foldl act (initial stackSize data { limit })
    (∀ addr : Word, memory.Reads addr (memory.string addr.toNat)) ∧
      ((stackSize < maxStackSize ∨ data.size = 0) →
        (data.size < Heap.base - dataBase ∨ Heap.base ∉ memory.heap.sizes) → memory.Strung) := by
  intro memory
  have bounded : 0 + requests actions ≤ Heap.mostRequests := by rwa [Nat.zero_add]
  have laid : memory.Laid (0 + requests actions) :=
    (laid_initial limit stack room).acts modest bounded
  obtain ⟨tall, wide⟩ := sizes_acts (initial stackSize data { limit }) actions
  obtain ⟨tall', wide', -⟩ := sameLayout_setBytes ⟨stackSize, data.size, { limit }, {}⟩ dataBase
    data.toList
  have parted := @laid.parted
  rw [show memory.stackSize = stackSize from tall.trans tall',
    show memory.dataSize = data.size from wide.trans wide'] at parted
  exact ⟨laid.reads_string, fun short small => laid.strung bounded (parted short small)⟩

/-- A string on the stack, one in the data segment and one in a block. -/
theorem strung_of_actions_three :
    let data : Array UInt8 := #[104, 105, 0]
    let actions : List Action :=
      [.allocate 8, .store 0x1003E .two 0x0041, .store 0x100000000 .four 0x00434241]
    let memory := actions.foldl act (initial 64 data { limit := 0 })
    64 ≤ maxStackSize ∧ data.size ≤ Heap.base - dataBase ∧ requests actions ≤ Heap.mostRequests ∧
      Modest actions ∧ (∀ addr : Word, memory.Reads addr (memory.string addr.toNat)) ∧
        (64 < maxStackSize ∨ data.size = 0) ∧
          (data.size < Heap.base - dataBase ∨ Heap.base ∉ memory.heap.sizes) ∧ memory.Strung := by
  intro data actions memory
  have stack : 64 ≤ maxStackSize := by decide
  have room : data.size ≤ Heap.base - dataBase := by decide
  have few : requests actions ≤ Heap.mostRequests := by decide
  have modest : Modest actions := by
    intro size mem
    have only : size = 8 := by simpa [actions] using mem
    rw [only]
    decide
  have short : 64 < maxStackSize ∨ data.size = 0 := .inl (by decide)
  have small : data.size < Heap.base - dataBase ∨ Heap.base ∉ memory.heap.sizes := .inl (by decide)
  obtain ⟨ends, strung⟩ := strung_of_actions 0 stack room few modest
  exact ⟨stack, room, few, modest, ends, short, small, strung short small⟩

/-- A memory with the largest stack, in whose last byte a letter was stored, and a data segment that
starts with a string. -/
def adjacent : Memory :=
  (initial maxStackSize #[66, 0] { limit := 0 }).act (.store 0x3FFFFFFF .one 65)

/-- The memory of the example is laid out. -/
theorem laid_adjacent : adjacent.Laid 0 :=
  (laid_initial 0 (Nat.le_refl _) (by decide)).congr (sameLayout_store _ _ _ _)

/-- Its stack ends where its data begins. -/
theorem regions_adjacent : adjacent.regions = [⟨stackBase, maxStackSize⟩, ⟨dataBase, 2⟩] :=
  (sameLayout_store _ _ _ _).regions_eq.trans (sameLayout_setBytes _ _ _).regions_eq

/-- Its bytes lie in both regions. -/
theorem holds_adjacent : (Region.mk stackBase maxStackSize).Holds 0x3FFFFFFF 1 ∧
    (Region.mk dataBase 2).Holds 0x40000000 1 ∧ (Region.mk dataBase 2).Holds 0x40000001 1 :=
  ⟨⟨by decide, by decide⟩, ⟨by decide, by decide⟩, ⟨by decide, by decide⟩⟩

/-- They spell a string across the border. -/
theorem byteAt_adjacent : adjacent.byteAt 0x3FFFFFFF = 65 ∧ adjacent.byteAt 0x40000000 = 66 ∧
    adjacent.byteAt 0x40000001 = 0 := by
  have inside : (initial maxStackSize #[66, 0] { limit := 0 }).addressable 0x3FFFFFFF 1 = true :=
    (laid_initial 0 (Nat.le_refl _) (by decide)).addressable_of_holds List.mem_cons_self
      (Nat.le_refl 1) holds_adjacent.1
  have stored : adjacent = (initial maxStackSize #[66, 0] { limit := 0 }).setBytes
    0x3FFFFFFF [65] := by
    have done := @store?_eq (initial maxStackSize #[66, 0] { limit := 0 }) 0x3FFFFFFF .one 65
    rw [show (AccessSize.one.bytes : Int) = 1 from rfl, if_pos inside] at done
    rw [adjacent, act, show (0x3FFFFFFF : Word).toNat = 0x3FFFFFFF from rfl, done]
    rfl
  rw [stored, byteAt_setBytes, initial, byteAt_setBytes]
  exact ⟨by decide, by decide, by decide⟩

/-- At the largest stack a string runs on into the data segment, and no region holds it. -/
theorem not_strung_adjacent :
    (#[66, 0] : Array UInt8).size ≤ Heap.base - dataBase ∧
      adjacent.string 0x3FFFFFFF = .ok [65, 66] ∧
        (∀ region ∈ adjacent.regions, ¬ adjacent.Spells region 0x3FFFFFFF [65, 66]) ∧
          ¬ adjacent.Strung := by
  obtain ⟨first, second, third⟩ := byteAt_adjacent
  have stack : ⟨stackBase, maxStackSize⟩ ∈ adjacent.regions := by simp [regions_adjacent]
  have data : ⟨dataBase, 2⟩ ∈ adjacent.regions := by simp [regions_adjacent]
  have addressable : adjacent.addressable 0x3FFFFFFF 1 = true ∧
      adjacent.addressable 0x40000000 1 = true ∧ adjacent.addressable 0x40000001 1 = true := by
    obtain ⟨last, start, next⟩ := holds_adjacent
    exact ⟨laid_adjacent.addressable_of_holds stack (Nat.le_refl 1) last,
      laid_adjacent.addressable_of_holds data (Nat.le_refl 1) start,
      laid_adjacent.addressable_of_holds data (Nat.le_refl 1) next⟩
  have ended : adjacent.Reads 0x40000001 (.ok []) := .ended addressable.2.2 third
  have solid : adjacent.byteAt 0x3FFFFFFF ≠ 0 ∧ adjacent.byteAt 0x40000000 ≠ 0 := by
    rw [first, second]
    decide
  have later := @Reads.next adjacent 0x40000000 _ addressable.2.1 solid.2 ended
  have reads := @Reads.next adjacent 0x3FFFFFFF _ addressable.1 solid.1 later
  have read : adjacent.string 0x3FFFFFFF = .ok [65, 66] := by
    have same : adjacent.string 0x3FFFFFFF =
        .ok [adjacent.byteAt 0x3FFFFFFF, adjacent.byteAt 0x40000000] :=
      (laid_adjacent.reads_string 0x3FFFFFFF).unique reads
    rwa [first, second] at same
  have apart : ∀ region ∈ adjacent.regions, ¬ adjacent.Spells region 0x3FFFFFFF [65, 66] := by
    rw [regions_adjacent]
    intro region mem spells
    obtain ⟨low, high⟩ := spells.holds
    simp only [List.mem_cons, List.not_mem_nil, or_false] at mem
    rcases mem with rfl | rfl
    · revert high
      decide
    · revert low
      decide
  refine ⟨by decide, read, apart, fun strung => ?_⟩
  obtain ⟨region, mem, spells⟩ := (strung.string_iff 0x3FFFFFFF [65, 66]).mp read
  exact apart region mem spells

end TinLang.Memory
