import Mathlib.Algebra.Group.Int.Defs
import Mathlib.Algebra.Group.Nat.Defs
import Mathlib.Algebra.GroupWithZero.Nat
import Mathlib.Data.List.Basic
import TinLang.Machine.Heap

/-!
# The table of the heap

The parts of a heap agree: the addresses in order are those of the live blocks, and the total is
the sum of their sizes. The blocks lie apart, so bisection finds the only block that can hold a
range. Allocating and freeing keep this as long as the sums stay inside 64 bits, which a bound on
the number and size of the requests gives.
-/
namespace TinLang.Heap

variable {addr size : Nat} {test : Nat → Bool}

/-- The largest size that a request asks for. -/
def largestRequest : Nat := 2 ^ 31 - 1

/-- The most requests that are made. -/
def mostRequests : Nat := 2 ^ 32

/-- Bisection finds the place from which on the items pass. -/
theorem bisect_eq {items : Array Nat} {low high place : Nat}
    (inside : high ≤ items.size)
    (before : ∀ index (bound : index < items.size), index < place → test items[index] = false)
    (after : ∀ index (bound : index < items.size), place ≤ index → test items[index] = true)
    (lower : low ≤ place) (upper : place ≤ high) : bisect items test low high inside = place := by
  fun_induction bisect items test low high inside with
  | case1 low high inside apart middle passes ih =>
    refine ih lower ?_
    rcases Nat.lt_or_ge middle place with early | late
    · have fails := before middle (by omega) early
      rw [fails] at passes
      contradiction
    · exact late
  | case2 low high inside apart middle fails ih =>
    refine ih ?_ upper
    rcases Nat.lt_or_ge middle place with early | late
    · exact early
    · exact absurd (after middle (by omega) late) fails
  | case3 low high inside apart => omega

theorem bisect_le {items : Array Nat} {low high : Nat}
    (inside : high ≤ items.size) (ordered : low ≤ high) :
    bisect items test low high inside ≤ high := by
  fun_induction bisect items test low high inside with
  | case1 low high inside apart middle passes ih => have := ih (by omega); omega
  | case2 low high inside apart middle fails ih => exact ih (by omega)
  | case3 low high inside apart => exact ordered

variable {heap : Heap} {count : Nat}

/-- The addresses before the position of a test are those that fail it. -/
theorem lt_position_iff (ascending : heap.order.toList.Pairwise (· < ·))
    (upward : ∀ start other, start < other → test start = true → test other = true)
    {index : Nat} (inside : index < heap.order.toList.length) :
    index < heap.position test ↔ test heap.order.toList[index] = false := by
  have after : ∀ index (bound : index < heap.order.toList.length),
      heap.order.toList.findIdx test ≤ index → test heap.order.toList[index] = true := by
    intro index bound late
    have first := Nat.lt_of_le_of_lt late bound
    have passes : test heap.order.toList[heap.order.toList.findIdx test] = true :=
      List.findIdx_getElem
    rcases Nat.eq_or_lt_of_le late with same | later
    · simpa only [same] using passes
    · have less := List.pairwise_iff_getElem.mp ascending _ index first bound later
      exact upward _ _ less passes
  have place : heap.position test = heap.order.toList.findIdx test :=
    bisect_eq _ (fun _ _ early => List.not_of_lt_findIdx early) after (Nat.zero_le _)
      List.findIdx_le_length
  rw [place]
  constructor
  · exact fun early => List.not_of_lt_findIdx early
  · intro fails
    by_contra late
    rw [after index inside (Nat.not_lt.mp late)] at fails
    contradiction

theorem position_le (test : Nat → Bool) : heap.position test ≤ heap.order.toList.length :=
  bisect_le _ (Nat.zero_le _)

/-- The size that the table holds for an address, zero when it holds none. -/
def sizeAt (heap : Heap) (addr : Nat) : Nat := heap.sizes.getD addr 0

/-- The addresses in order ascend, are those of the table and lie below the next one. -/
structure Orderly (heap : Heap) : Prop where
  ascending : heap.order.toList.Pairwise (· < ·)
  listed : ∀ addr, addr ∈ heap.order ↔ addr ∈ heap.sizes
  below : ∀ addr ∈ heap.sizes, addr < heap.next

/-- The parts of a heap agree, its blocks lie apart, and its sums are small, after some number of
requests. -/
structure Sound (heap : Heap) (count : Nat) : Prop where
  /-- The addresses in order ascend. -/
  ascending : heap.order.toList.Pairwise (· < ·)
  /-- The addresses in order are those of the table. -/
  listed : ∀ addr, addr ∈ heap.order ↔ addr ∈ heap.sizes
  /-- Blocks are aligned and start at the base or above. -/
  placed : ∀ addr ∈ heap.sizes, base ≤ addr ∧ 16 ∣ addr
  /-- A guard stands between a block and the blocks above it. -/
  apart : ∀ lower upper, lower ∈ heap.sizes → upper ∈ heap.sizes → lower < upper →
    lower + heap.sizeAt lower + 16 ≤ upper
  /-- A guard stands between a block and the next one to be handed out. -/
  below : ∀ addr ∈ heap.sizes, addr + heap.sizeAt addr + 16 ≤ heap.next
  /-- The next block is aligned and starts at the base or above. -/
  next : base ≤ heap.next ∧ 16 ∣ heap.next
  /-- The total is the sum of the sizes. -/
  total : heap.total = ((heap.order.toList.map heap.sizeAt).sum : Nat)
  /-- The addresses stay low. -/
  addresses : heap.next ≤ base + count * (largestRequest + 31)
  /-- The total stays low. -/
  sums : heap.total ≤ count * largestRequest

theorem sound_empty (limit : Int) : Sound { limit } 0 where
  ascending := List.Pairwise.nil
  listed addr := by simp
  placed addr mem := by simp at mem
  apart lower upper mem := by simp at mem
  below addr mem := by simp at mem
  next := ⟨Nat.le_refl base, 0x10000000, rfl⟩
  total := rfl
  addresses := Nat.le_add_right base _
  sums := Int.le_of_eq (Int.zero_mul _).symm

/-- The order of a sound heap agrees with its table. -/
theorem Sound.orderly (sound : heap.Sound count) : heap.Orderly where
  ascending := sound.ascending
  listed := sound.listed
  below addr mem := by
    have below := sound.below addr mem
    omega

theorem Sound.mono (sound : heap.Sound count) {more : Nat} (above : count ≤ more) :
    heap.Sound more := by
  refine { sound with addresses := ?_, sums := ?_ }
  · have grown := Nat.mul_le_mul_right (largestRequest + 31) above
    exact Nat.le_trans sound.addresses (Nat.add_le_add_left grown base)
  · have grown := Nat.mul_le_mul_right largestRequest above
    exact Int.le_trans sound.sums (by exact_mod_cast grown)

theorem getElem?_of_mem (mem : addr ∈ heap.sizes) :
    heap.sizes[addr]? = some (heap.sizeAt addr) := by
  obtain ⟨size, found⟩ := Option.isSome_iff_exists.mp (Std.HashMap.mem_iff_isSome_getElem?.mp mem)
  rw [sizeAt, Std.HashMap.getD_eq_getD_getElem?, found]
  rfl

theorem at?_of_mem (mem : addr ∈ heap.sizes) :
    heap.at? addr = some ⟨addr, heap.sizeAt addr⟩ := by
  rw [at?, getElem?_of_mem mem]
  rfl

theorem at?_of_not_mem (absent : addr ∉ heap.sizes) :
    heap.at? addr = none := by
  rw [at?, Std.HashMap.getElem?_eq_none absent]
  rfl

/-- The live blocks are those of the table in order. -/
theorem Sound.live_eq (sound : heap.Sound count) :
    heap.live = heap.order.toList.map fun addr => ⟨addr, heap.sizeAt addr⟩ := by
  have found : ∀ addr ∈ heap.order.toList,
      heap.at? addr = some ⟨addr, heap.sizeAt addr⟩ := by
    intro addr mem
    exact at?_of_mem ((sound.listed addr).mp (Array.mem_def.mpr mem))
  rw [live, List.filterMap_congr found, ← List.filterMap_eq_map]
  rfl

theorem Sound.mem_live (sound : heap.Sound count) {block : HeapBlock} :
    block ∈ heap.live ↔ block.address ∈ heap.sizes ∧ heap.sizeAt block.address = block.size := by
  rw [sound.live_eq, List.mem_map]
  constructor
  · rintro ⟨addr, mem, rfl⟩
    exact ⟨(sound.listed addr).mp (Array.mem_def.mpr mem), rfl⟩
  · rintro ⟨mem, size⟩
    exact ⟨block.address, Array.mem_def.mp ((sound.listed _).mpr mem), by rw [size]⟩

/-- A guard stands between the live blocks. -/
theorem Sound.live_apart (sound : heap.Sound count) : heap.live.Pairwise fun lower upper =>
    lower.address + lower.size + 16 ≤ upper.address := by
  have listed : ∀ addr ∈ heap.order.toList, addr ∈ heap.sizes := fun addr mem =>
    (sound.listed addr).mp (Array.mem_def.mpr mem)
  rw [sound.live_eq, List.pairwise_map]
  exact sound.ascending.imp_of_mem fun first second =>
    sound.apart _ _ (listed _ first) (listed _ second)

/-- The distance from a small block to the next. -/
def distance (size : Nat) : Nat := (size + 15) / 16 * 16 + 16

theorem stride_eq (small : size ≤ largestRequest) : stride size = distance size := by
  unfold largestRequest at small
  have raised : wrapSigned ((size : Int) + guard - 1) = (size + 15 : Nat) := by
    rw [wrapSigned_eq] <;> simp only [guard] <;> omega
  have rounded : ((size + 15 : Nat) : Int).tdiv guard * guard + guard = distance size := by
    rw [guard, Int.tdiv_eq_ediv_of_nonneg (by omega), distance]
    omega
  rw [stride, raised, rounded, wrapSigned_eq] <;> unfold distance <;> omega

/-- The heap with one more block. -/
def grown (heap : Heap) (size : Nat) : Heap :=
  { heap with
    sizes := heap.sizes.insert heap.next size
    order := heap.order.push heap.next
    next := heap.next + distance size
    total := heap.total + size }

/-- Inside the bounds a request is answered by the sign of the size and the limit alone. -/
theorem Sound.allocate_eq (sound : heap.Sound count) (few : count < mostRequests) {size : Int}
    (small : size ≤ largestRequest) :
    heap.allocate size =
      if size ≤ 0 then (heap, .error (.invalidSize size))
      else if heap.effectiveLimit < heap.total + size then
        (heap, .error (.outOfMemory size heap.total))
      else (heap.grown size.toNat, .ok heap.next) := by
  by_cases positive : size ≤ 0
  · rw [allocate, if_pos positive, if_pos positive]
  obtain ⟨number, rfl⟩ := Int.eq_ofNat_of_zero_le (Int.le_of_lt (Int.not_le.mp positive))
  have small' : number ≤ largestRequest := Int.ofNat_le.mp small
  have sums := sound.sums
  have total := sound.total
  have addresses := sound.addresses
  have sum : wrapSigned (heap.total + number) = heap.total + number := by
    apply wrapSigned_eq
    · omega
    · unfold mostRequests at few
      unfold largestRequest at sums small'
      omega
  have moved : ((heap.next : Int) + stride number) % 0x10000000000000000 =
      (heap.next + distance number : Nat) := by
    rw [stride_eq small']
    unfold mostRequests at few
    unfold distance
    unfold largestRequest at addresses small'
    unfold base at addresses
    omega
  rw [allocate, if_neg positive, if_neg positive, sum]
  by_cases full : heap.effectiveLimit < heap.total + number
  · rw [if_pos full, if_pos full]
  · rw [if_neg full, if_neg full, Heap.placed, moved]
    rfl

theorem Sound.next_fresh (sound : heap.Sound count) : heap.next ∉ heap.sizes := by
  intro mem
  have below := sound.below heap.next mem
  omega

theorem sizeAt_grown (size addr : Nat) :
    (heap.grown size).sizeAt addr = if heap.next = addr then size else heap.sizeAt addr := by
  simp only [sizeAt, grown, Std.HashMap.getD_insert, beq_iff_eq]

theorem mem_sizes_grown :
    addr ∈ (heap.grown size).sizes ↔ addr = heap.next ∨ addr ∈ heap.sizes := by
  rw [grown, Std.HashMap.mem_insert, beq_iff_eq, eq_comm]

theorem sizeAt_grown_of_mem (sound : heap.Sound count)
    (mem : addr ∈ heap.sizes) : (heap.grown size).sizeAt addr = heap.sizeAt addr := by
  rw [sizeAt_grown, if_neg]
  rintro rfl
  exact sound.next_fresh mem

/-- A new block keeps the heap sound. -/
theorem Sound.grown (sound : heap.Sound count) (small : size ≤ largestRequest) :
    (heap.grown size).Sound (count + 1) := by
  have room : size + 16 ≤ distance size := by unfold distance; omega
  have near : distance size ≤ size + 31 := by unfold distance; omega
  have aligned : 16 ∣ distance size := by unfold distance; omega
  have order : (heap.grown size).order.toList = heap.order.toList ++ [heap.next] := by
    simp [Heap.grown]
  have old : ∀ addr ∈ heap.order.toList, addr ∈ heap.sizes := fun addr mem =>
    (sound.listed addr).mp (Array.mem_def.mpr mem)
  have last : (heap.grown size).sizeAt heap.next = size := by rw [sizeAt_grown, if_pos rfl]
  constructor
  case ascending =>
    rw [order, List.pairwise_append]
    refine ⟨sound.ascending, List.pairwise_singleton _ _, ?_⟩
    intro addr mem other single
    rw [List.mem_singleton.mp single]
    have below := sound.below addr (old addr mem)
    omega
  case listed =>
    intro addr
    rw [mem_sizes_grown, ← sound.listed, Array.mem_def, order, List.mem_append,
      List.mem_singleton, Array.mem_def, or_comm]
  case placed =>
    intro addr mem
    rcases mem_sizes_grown.mp mem with rfl | there
    · exact sound.next
    · exact sound.placed addr there
  case apart =>
    intro lower upper first second less
    rcases mem_sizes_grown.mp first with rfl | there
    · rcases mem_sizes_grown.mp second with rfl | there'
      · omega
      · have below := sound.below upper there'
        omega
    · rw [sizeAt_grown_of_mem sound there]
      rcases mem_sizes_grown.mp second with rfl | there'
      · exact sound.below lower there
      · exact sound.apart lower upper there there' less
  case below =>
    intro addr mem
    have next : (heap.grown size).next = heap.next + distance size := rfl
    rw [next]
    rcases mem_sizes_grown.mp mem with rfl | there
    · rw [last]
      omega
    · rw [sizeAt_grown_of_mem sound there]
      have below := sound.below addr there
      omega
  case next =>
    obtain ⟨above, multiple⟩ := sound.next
    exact ⟨Nat.le_trans above (Nat.le_add_right _ _), Nat.dvd_add multiple aligned⟩
  case total =>
    have same : heap.order.toList.map (heap.grown size).sizeAt =
        heap.order.toList.map heap.sizeAt :=
      List.map_congr_left fun addr mem => sizeAt_grown_of_mem sound (old addr mem)
    have total : (heap.grown size).total = heap.total + size := rfl
    rw [total, sound.total, order, List.map_append, same, List.sum_append, List.map_singleton, last,
      List.sum_singleton, Int.natCast_add]
  case addresses =>
    have next : (heap.grown size).next = heap.next + distance size := rfl
    have addresses := sound.addresses
    rw [next, Nat.add_mul]
    omega
  case sums =>
    have total : (heap.grown size).total = heap.total + size := rfl
    have sums := sound.sums
    rw [total, Int.natCast_add, Int.add_mul]
    omega

/-- The heap without a block. -/
def shrunk (heap : Heap) (addr : Nat) : Heap :=
  { heap with
    sizes := heap.sizes.erase addr
    freed := heap.freed.insert addr
    total := heap.total - heap.sizeAt addr
    order := heap.order.eraseIdxIfInBounds (heap.position fun start => decide (addr ≤ start)) }

theorem free_of_mem (mem : addr ∈ heap.sizes) :
    heap.free addr = .ok (heap.shrunk addr) := by
  rw [free, at?_of_mem mem]
  rfl

theorem free_of_not_mem (absent : addr ∉ heap.sizes) :
    heap.free addr = .error
      (if addr ∈ heap.freed then .doubleFree addr else .unknownPointer addr) := by
  rw [free, at?_of_not_mem absent]
  by_cases gone : addr ∈ heap.freed
  · have found : heap.freed.contains addr = true := Std.HashSet.mem_iff_contains.mp gone
    simp only [found, gone, ↓reduceIte]
  · have missing : heap.freed.contains addr = false := by
      simpa using mt Std.HashSet.mem_iff_contains.mpr gone
    simp [missing, gone]

theorem sizeAt_shrunk {other : Nat} (differ : other ≠ addr) :
    (heap.shrunk addr).sizeAt other = heap.sizeAt other := by
  simp only [sizeAt, shrunk, Std.HashMap.getD_erase, beq_iff_eq, if_neg differ.symm]

theorem mem_sizes_shrunk {other : Nat} :
    other ∈ (heap.shrunk addr).sizes ↔ other ≠ addr ∧ other ∈ heap.sizes := by
  rw [shrunk, Std.HashMap.mem_erase, beq_eq_false_iff_ne, ne_comm]

/-- Bisection finds the address of a live block in the order, so that address leaves it. -/
theorem Orderly.order_shrunk (orderly : heap.Orderly)
    (mem : addr ∈ heap.sizes) :
    (heap.shrunk addr).order.toList = heap.order.toList.erase addr := by
  have listed : addr ∈ heap.order.toList := Array.mem_def.mp ((orderly.listed addr).mpr mem)
  have inside : heap.order.toList.idxOf addr < heap.order.toList.length :=
    List.idxOf_lt_length_iff.mpr listed
  have here : heap.order.toList[heap.order.toList.idxOf addr] = addr :=
    List.getElem_idxOf inside
  have early_iff : ∀ {index : Nat} (bound : index < heap.order.toList.length),
      index < (heap.position fun start => decide (addr ≤ start)) ↔
        heap.order.toList[index] < addr := by
    intro index bound
    rw [lt_position_iff orderly.ascending (fun _ _ less => by simp only [decide_eq_true_eq]; omega)
      bound]
    simp
  have place : (heap.position fun start => decide (addr ≤ start)) =
      heap.order.toList.idxOf addr := by
    apply Nat.le_antisymm
    · have late := mt (early_iff inside).mp (by rw [here]; exact Nat.lt_irrefl _)
      exact Nat.not_lt.mp late
    · by_contra early
      have short := Nat.lt_trans (Nat.not_le.mp early) inside
      have less := List.pairwise_iff_getElem.mp orderly.ascending _ _ short inside
        (Nat.not_le.mp early)
      rw [here] at less
      exact Nat.lt_irrefl _ ((early_iff short).mpr less)
  have erased : (heap.shrunk addr).order.toList =
      heap.order.toList.eraseIdx (heap.position fun start => decide (addr ≤ start)) :=
    Array.toList_eraseIdxIfInBounds
  rw [erased, place, List.erase_eq_eraseIdx_of_idxOf rfl]

/-- Freeing a block keeps the order. -/
theorem Orderly.shrunk (orderly : heap.Orderly) (mem : addr ∈ heap.sizes) :
    (heap.shrunk addr).Orderly where
  ascending := by
    rw [orderly.order_shrunk mem]
    exact orderly.ascending.erase addr
  listed other := by
    have distinct : heap.order.toList.Nodup := orderly.ascending.imp Nat.ne_of_lt
    rw [Array.mem_def, orderly.order_shrunk mem, distinct.mem_erase_iff, mem_sizes_shrunk,
      ← orderly.listed, Array.mem_def]
  below other there := orderly.below other (mem_sizes_shrunk.mp there).2

/-- A block at the next address keeps the order when the next address rises. -/
theorem Orderly.placed (orderly : heap.Orderly) {size : Int}
    (rises : heap.next < (heap.placed size).next) : (heap.placed size).Orderly where
  ascending := by
    have order : (heap.placed size).order.toList = heap.order.toList ++ [heap.next] := by
      simp [Heap.placed]
    rw [order, List.pairwise_append]
    refine ⟨orderly.ascending, List.pairwise_singleton _ _, fun addr mem other single => ?_⟩
    rw [List.mem_singleton.mp single]
    exact orderly.below addr ((orderly.listed addr).mp (Array.mem_def.mpr mem))
  listed addr := by
    have known := orderly.listed addr
    simp only [Heap.placed, Array.mem_push, Std.HashMap.mem_insert, beq_iff_eq, known]
    rw [or_comm, eq_comm]
  below addr mem := by
    have known : heap.next = addr ∨ addr ∈ heap.sizes := by
      simpa [Heap.placed, Std.HashMap.mem_insert] using mem
    rcases known with rfl | there
    · exact rises
    · exact Nat.lt_trans (orderly.below addr there) rises

/-- Freeing a block keeps the heap sound. -/
theorem Sound.shrunk (sound : heap.Sound count) (mem : addr ∈ heap.sizes) :
    (heap.shrunk addr).Sound count := by
  have orderly := sound.orderly.shrunk mem
  have order := sound.orderly.order_shrunk mem
  have distinct : heap.order.toList.Nodup := sound.ascending.imp Nat.ne_of_lt
  have listed : addr ∈ heap.order.toList := Array.mem_def.mp ((sound.listed addr).mpr mem)
  have sum : (heap.order.toList.map heap.sizeAt).sum = heap.sizeAt addr +
      ((heap.order.toList.erase addr).map heap.sizeAt).sum := by
    have moved := (List.perm_cons_erase listed).map heap.sizeAt
    rw [moved.sum_nat, List.map_cons, List.sum_cons]
  have total : (heap.shrunk addr).total =
      (((heap.order.toList.erase addr).map heap.sizeAt).sum : Nat) := by
    have unfolded : (heap.shrunk addr).total = heap.total - heap.sizeAt addr := rfl
    rw [unfolded, sound.total, sum]
    omega
  constructor
  case ascending => exact orderly.ascending
  case listed => exact orderly.listed
  case placed => exact fun other there => sound.placed other (mem_sizes_shrunk.mp there).2
  case apart =>
    intro lower upper first second less
    obtain ⟨differ, first⟩ := mem_sizes_shrunk.mp first
    rw [sizeAt_shrunk differ]
    exact sound.apart lower upper first (mem_sizes_shrunk.mp second).2 less
  case below =>
    intro other there
    obtain ⟨differ, there⟩ := mem_sizes_shrunk.mp there
    rw [sizeAt_shrunk differ]
    exact sound.below other there
  case next => exact sound.next
  case total =>
    have same : (heap.order.toList.erase addr).map (heap.shrunk addr).sizeAt =
        (heap.order.toList.erase addr).map heap.sizeAt := by
      refine List.map_congr_left fun other there => ?_
      exact sizeAt_shrunk (distinct.mem_erase_iff.mp there).1
    rw [total, order, same]
  case addresses => exact sound.addresses
  case sums =>
    have sums := sound.sums
    rw [sound.total, sum] at sums
    rw [total]
    omega

/-- Bisection finds the highest block that does not start above an address. -/
theorem Sound.block?_eq (sound : heap.Sound count) (addr : Nat) :
    (heap.block? addr = none ∧ ∀ start ∈ heap.sizes, addr < start) ∨
      ∃ start ∈ heap.sizes, heap.block? addr = some ⟨start, heap.sizeAt start⟩ ∧
        start ≤ addr ∧ ∀ other ∈ heap.sizes, other ≤ addr → other ≤ start := by
  have early_iff : ∀ {index : Nat} (bound : index < heap.order.toList.length),
      index < (heap.position fun start => decide (addr < start)) ↔
        heap.order.toList[index] ≤ addr := by
    intro index bound
    rw [lt_position_iff sound.ascending (fun _ _ less => by simp only [decide_eq_true_eq]; omega)
      bound]
    simp
  have index_of : ∀ start ∈ heap.sizes, ∃ index, ∃ bound : index < heap.order.toList.length,
      heap.order.toList[index] = start := fun start mem =>
    List.getElem_of_mem (Array.mem_def.mp ((sound.listed start).mpr mem))
  have bound := heap.position_le fun start => decide (addr < start)
  cases found : heap.position fun start => decide (addr < start) with
  | zero =>
    refine .inl ⟨by rw [block?, found], ?_⟩
    intro start mem
    obtain ⟨index, inside, rfl⟩ := index_of start mem
    have late := mt (early_iff inside).mpr (by rw [found]; exact Nat.not_lt_zero _)
    exact Nat.not_le.mp late
  | succ before =>
    rw [found] at bound
    have last : before < heap.order.toList.length := bound
    have mem : heap.order.toList[before] ∈ heap.sizes :=
      (sound.listed _).mp (Array.mem_def.mpr (List.getElem_mem last))
    refine .inr ⟨heap.order.toList[before], mem, ?_, ?_, ?_⟩
    · have here : heap.order[before]? = some heap.order.toList[before] :=
        Array.getElem?_eq_getElem last
      rw [block?, found]
      simp only [here, Option.bind_some, at?_of_mem mem]
    · exact (early_iff last).mp (by omega)
    · intro other there low
      obtain ⟨index, inside, rfl⟩ := index_of other there
      have early := (early_iff inside).mpr low
      rcases Nat.lt_or_ge index before with earlier | equal
      · exact Nat.le_of_lt
          (List.pairwise_iff_getElem.mp sound.ascending index before inside last earlier)
      · have same : index = before := by omega
        simp only [same, Nat.le_refl]

/-- A range is found exactly when it lies in one live block. -/
theorem Sound.holds_iff (sound : heap.Sound count) {amount : Int} :
    heap.holds addr amount = true ↔ 0 ≤ amount ∧ ∃ block ∈ heap.live,
      block.address ≤ addr ∧ addr - block.address + amount.toNat ≤ block.size := by
  rcases sound.block?_eq addr with ⟨none, above⟩ | ⟨start, mem, found, low, highest⟩
  · simp only [holds, none, Bool.and_false, Bool.false_eq_true, false_iff]
    rintro ⟨-, block, there, low, -⟩
    have higher := above block.address (sound.mem_live.mp there).1
    omega
  · simp only [holds, found, within, Bool.and_eq_true, decide_eq_true_eq]
    refine and_congr_right fun _ => ?_
    constructor
    · intro inside
      exact ⟨⟨start, heap.sizeAt start⟩, sound.mem_live.mpr ⟨mem, rfl⟩, inside⟩
    · rintro ⟨block, there, below, inside⟩
      obtain ⟨live, size⟩ := sound.mem_live.mp there
      have reached := highest block.address live below
      rcases Nat.eq_or_lt_of_le reached with same | less
      · rw [← same, size]
        exact ⟨below, inside⟩
      · have gap := sound.apart block.address start live mem less
        omega

end TinLang.Heap
