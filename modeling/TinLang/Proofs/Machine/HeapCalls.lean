import TinLang.Proofs.Machine.HeapTable

/-!
# The heap over whole runs

A heap that some sequence of calls led to knows what was handed out and what was given back. From
this and from the agreement of its parts follows how it answers the next call: a request by the
limit alone, a free by whether the block is live, was freed before or was never handed out.
-/
namespace TinLang.Heap

variable {heap : Heap} {count : Nat}

/-- A call of the heap. -/
inductive Call where
  | allocate (size : Int)
  | free (addr : Nat)
  deriving DecidableEq, Repr

/-- What a call answers. -/
inductive Answer where
  /-- The block at an address was handed out. -/
  | handed (addr : Nat)
  /-- The block at an address was given back. -/
  | given (addr : Nat)
  | refused (error : HeapError)
  deriving DecidableEq, Repr

/-- The addresses handed out, in order. -/
def handedOut (answers : List Answer) : List Nat :=
  answers.filterMap fun
    | .handed addr => some addr
    | _ => none

/-- The addresses given back, in order. -/
def givenBack (answers : List Answer) : List Nat :=
  answers.filterMap fun
    | .given addr => some addr
    | _ => none

/-- The heap after a call, and the answer. -/
def perform (heap : Heap) : Call → Heap × Answer
  | .allocate size =>
    match heap.allocate size with
    | (after, .ok addr) => (after, .handed addr)
    | (after, .error error) => (after, .refused error)
  | .free addr =>
    match heap.free addr with
    | .ok after => (after, .given addr)
    | .error error => (heap, .refused error)

/-- The heap after some calls, and their answers. -/
def performAll (heap : Heap) : List Call → Heap × List Answer
  | [] => (heap, [])
  | call :: calls =>
    let (after, answer) := heap.perform call
    let (last, answers) := after.performAll calls
    (last, answer :: answers)

/-- No request of some calls asks for more than the largest size. -/
def Small (calls : List Call) : Prop := ∀ size : Int, .allocate size ∈ calls → size ≤ largestRequest

/-- What a call can do to a sound heap: hand out the next block, give a block back, or nothing. -/
theorem Sound.perform_cases (sound : heap.Sound count) (few : count < mostRequests) (call : Call)
    (small : Small [call]) :
    (∃ size : Nat, size ≤ largestRequest ∧ heap.total + size ≤ heap.effectiveLimit ∧
        heap.perform call = (heap.grown size, .handed heap.next)) ∨
      (∃ addr ∈ heap.sizes, heap.perform call = (heap.shrunk addr, .given addr)) ∨
      ∃ error, heap.perform call = (heap, .refused error) := by
  cases call with
  | allocate size =>
    have bound := small size List.mem_cons_self
    have result := sound.allocate_eq few bound
    by_cases positive : size ≤ 0
    · rw [if_pos positive] at result
      exact .inr (.inr ⟨_, by rw [perform, result]⟩)
    by_cases full : heap.effectiveLimit < heap.total + size
    · rw [if_neg positive, if_pos full] at result
      exact .inr (.inr ⟨_, by rw [perform, result]⟩)
    · rw [if_neg positive, if_neg full] at result
      exact .inl ⟨size.toNat, by omega, by omega, by rw [perform, result]⟩
  | free addr =>
    by_cases live : addr ∈ heap.sizes
    · exact .inr (.inl ⟨addr, live, by rw [perform, free_of_mem live]⟩)
    · exact .inr (.inr ⟨_, by rw [perform, free_of_not_mem live]⟩)

/-- What a heap knows of the calls that led to it. -/
structure Recalls (heap : Heap) (answers : List Answer) : Prop where
  /-- No address was handed out twice. -/
  fresh : (handedOut answers).Nodup
  /-- The next address was not handed out. -/
  under : ∀ addr ∈ handedOut answers, addr < heap.next
  /-- The live blocks are those handed out and not given back. -/
  live : ∀ addr, addr ∈ heap.sizes ↔
    addr ∈ handedOut answers ∧ addr ∉ givenBack answers
  /-- The freed blocks are those given back. -/
  freed : ∀ addr, addr ∈ heap.freed ↔ addr ∈ givenBack answers
  /-- What was given back was handed out before. -/
  known : ∀ addr ∈ givenBack answers, addr ∈ handedOut answers

variable {answers : List Answer}

theorem recalls_empty (limit : Int) : Recalls { limit } [] where
  fresh := List.nodup_nil
  under addr mem := by simp [handedOut] at mem
  live addr := by simp [handedOut]
  freed addr := by simp [givenBack]
  known addr mem := by simp [givenBack] at mem

theorem Recalls.grown (recalls : heap.Recalls answers) (size : Nat) :
    (heap.grown size).Recalls (answers ++ [.handed heap.next]) := by
  have handed : handedOut (answers ++ [.handed heap.next]) = handedOut answers ++ [heap.next] := by
    simp [handedOut]
  have given : givenBack (answers ++ [.handed heap.next]) = givenBack answers := by
    simp [givenBack]
  have unused : heap.next ∉ handedOut answers := fun mem =>
    Nat.lt_irrefl _ (recalls.under _ mem)
  constructor
  case fresh =>
    rw [handed]
    exact List.nodup_append.mpr ⟨recalls.fresh, List.pairwise_singleton _ _, fun addr mem other
      single same => unused (List.mem_singleton.mp single ▸ same ▸ mem)⟩
  case under =>
    intro addr mem
    have moved : heap.next < (heap.grown size).next := by
      have next : (heap.grown size).next = heap.next + distance size := rfl
      rw [next, distance]
      omega
    rw [handed] at mem
    rcases List.mem_append.mp mem with old | new
    · exact Nat.lt_trans (recalls.under addr old) moved
    · rw [List.mem_singleton.mp new]
      exact moved
  case live =>
    intro addr
    rw [mem_sizes_grown, handed, given, List.mem_append, List.mem_singleton, recalls.live]
    constructor
    · rintro (rfl | ⟨old, kept⟩)
      · exact ⟨.inr rfl, mt (recalls.known _) unused⟩
      · exact ⟨.inl old, kept⟩
    · rintro ⟨old | rfl, kept⟩
      · exact .inr ⟨old, kept⟩
      · exact .inl rfl
  case freed =>
    intro addr
    rw [given]
    exact recalls.freed addr
  case known =>
    intro addr mem
    rw [given] at mem
    rw [handed]
    exact List.mem_append_left _ (recalls.known addr mem)

theorem Recalls.shrunk (recalls : heap.Recalls answers) {addr : Nat}
    (mem : addr ∈ heap.sizes) :
    (heap.shrunk addr).Recalls (answers ++ [.given addr]) := by
  have handed : handedOut (answers ++ [.given addr]) = handedOut answers := by
    simp [handedOut]
  have given : givenBack (answers ++ [.given addr]) = givenBack answers ++ [addr] := by
    simp [givenBack]
  constructor
  case fresh =>
    rw [handed]
    exact recalls.fresh
  case under =>
    rw [handed]
    exact recalls.under
  case live =>
    intro other
    rw [mem_sizes_shrunk, handed, given, List.mem_append, List.mem_singleton, recalls.live, not_or]
    exact ⟨fun ⟨differ, old, kept⟩ => ⟨old, kept, differ⟩,
      fun ⟨old, kept, differ⟩ => ⟨differ, old, kept⟩⟩
  case freed =>
    intro other
    have inserted : other ∈ (heap.shrunk addr).freed ↔ addr = other ∨ other ∈ heap.freed := by
      rw [Heap.shrunk, Std.HashSet.mem_insert, beq_iff_eq]
    rw [inserted, given, List.mem_append, List.mem_singleton, recalls.freed, eq_comm, or_comm]
  case known =>
    intro other there
    rw [given] at there
    rw [handed]
    rcases List.mem_append.mp there with old | new
    · exact recalls.known other old
    · rw [List.mem_singleton.mp new]
      exact ((recalls.live addr).mp mem).1

theorem Recalls.refused (recalls : heap.Recalls answers) (error : HeapError) :
    heap.Recalls (answers ++ [.refused error]) := by
  have handed : handedOut (answers ++ [.refused error]) = handedOut answers := by simp [handedOut]
  have given : givenBack (answers ++ [.refused error]) = givenBack answers := by simp [givenBack]
  constructor
  · rw [handed]
    exact recalls.fresh
  · rw [handed]
    exact recalls.under
  · rw [handed, given]
    exact recalls.live
  · rw [given]
    exact recalls.freed
  · rw [handed, given]
    exact recalls.known

/-- A sound heap with its limit and its history. -/
structure Kept (limit : Int) (heap : Heap) (answers : List Answer) (count : Nat) : Prop where
  sound : heap.Sound count
  recalls : heap.Recalls answers
  limit : heap.limit = limit
  /-- The total does not exceed the limit. -/
  limited : heap.total ≤ heap.effectiveLimit

variable {limit : Int}

theorem kept_empty (allowed : 0 ≤ limit) : Kept limit { limit } [] 0 where
  sound := sound_empty limit
  recalls := recalls_empty limit
  limit := rfl
  limited := by
    show (0 : Int) ≤ if limit = 0 then defaultLimit else limit
    split
    · decide
    · exact allowed

/-- One call keeps the heap. -/
theorem Kept.perform (kept : Kept limit heap answers count) (few : count < mostRequests)
    (call : Call) (small : Small [call]) :
    Kept limit (heap.perform call).1 (answers ++ [(heap.perform call).2]) (count + 1) := by
  rcases kept.sound.perform_cases few call small with
    ⟨size, bound, room, result⟩ | ⟨addr, mem, result⟩ | ⟨error, result⟩
  · rw [result]
    exact ⟨kept.sound.grown bound, kept.recalls.grown size, kept.limit, room⟩
  · rw [result]
    refine ⟨(kept.sound.shrunk mem).mono (Nat.le_succ _), kept.recalls.shrunk mem, kept.limit, ?_⟩
    have less : (heap.shrunk addr).total = heap.total - heap.sizeAt addr := rfl
    have limited := kept.limited
    have same : (heap.shrunk addr).effectiveLimit = heap.effectiveLimit := rfl
    rw [less, same]
    omega
  · rw [result]
    exact ⟨kept.sound.mono (Nat.le_succ _), kept.recalls.refused error, kept.limit, kept.limited⟩

/-- A sequence of calls keeps the heap. -/
theorem Kept.performAll (kept : Kept limit heap answers count) {calls : List Call}
    (few : count + calls.length ≤ mostRequests) (small : Small calls) :
    Kept limit (heap.performAll calls).1 (answers ++ (heap.performAll calls).2)
      (count + calls.length) := by
  induction calls generalizing heap answers count with
  | nil => simpa [Heap.performAll] using kept
  | cons call calls ih =>
    rw [List.length_cons] at few
    have first := kept.perform (by omega) call fun size mem =>
      small size (List.mem_cons.mpr (.inl (List.mem_singleton.mp mem)))
    have rest := ih first (by omega) fun size mem => small size (List.mem_cons_of_mem _ mem)
    have total : count + 1 + calls.length = count + (call :: calls).length := by
      rw [List.length_cons]
      omega
    rw [total, List.append_assoc, List.singleton_append] at rest
    exact rest

/-- The table of a heap with a limit after some answers. -/
structure Exact (limit : Int) (heap : Heap) (answers : List Answer) : Prop where
  /-- The addresses in order are those of the live blocks. -/
  listed : ∀ addr, addr ∈ heap.order ↔ addr ∈ heap.sizes
  /-- They ascend. -/
  ascending : heap.order.toList.Pairwise (· < ·)
  /-- The live blocks are those handed out and not given back. -/
  live_iff : ∀ addr, addr ∈ heap.sizes ↔
    addr ∈ handedOut answers ∧ addr ∉ givenBack answers
  /-- Blocks are aligned and start at the base or above. -/
  placed : ∀ block ∈ heap.live, base ≤ block.address ∧ 16 ∣ block.address
  /-- At least sixteen bytes stand between a block and the blocks above it. -/
  apart : heap.live.Pairwise fun lower upper => lower.address + lower.size + 16 ≤ upper.address
  /-- The sixteen bytes after a block are not addressable. -/
  guarded : ∀ block ∈ heap.live, ∀ place, block.address + block.size ≤ place →
    place < block.address + block.size + 16 → heap.holds place 1 = false
  /-- The total is the sum of the sizes of the live blocks. -/
  total : heap.total = ((heap.live.map HeapBlock.size).sum : Nat)
  /-- It does not exceed the limit, zero standing for the default. -/
  limited : heap.total ≤ if limit = 0 then defaultLimit else limit
  /-- No address was handed out twice. -/
  fresh : (handedOut answers).Nodup
  /-- A range is found exactly when it lies in one live block. -/
  holds_iff : ∀ addr amount, heap.holds addr amount = true ↔
    0 ≤ amount ∧ ∃ block ∈ heap.live,
      block.address ≤ addr ∧ addr + amount.toNat ≤ block.address + block.size

/-- How a heap with a limit answers a call after some answers. -/
structure Lawful (limit : Int) (heap : Heap) (answers : List Answer) (call : Call) : Prop where
  /-- A request is granted exactly when its size is positive and the limit leaves room for it. -/
  allocates : ∀ size, call = .allocate size → ((∃ addr, (heap.allocate size).2 = .ok addr) ↔
    0 < size ∧ heap.total + size ≤ if limit = 0 then defaultLimit else limit)
  /-- A block is freed exactly when it is live. -/
  frees : ∀ addr, call = .free addr →
    ((∃ after, heap.free addr = .ok after) ↔ addr ∈ heap.sizes)
  /-- It is freed twice exactly when it was handed out and given back. -/
  doubles : ∀ addr, call = .free addr →
    (heap.free addr = .error (.doubleFree addr) ↔
      addr ∈ handedOut answers ∧ addr ∈ givenBack answers)
  /-- It is unknown exactly when it was never handed out. -/
  unknowns : ∀ addr, call = .free addr →
    (heap.free addr = .error (.unknownPointer addr) ↔ addr ∉ handedOut answers)
  /-- A refused call changes nothing. -/
  refuses : ∀ error, (heap.perform call).2 = .refused error → (heap.perform call).1 = heap

theorem Kept.effectiveLimit_eq (kept : Kept limit heap answers count) :
    heap.effectiveLimit = if limit = 0 then defaultLimit else limit := by
  rw [effectiveLimit, kept.limit]

theorem Kept.exact (kept : Kept limit heap answers count) : Exact limit heap answers := by
  have sound := kept.sound
  have holds_iff : ∀ addr amount, heap.holds addr amount = true ↔
      0 ≤ amount ∧ ∃ block ∈ heap.live,
        block.address ≤ addr ∧ addr + amount.toNat ≤ block.address + block.size := by
    intro addr amount
    rw [sound.holds_iff]
    refine and_congr_right fun _ => exists_congr fun block => and_congr_right fun _ =>
      and_congr_right fun low => ?_
    omega
  constructor
  case listed => exact sound.listed
  case ascending => exact sound.ascending
  case live_iff => exact kept.recalls.live
  case placed => exact fun block mem => sound.placed block.address (sound.mem_live.mp mem).1
  case apart => exact sound.live_apart
  case guarded =>
    intro block mem place low high
    rw [Bool.eq_false_iff, Ne, holds_iff]
    rintro ⟨-, other, there, below, above⟩
    rw [Int.toNat_one] at above
    obtain ⟨live, size⟩ := sound.mem_live.mp mem
    obtain ⟨live', size'⟩ := sound.mem_live.mp there
    rcases Nat.lt_trichotomy block.address other.address with less | same | greater
    · have gap := sound.apart _ _ live live' less
      omega
    · rw [← size, same, size'] at low
      omega
    · have gap := sound.apart _ _ live' live greater
      omega
  case total =>
    rw [sound.total, sound.live_eq, List.map_map]
    rfl
  case limited =>
    rw [← kept.effectiveLimit_eq]
    exact kept.limited
  case fresh => exact kept.recalls.fresh
  case holds_iff => exact holds_iff

theorem Kept.lawful (kept : Kept limit heap answers count) (few : count < mostRequests)
    (call : Call) (small : Small [call]) : Lawful limit heap answers call := by
  have sound := kept.sound
  have recalls := kept.recalls
  have missing : ∀ {addr : Nat}, addr ∉ heap.sizes → heap.free addr = .error
      (if addr ∈ heap.freed then .doubleFree addr else .unknownPointer addr) :=
    free_of_not_mem
  constructor
  case allocates =>
    rintro size rfl
    rw [sound.allocate_eq few (small size List.mem_cons_self), ← kept.effectiveLimit_eq]
    by_cases positive : size ≤ 0
    · simp only [if_pos positive, reduceCtorEq, exists_false, false_iff, not_and]
      omega
    by_cases full : heap.effectiveLimit < heap.total + size
    · simp only [if_neg positive, if_pos full, reduceCtorEq, exists_false, false_iff, not_and]
      omega
    · simp only [if_neg positive, if_neg full, Except.ok.injEq, exists_eq', true_iff]
      omega
  case frees =>
    rintro addr -
    by_cases live : addr ∈ heap.sizes
    · simp [free_of_mem live, live]
    · simp [missing live, live]
  case doubles =>
    rintro addr -
    rw [← recalls.freed]
    by_cases live : addr ∈ heap.sizes
    · have kept := ((recalls.live addr).mp live).2
      simp [free_of_mem live, recalls.freed, kept]
    · have known : addr ∈ heap.freed → addr ∈ handedOut answers := fun gone =>
        recalls.known addr ((recalls.freed addr).mp gone)
      by_cases gone : addr ∈ heap.freed
      · simp [missing live, gone, known gone]
      · simp [missing live, gone]
  case unknowns =>
    rintro addr -
    by_cases live : addr ∈ heap.sizes
    · have handed := ((recalls.live addr).mp live).1
      simp [free_of_mem live, handed]
    · have split : addr ∈ handedOut answers ↔ addr ∈ heap.freed := by
        rw [recalls.freed]
        refine ⟨fun handed => ?_, recalls.known addr⟩
        by_contra kept
        exact live ((recalls.live addr).mpr ⟨handed, kept⟩)
      by_cases gone : addr ∈ heap.freed
      · simp [missing live, gone, split]
      · simp [missing live, gone, split]
  case refuses =>
    intro error refused
    rcases sound.perform_cases few call small with
      ⟨size, bound, room, result⟩ | ⟨addr, mem, result⟩ | ⟨error, result⟩
    · rw [result] at refused
      contradiction
    · rw [result] at refused
      contradiction
    · rw [result]

/-- Every sequence of calls leaves an exact table, and every call of it is answered lawfully. -/
theorem exact_performAll {limit : Int} (allowed : 0 ≤ limit) {calls : List Call}
    (few : calls.length ≤ mostRequests) (small : Small calls) :
    Exact limit (performAll { limit } calls).1 (performAll { limit } calls).2 ∧
      ∀ earlier call later, calls = earlier ++ call :: later →
        Lawful limit (performAll { limit } earlier).1 (performAll { limit } earlier).2 call := by
  have kept : ∀ {calls : List Call}, calls.length ≤ mostRequests → Small calls →
      Kept limit (performAll { limit } calls).1 (performAll { limit } calls).2 calls.length := by
    intro calls few small
    have run := (kept_empty allowed).performAll (Nat.le_trans (Nat.le_of_eq (Nat.zero_add _)) few)
      small
    rwa [List.nil_append, Nat.zero_add] at run
  refine ⟨(kept few small).exact, ?_⟩
  rintro earlier call later rfl
  rw [List.length_append, List.length_cons] at few
  refine (kept (by omega) fun size mem => small size (List.mem_append_left _ mem)).lawful
    (by omega) call fun size mem => small size ?_
  rw [List.mem_singleton.mp mem]
  exact List.mem_append_right _ List.mem_cons_self

/-- Two blocks, a double free, an unknown pointer and a request past the limit. -/
theorem exact_performAll_requests :
    let calls : List Call := [.allocate 10, .allocate 54, .free base, .free base, .free 12345,
      .allocate 0, .allocate 65, .allocate 10]
    (0 : Int) ≤ 64 ∧ calls.length ≤ mostRequests ∧ Small calls ∧
      Exact 64 (performAll { limit := 64 } calls).1 (performAll { limit := 64 } calls).2 ∧
      ∀ earlier call later, calls = earlier ++ call :: later → Lawful 64
        (performAll { limit := 64 } earlier).1 (performAll { limit := 64 } earlier).2 call := by
  intro calls
  have allowed : (0 : Int) ≤ 64 := by decide
  have few : calls.length ≤ mostRequests := by decide
  have small : Small calls := by
    intro size mem
    have cases : size = 10 ∨ size = 54 ∨ size = 0 ∨ size = 65 ∨ size = 10 := by
      simpa [calls] using mem
    rcases cases with rfl | rfl | rfl | rfl | rfl <;> decide
  exact ⟨allowed, few, small, exact_performAll allowed few small⟩

/-!
## The limit

A request is added to the total in 64 bits before the sum is compared with the limit. Whatever
calls led to a table, its total is the sum of sizes that were handed out, so it is not negative.
As long as the exact sum stays below 2 ^ 63 the limit therefore holds as it does of integers; a
sum that reaches 2 ^ 63 wraps below zero and passes every limit.
-/

variable {heap : Heap} {size : Int}

/-- The total is what some blocks take up, the live ones among them. -/
def Weighed (heap : Heap) : Prop :=
  ∃ held : List HeapBlock, heap.total = ((held.map HeapBlock.size).sum : Nat) ∧
    ∀ addr block, heap.at? addr = some block → block ∈ held

theorem weighed_empty (limit : Int) : Weighed { limit } :=
  ⟨[], rfl, fun addr block found => by simp [at?] at found⟩

theorem Weighed.total_nonneg (weighed : heap.Weighed) : 0 ≤ heap.total := by
  obtain ⟨held, total, -⟩ := weighed
  rw [total]
  exact Int.natCast_nonneg _

/-- A request is refused and changes nothing, or it is granted at the next address. -/
theorem allocate_cases (heap : Heap) (size : Int) :
    (∃ error, heap.allocate size = (heap, .error error)) ∨
      0 < size ∧ heap.allocate size = (heap.placed size, .ok heap.next) := by
  by_cases positive : size ≤ 0
  · exact .inl ⟨_, by rw [allocate, if_pos positive]⟩
  by_cases full : heap.effectiveLimit < wrapSigned (heap.total + size)
  · exact .inl ⟨_, by rw [allocate, if_neg positive, if_pos full]⟩
  · exact .inr ⟨Int.not_le.mp positive, by rw [allocate, if_neg positive, if_neg full]⟩

/-- A block is found where it was placed, and all others where they were. -/
theorem at?_placed (heap : Heap) (size : Int) (addr : Nat) :
    (heap.placed size).at? addr =
      if heap.next = addr then some ⟨addr, size.toNat⟩ else heap.at? addr := by
  simp only [at?, placed, Std.HashMap.getElem?_insert, beq_iff_eq]
  split <;> rfl

/-- A block that takes the place of a live one leaves that one in the total. -/
theorem Weighed.placed (weighed : heap.Weighed) (positive : 0 < size) :
    (heap.placed size).Weighed := by
  obtain ⟨held, total, live⟩ := weighed
  refine ⟨⟨heap.next, size.toNat⟩ :: held, ?_, ?_⟩
  · have added : (heap.placed size).total = heap.total + size := rfl
    rw [added, total, List.map_cons, List.sum_cons, Int.natCast_add]
    dsimp only
    omega
  · intro addr block found
    rw [at?_placed] at found
    split at found
    · next same =>
      obtain rfl := Option.some.inj found
      rw [same]
      exact List.mem_cons_self
    · exact List.mem_cons_of_mem _ (live addr block found)

/-- Only the block that is freed leaves the total. -/
theorem Weighed.shrunk (weighed : heap.Weighed) {addr : Nat} (mem : addr ∈ heap.sizes) :
    (heap.shrunk addr).Weighed := by
  obtain ⟨held, total, live⟩ := weighed
  have there := live addr _ (at?_of_mem mem)
  refine ⟨held.erase ⟨addr, heap.sizeAt addr⟩, ?_, ?_⟩
  · have moved := (List.perm_cons_erase there).map HeapBlock.size
    have less : (heap.shrunk addr).total = heap.total - heap.sizeAt addr := rfl
    rw [less, total, moved.sum_nat, List.map_cons, List.sum_cons, Int.natCast_add]
    dsimp only
    omega
  · intro other block found
    have inside : other ∈ (heap.shrunk addr).sizes := by
      by_contra absent
      rw [at?_of_not_mem absent] at found
      contradiction
    obtain ⟨differ, kept⟩ := mem_sizes_shrunk.mp inside
    rw [at?_of_mem inside, sizeAt_shrunk differ] at found
    obtain rfl := Option.some.inj found
    refine (List.mem_erase_of_ne ?_).mpr (live other _ (at?_of_mem kept))
    exact fun same => differ (congrArg HeapBlock.address same)

theorem Weighed.perform (weighed : heap.Weighed) (call : Call) : (heap.perform call).1.Weighed := by
  cases call with
  | allocate size =>
    rcases heap.allocate_cases size with ⟨error, result⟩ | ⟨positive, result⟩
    · rw [Heap.perform, result]
      exact weighed
    · rw [Heap.perform, result]
      exact weighed.placed positive
  | free addr =>
    by_cases live : addr ∈ heap.sizes
    · rw [Heap.perform, free_of_mem live]
      exact weighed.shrunk live
    · rw [Heap.perform, free_of_not_mem live]
      exact weighed

/-- Any sequence of calls leaves a table whose total is a sum of sizes. -/
theorem Weighed.performAll (weighed : heap.Weighed) (calls : List Call) :
    (heap.performAll calls).1.Weighed := by
  induction calls generalizing heap with
  | nil => exact weighed
  | cons call calls ih => exact ih (weighed.perform call)

/-- How a table answers a request of a size on a host that provides blocks of up to some size: it
is granted exactly when the size is positive, the limit leaves room for it as integers and there is
such a block, and a request that the limit leaves no room for is refused and changes nothing. -/
structure Limited (host : Int) (heap : Heap) (size : Int) : Prop where
  granted_iff : heap.request host size = some (heap.placed size, .ok heap.next) ↔
    0 < size ∧ heap.total + size ≤ heap.effectiveLimit ∧ size ≤ host
  refused_iff : (∃ error, heap.request host size = some (heap, .error error)) ↔
    ¬ (0 < size ∧ heap.total + size ≤ heap.effectiveLimit)

/-- A request that the limit leaves no room for is refused. -/
theorem Limited.of_error {error : HeapError}
    (result : heap.request host size = some (heap, .error error))
    (none : ¬ (0 < size ∧ heap.total + size ≤ heap.effectiveLimit)) : Limited host heap size where
  granted_iff := by
    simp only [result, Option.some.injEq, Prod.mk.injEq, reduceCtorEq, and_false, false_iff]
    exact fun granted => none ⟨granted.1, granted.2.1⟩
  refused_iff := by
    simp only [result, Option.some.injEq, Prod.mk.injEq, true_and, Except.error.injEq,
      exists_eq', true_iff]
    exact none

/-- A sum that leaves the signed words passes every limit. -/
theorem allocate_of_wrapped (allowed : 0 ≤ heap.effectiveLimit) (total : heap.total < 2 ^ 63)
    (word : size < 2 ^ 63) (wraps : 2 ^ 63 ≤ heap.total + size) :
    heap.allocate size = (heap.placed size, .ok heap.next) := by
  have positive : ¬ size ≤ 0 := by omega
  have low : wrapSigned (heap.total + size) < 0 := by
    rw [wrapSigned, Int.bmod_def, if_neg (by omega)]
    omega
  have passes : ¬ heap.effectiveLimit < wrapSigned (heap.total + size) := by omega
  rw [allocate, if_neg positive, if_neg passes]

/-- Whatever calls led to a table, it answers a request by exact sums, as long as the sum is a
signed word. -/
theorem limited_performAll {limit host : Int} {calls : List Call} {size : Int}
    (fits : (performAll { limit } calls).1.total + size < 2 ^ 63) :
    Limited host (performAll { limit } calls).1 size := by
  have nonneg := ((weighed_empty limit).performAll calls).total_nonneg
  generalize (performAll { limit } calls).1 = heap at fits nonneg
  by_cases positive : size ≤ 0
  · have result : heap.request host size = some (heap, .error (.invalidSize size)) := by
      rw [request, allocate, if_pos positive]
    exact .of_error result (by omega)
  have sum : wrapSigned (heap.total + size) = heap.total + size :=
    wrapSigned_eq (by omega) fits
  by_cases full : heap.effectiveLimit < heap.total + size
  · have result : heap.request host size = some (heap, .error (.outOfMemory size heap.total)) := by
      rw [request, allocate, if_neg positive, sum, if_pos full]
    exact .of_error result (by omega)
  · have result : heap.request host size =
        if host < size then none else some (heap.placed size, .ok heap.next) := by
      rw [request, allocate, if_neg positive, sum, if_neg full]
    by_cases missing : host < size
    · rw [if_pos missing] at result
      constructor
      · simp only [result, reduceCtorEq, false_iff, not_and]
        omega
      · simp only [result, reduceCtorEq, exists_false, false_iff, Classical.not_not]
        omega
    · rw [if_neg missing] at result
      constructor
      · simp only [result, true_iff]
        omega
      · simp only [result, Option.some.injEq, Prod.mk.injEq, reduceCtorEq, and_false, exists_false,
          false_iff, Classical.not_not]
        omega

/-- A request that fills the limit to the last byte. -/
theorem limited_performAll_full :
    (performAll { limit := 150 } [.allocate 100, .allocate 40]).1.total + 10 < 2 ^ 63 ∧
      Limited (2 ^ 48) (performAll { limit := 150 } [.allocate 100, .allocate 40]).1 10 := by
  have fits : (performAll { limit := 150 } [.allocate 100, .allocate 40]).1.total + 10 <
    2 ^ 63 := by
    decide
  exact ⟨fits, limited_performAll fits⟩

/-- With 100 bytes live a request of the largest signed word passes the limit, and a host with
blocks of up to 2 ^ 48 bytes ends instead of refusing it. -/
theorem not_limited_wrapped : ¬ Limited (2 ^ 48) (performAll {} [.allocate 100]).1
    (2 ^ 63 - 1) := by
  intro limited
  obtain ⟨error, refused⟩ := limited.refused_iff.mpr (by decide)
  have passes : (performAll {} [.allocate 100]).1.request (2 ^ 48) (2 ^ 63 - 1) = none := by
    rw [request, allocate_of_wrapped]
    · rfl
    all_goals decide
  rw [passes] at refused
  contradiction

end TinLang.Heap
