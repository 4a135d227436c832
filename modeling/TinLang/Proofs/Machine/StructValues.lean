import TinLang.Proofs.Completed
import TinLang.Proofs.Generate.Emission
import TinLang.Proofs.Machine.Transfer

/-!
# Struct values

Pushing a value and popping it elsewhere adds the cells of transfers to a piece: the last push and
the first pop cancel, and nothing else does (`Piece.adds_copying`). So does taking a member out of a
struct on the stack. A machine that comes to these cells therefore copies every struct that a check
has completed, scalar by scalar, and leaves the words of any of its members
(`Machine.keeps_struct_values`), however structs are nested.
-/
namespace TinLang

namespace Piece

/-- A piece with some more cells. -/
structure Adds (piece later : Piece) (cells : List Cell) : Prop where
  code : later.code.toList = piece.code.toList ++ cells
  barrier : later.barrier = piece.barrier

variable {piece later : Piece} {cells : List Cell} {reg : Register}

namespace Adds

theorem refl (piece : Piece) : piece.Adds piece [] := ⟨(List.append_nil _).symm, rfl⟩

theorem trans {last : Piece} {more : List Cell} (first : piece.Adds later cells)
    (second : later.Adds last more) : piece.Adds last (cells ++ more) := by
  refine ⟨?_, second.barrier.trans first.barrier⟩
  rw [second.code, first.code, List.append_assoc]

theorem size_eq (adds : piece.Adds later cells) : later.size = piece.size + cells.length := by
  rw [size, size, ← Array.length_toList, ← Array.length_toList, adds.code, List.length_append]

theorem bounded (adds : piece.Adds later cells) (bounded : piece.barrier ≤ piece.size) :
    later.barrier ≤ later.size := by
  rw [adds.barrier, adds.size_eq]
  omega

theorem getElem? (adds : piece.Adds later cells) (place : Nat) :
    later.code[piece.size + place]? = cells[place]? := by
  have start : piece.size = piece.code.toList.length := rfl
  rw [← Array.getElem?_toList, adds.code, List.getElem?_append_right (by omega), start,
    Nat.add_sub_cancel_left]

end Adds

theorem adds_push (piece : Piece) (cell : Cell) : piece.Adds (piece.push cell) [cell] :=
  ⟨Array.toList_push, rfl⟩

theorem adds_emitImmediate (piece : Piece) (instr : Instruction) (value : BitVec 32) :
    piece.Adds (piece.emitImmediate instr value).1
      [.instruction instr, .immediate value] := by
  have two : ∀ moved : Piece, moved.Adds
      ((moved.push (.instruction instr)).push (.immediate value))
        [.instruction instr, .immediate value] :=
    fun moved => (moved.adds_push _).trans (adds_push _ _)
  unfold emitImmediate
  split
  · exact ⟨(two { piece with depth := piece.depth + value.toInt }).code, rfl⟩
  · exact two piece

theorem adds_emitPush (piece : Piece) (reg : Register) :
    piece.Adds (piece.emitPush reg) [.instruction ⟨.push, reg, .unused, 0⟩] :=
  ⟨Array.toList_push, rfl⟩

theorem adds_emitPop (kept : piece.cancels reg = false) :
    piece.Adds (piece.emitPop reg) [.instruction ⟨.pop, reg, .unused, 0⟩] := by
  have result : piece.emitPop reg = { piece with depth := piece.depth + 8 }.push
      (.instruction ⟨.pop, reg, .unused, 0⟩) := by
    simp [emitPop, emit, kept]
  rw [result]
  exact ⟨Array.toList_push, rfl⟩

/-- A pop right behind a push of the same register cancels it. -/
theorem adds_emitPop_emitPush (bounded : piece.barrier ≤ piece.size) (reg : Register) :
    piece.Adds ((piece.emitPush reg).emitPop reg) [] := by
  have pushed : (piece.emitPush reg).code =
      piece.code.push (.instruction ⟨.push, reg, .unused, 0⟩) := rfl
  have size : (piece.emitPush reg).size = piece.size + 1 := Array.size_push _
  have cancels : (piece.emitPush reg).cancels reg = true := by
    have more : (piece.emitPush reg).barrier < (piece.emitPush reg).size := by
      rw [size]
      exact Nat.lt_succ_of_le bounded
    rw [Piece.cancels, pushed, Array.back?_push]
    simpa using more
  have result : (piece.emitPush reg).emitPop reg =
      { piece.emitPush reg with depth := (piece.emitPush reg).depth + 8 }.truncate
        ((piece.emitPush reg).size - 1) := by
    simp [emitPop, emit, cancels]
  rw [result, size]
  refine ⟨?_, rfl⟩
  show ((piece.code.push _).take piece.size).toList = _
  simp [Piece.size]

/-- An immediate keeps a pop from cancelling. -/
theorem cancels_of_immediate {first : List Cell} {value : BitVec 32}
    (adds : piece.Adds later (first ++ [.immediate value])) (reg : Register) :
    later.cancels reg = false := by
  have last : later.code.back? = some (.immediate value) := by
    rw [← Array.getLast?_toList, adds.code, ← List.append_assoc, List.getLast?_concat]
  rw [cancels, last]
  exact Bool.and_false _

/-- The piece after the instructions that push a scalar. -/
def pushSlot (base : Register) (piece : Piece) (slot : Slot) : Piece :=
  (piece.emitImmediate ⟨.loadAt, .a, base, slot.size.toUInt8⟩ (.ofInt 32 slot.offset)).1.emitPush .a

/-- The piece after the instructions that pop a scalar. -/
def popSlot (base : Register) (piece : Piece) (slot : Slot) : Piece :=
  ((piece.emitPop .a).emitImmediate ⟨.storeAt, base, .a, slot.size.toUInt8⟩
    (.ofInt 32 slot.offset)).1

end Piece

/-- The last cell of transfers between two spots is an immediate. -/
theorem copying_ends (source target : Spot) (slot : Slot) (slots : List Slot) :
    ∃ first value, (copying source target (slot :: slots)).flatMap Transfer.cells =
      first ++ [.immediate value] := by
  have store : ∀ transfers : List Transfer, ∃ first value,
      (transfers ++ [Transfer.store (target.at slot)]).flatMap Transfer.cells =
        first ++ [Cell.immediate value] := by
    intro transfers
    rw [List.flatMap_append]
    refine ⟨transfers.flatMap Transfer.cells ++ [.instruction ⟨.storeAt, target.base, .a,
      slot.size.toUInt8⟩], .ofInt 32 (slot.offset + target.offset), ?_⟩
    rw [List.append_assoc]
    rfl
  cases slots with
  | nil => exact store [.load (source.at slot)]
  | cons next slots =>
    have shape : copying source target (slot :: next :: slots) =
        (.load (source.at slot) :: .push :: (copying source target (next :: slots) ++ [.pop])) ++
          [.store (target.at slot)] := by
      simp [copying]
    rw [shape]
    exact store _

/-- Pushing scalars from one spot and popping them to another adds the cells of transfers. -/
theorem Piece.adds_copying (source target : Spot) (slots : List Slot) (piece : Piece)
    (bounded : piece.barrier ≤ piece.size) :
    piece.Adds ((slots.map (Slot.shift target.offset)).reverse.foldl (popSlot target.base)
        ((slots.map (Slot.shift source.offset)).foldl (pushSlot source.base) piece))
      ((copying source target slots).flatMap Transfer.cells) := by
  induction slots generalizing piece with
  | nil => exact .refl piece
  | cons slot slots ih =>
    rw [List.map_cons, List.map_cons, List.reverse_cons, List.foldl_append, List.foldl_cons]
    have load := piece.adds_emitImmediate ⟨.loadAt, .a, source.base, slot.size.toUInt8⟩
      (.ofInt 32 (slot.offset + source.offset))
    have push := load.trans (adds_emitPush _ .a)
    have store : ∀ later : Piece, later.Adds
        (later.emitImmediate ⟨.storeAt, target.base, .a, slot.size.toUInt8⟩
          (.ofInt 32 (slot.offset + target.offset))).1 (Transfer.store (target.at slot)).cells :=
      fun later => later.adds_emitImmediate _ _
    cases slots with
    | nil => exact (load.trans (adds_emitPop_emitPush (load.bounded bounded) .a)).trans (store _)
    | cons next slots =>
      have moved := ih _ (push.bounded bounded)
      obtain ⟨first, value, ends⟩ := copying_ends source target next slots
      have pop := adds_emitPop (cancels_of_immediate (ends ▸ moved) .a)
      have all := (push.trans moved).trans (pop.trans (store _))
      have shape : (copying source target (slot :: next :: slots)).flatMap Transfer.cells =
          (Transfer.load (source.at slot)).cells ++ Transfer.push.cells ++
            (copying source target (next :: slots)).flatMap Transfer.cells ++
              (Transfer.pop.cells ++ (Transfer.store (target.at slot)).cells) := by
        simp [copying, List.flatMap_append]
      rw [shape]
      exact all

namespace Generate

variable {ctx : FunctionContext}

theorem pushSlots_done (base : Register) (slots : List Slot) (gen : Generator) :
    pushSlots base slots ctx gen =
      .done ((), { gen with piece := slots.foldl (Piece.pushSlot base) gen.piece }) := by
  induction slots generalizing gen with
  | nil => rfl
  | cons slot slots ih =>
    exact ih { gen with piece := Piece.pushSlot base gen.piece slot }

theorem popSlots_done (base : Register) (slots : List Slot) (gen : Generator) :
    popSlots base slots ctx gen =
      .done ((), { gen with piece := slots.foldl (Piece.popSlot base) gen.piece }) := by
  induction slots generalizing gen with
  | nil => rfl
  | cons slot slots ih =>
    exact ih { gen with piece := Piece.popSlot base gen.piece slot }

/-- Pushing a value from one spot and popping it to another adds the cells of transfers. -/
theorem move_done (source target : Spot) (type : ValueType) {gen : Generator}
    (bounded : gen.piece.barrier ≤ gen.piece.size) :
    ∃ later, (do
        pushFrom source.base source.offset (some type)
        popTo target.base target.offset (some type)) ctx gen = .done ((), later) ∧
      gen.piece.Adds later.piece ((copying source target
        ((ctx.environment.structs.shapeOf type).slots 0)).flatMap Transfer.cells) := by
  have slots : ∀ offset : Int, (ctx.environment.shapeOf (some type)).slots offset =
      ((ctx.environment.structs.shapeOf type).slots 0).map (Slot.shift offset) := by
    intro offset
    have shifted := Shape.slots_add (ctx.environment.structs.shapeOf type) 0 offset
    rwa [Int.zero_add] at shifted
  generalize (ctx.environment.structs.shapeOf type).slots 0 = scalars at slots
  refine ⟨{ gen with piece := _ }, ?_,
    Piece.adds_copying source target scalars gen.piece bounded⟩
  refine bind_done.mpr ⟨(), _, bind_done.mpr ⟨_, _, rfl, pushSlots_done _ _ _⟩,
    bind_done.mpr ⟨_, _, rfl, ?_⟩⟩
  rw [popSlots_done, slots, slots]

theorem copyLeaves_done (total first : Nat) (indices : List Nat) (gen : Generator) :
    ∃ later, copyLeaves total first indices ctx gen = .done ((), later) ∧
      gen.piece.Adds later.piece ((lifting total first indices).flatMap Transfer.cells) := by
  induction indices generalizing gen with
  | nil =>
    refine ⟨gen, rfl, ?_⟩
    have none : lifting total first [] = [] := by simp [lifting]
    rw [none]
    exact .refl _
  | cons index indices ih =>
    unfold copyLeaves
    by_cases start : first = 0
    · obtain ⟨later, done, adds⟩ := ih gen
      refine ⟨later, ?_, ?_⟩
      · rw [if_neg (not_not.mpr start)]
        exact done
      · simpa [lifting, start] using adds
    · let moved : Piece := ((gen.piece.emitImmediate ⟨.loadAt, .a, .stackPointer, 8⟩
        (.ofInt 32 (8 * (total - 1 - first - index) : Nat))).1.emitImmediate
          ⟨.storeAt, .stackPointer, .a, 8⟩ (.ofInt 32 (8 * (total - 1 - index) : Nat))).1
      have two : gen.piece.Adds moved _ :=
        (gen.piece.adds_emitImmediate _ _).trans (Piece.adds_emitImmediate _ _ _)
      obtain ⟨later, done, adds⟩ := ih { gen with piece := moved }
      refine ⟨later, ?_, ?_⟩
      · rw [if_pos start]
        exact done
      · have shape : (lifting total first (index :: indices)).flatMap Transfer.cells =
            (Transfer.load ⟨.stackPointer, ⟨(8 * (total - 1 - first - index) : Nat), 8⟩⟩).cells ++
              (Transfer.store ⟨.stackPointer, ⟨(8 * (total - 1 - index) : Nat), 8⟩⟩).cells ++
                (lifting total first indices).flatMap Transfer.cells := by
          simp [lifting, start]
        rw [shape]
        exact two.trans adds

/-- Taking out a member adds the cells of transfers. -/
theorem extractMember_done (struct : StructType) (mem : Member) (gen : Generator) :
    ∃ later, extractMember struct mem ctx gen = .done ((), later) ∧
      gen.piece.Adds later.piece ((extracting struct.shape.leaves
        (struct.leavesBefore mem.name) mem.shape.leaves).flatMap Transfer.cells) := by
  obtain ⟨between, done, adds⟩ := @copyLeaves_done ctx struct.shape.leaves
    (struct.leavesBefore mem.name) (List.range mem.shape.leaves) gen
  have rises : ∃ later, (if mem.shape.leaves < struct.shape.leaves then
      increase .stackPointer (wordSize * (struct.shape.leaves - mem.shape.leaves))
      else pure () : Generate Unit) ctx between = .done ((), later) ∧
      between.piece.Adds later.piece ((if mem.shape.leaves < struct.shape.leaves then
        [Transfer.raise (8 * (struct.shape.leaves - mem.shape.leaves))] else []).flatMap
          Transfer.cells) := by
    split
    · next more =>
      have number : (wordSize : Int) * (struct.shape.leaves - mem.shape.leaves) =
          (8 * (struct.shape.leaves - mem.shape.leaves) : Nat) := by
        show (8 : Int) * _ = _
        omega
      rw [number]
      exact ⟨_, rfl, between.piece.adds_emitImmediate _ _⟩
    · exact ⟨between, rfl, .refl _⟩
  obtain ⟨later, raised, more⟩ := rises
  refine ⟨later, bind_done.mpr ⟨_, _, done, raised⟩, ?_⟩
  rw [extracting, List.flatMap_append]
  exact adds.trans more

end Generate

namespace Memory

variable {memory : Memory} {addr size : Nat}

/-- A part of an addressable range is addressable. -/
theorem Laid.addressable_part {count : Nat} (laid : memory.Laid count)
    (inside : memory.addressable addr size = true) {place amount : Nat} (low : addr ≤ place)
    (high : place + amount ≤ addr + size) : memory.addressable place amount = true := by
  obtain ⟨-, region, mem, holds⟩ := (laid.addressable_iff addr size).mp inside
  refine (laid.addressable_iff place amount).mpr ⟨Int.natCast_nonneg _, region, mem, ?_⟩
  rw [Region.Holds, Int.toNat_natCast] at holds ⊢
  omega

/-- An addressable range ends below the addresses that overflow. -/
theorem Laid.addressable_below (laid : memory.Laid Heap.mostRequests)
    (inside : memory.addressable addr size = true) : addr + size < 2 ^ 64 := by
  obtain ⟨-, region, mem, holds⟩ := (laid.addressable_iff addr size).mp inside
  have stack := laid.stack
  have data := laid.data
  have ends : region.base + region.size < 2 ^ 64 := by
    rw [regions, List.mem_cons, List.mem_cons, List.mem_map] at mem
    unfold maxStackSize dataBase stackBase at stack
    unfold Heap.base dataBase at data
    rcases mem with rfl | rfl | ⟨block, live, rfl⟩
    · show stackBase + memory.stackSize < _
      unfold stackBase
      omega
    · show dataBase + memory.dataSize < _
      unfold dataBase
      omega
    · have below := laid.heap.below block.address (laid.heap.mem_live.mp live).1
      rw [(laid.heap.mem_live.mp live).2] at below
      have addresses := laid.heap.addresses
      unfold Heap.base Heap.mostRequests Heap.largestRequest at addresses
      show block.address + block.size < _
      omega
  rw [Region.Holds, Int.toNat_natCast] at holds
  omega

end Memory

namespace Machine

variable {prog : Program} {settings : Settings} {machine : Machine} {piece later : Piece}

/-- A machine that is about to execute the cells that were added to a piece. -/
structure Enters (prog : Program) (piece later : Piece) (machine : Machine) : Prop where
  running : machine.running = true
  counter : machine.counter = piece.size
  code : ∀ place, piece.size ≤ place → place < later.size →
    (machine.code prog)[place]? = later.code[place]?
  small : later.size < 2 ^ 31

/-- What transfers change of a machine. -/
def view (machine : Machine) : View :=
  ⟨machine.registers.get slotA, (machine.registers.get slotSP).toNat, machine.memory.byteAt⟩

/-- The words on top of the stack, the deepest first. -/
def stacked (machine : Machine) (count : Nat) : List Word :=
  (List.range count).map (machine.view.leaf count)

/-- What a register holds. -/
def held (machine : Machine) (reg : Register) : Word :=
  match reg.slot? with
  | some slot => machine.registers.get slot
  | none => 0

theorem Enters.stands (enters : machine.Enters prog piece later) (inside : piece.size < 2 ^ 31) :
    Stands prog (machine.code prog) machine.piece machine.memory machine.held piece.size
      machine.view machine where
  running := enters.running
  piece := rfl
  code := rfl
  counter := by
    apply BitVec.eq_of_toInt_eq
    have counter := enters.counter
    rw [Machine.counter] at counter
    rw [counter, BitVec.toInt_ofNat', Int.bmod_eq_of_le (by omega) (by omega)]
  a slot slots := by
    obtain rfl := Option.some.inj slots
    rfl
  pointer := by
    show _ = BitVec.ofNat 64 (machine.registers.get slotSP).toNat
    rw [BitVec.ofNat_toNat, BitVec.setWidth_eq]
  others reg slot slots _ _ _ := by rw [held, slots]
  layout := ⟨rfl, rfl, rfl⟩
  bytes := rfl

/-- A machine that enters the cells of transfers does what they do. -/
theorem Enters.reaches (settings : Settings) (enters : machine.Enters prog piece later)
    {transfers : List Transfer} (adds : piece.Adds later (transfers.flatMap Transfer.cells))
    {moved : View} (performs : Performs machine.memory machine.held transfers machine.view moved)
    (known : ∀ transfer ∈ transfers, Known transfer)
    (high : moved.pointer ≤ machine.memory.stackTop)
    (stack : machine.memory.stackSize ≤ Memory.maxStackSize) :
    ∃ after, Reaches prog settings machine after ∧ after.running = true ∧
      after.counter = later.size ∧ after.view.pointer = moved.pointer ∧
      after.memory.byteAt = moved.bytes := by
  have size := adds.size_eq
  have small := enters.small
  obtain ⟨after, reaches, ends⟩ := performs_reaches settings performs known
    (enters.stands (by omega)) (fun place inside => by
      rw [← adds.getElem?]
      exact enters.code _ (Nat.le_add_right _ _) (by omega)) (by omega) stack
  refine ⟨after, reaches, ends.running, ?_, ?_, ends.bytes⟩
  · rw [size]
    exact ends.counter_eq (by omega)
  · rw [view, ends.pointer]
    exact (toNat_pointer stack high).1

/-- A value of some bytes lies at an address that a register and a distance give, in one region and
apart from the words that are pushed next. -/
structure Locates (machine : Machine) (spot : Spot) (size leaves addr : Nat) : Prop where
  base : ∃ slot, spot.base.slot? = some slot ∧
    ((machine.registers.get slot).toNat : Int) + spot.offset = addr
  free : spot.base ≠ .a ∧ spot.base ≠ .stackPointer ∧ spot.base ≠ .counter
  near : -2 ^ 31 ≤ spot.offset ∧ spot.offset + size ≤ 2 ^ 31
  inside : machine.memory.addressable addr size = true
  clear : ∀ place, addr ≤ place → place < addr + size →
    place < machine.view.pointer - 8 * leaves ∨ machine.view.pointer ≤ place

theorem Locates.lies {spot : Spot} {size leaves addr : Nat}
    (locates : machine.Locates spot size leaves addr)
    (laid : machine.memory.Laid Heap.mostRequests) {slot : Slot} (some : leaves ≠ 0)
    (room : 8 * leaves ≤ machine.view.pointer) (low : 0 ≤ slot.offset)
    (high : slot.offset + slot.size ≤ size) (positive : slot.size ≠ 0) :
    spot.Lies machine.memory machine.held addr (machine.view.pointer - 8 * leaves)
      machine.view.pointer slot := by
  obtain ⟨base, slots, place⟩ := locates.base
  have below := laid.addressable_below locates.inside
  obtain ⟨least, most⟩ := locates.near
  have held : machine.held spot.base = machine.registers.get base := by rw [held, slots]
  refine ⟨?_, laid.addressable_part locates.inside (Nat.le_add_right _ _) (by omega), ?_⟩
  · have extended : (BitVec.ofInt 32 (slot.offset + spot.offset)).signExtend 64 =
        BitVec.ofInt 64 (slot.offset + spot.offset) := by
      apply BitVec.eq_of_toInt_eq
      rw [BitVec.toInt_signExtend_of_le (by decide), BitVec.toInt_ofInt, BitVec.toInt_ofInt,
        Int.bmod_eq_of_le (by omega) (by omega), Int.bmod_eq_of_le (by omega) (by omega)]
    have number : ((machine.registers.get base).toNat : Int) + (slot.offset + spot.offset) =
        (addr + slot.offset.toNat : Nat) := by omega
    have word : machine.registers.get base + BitVec.ofInt 64 (slot.offset + spot.offset) =
        BitVec.ofNat 64 (addr + slot.offset.toNat) := by
      have own : machine.registers.get base =
          BitVec.ofInt 64 (machine.registers.get base).toNat := by
        rw [BitVec.ofInt_natCast, BitVec.ofNat_toNat, BitVec.setWidth_eq]
      rw [own, ← BitVec.ofInt_add, number, BitVec.ofInt_natCast]
    rw [held, extended, word, BitVec.toNat_ofNat, Nat.mod_eq_of_lt (by omega)]
  · by_contra meets
    have clear := locates.clear (max (addr + slot.offset.toNat)
      (machine.view.pointer - 8 * leaves)) (by omega) (by omega)
    omega

theorem known_copying {source target : Spot}
    (first : source.base.slot?.isSome ∧ source.base ≠ .a ∧ source.base ≠ .counter)
    (second : target.base.slot?.isSome ∧ target.base ≠ .a ∧ target.base ≠ .counter)
    (slots : List Slot) : ∀ transfer ∈ copying source target slots, Known transfer := by
  induction slots with
  | nil => simp [copying]
  | cons slot slots ih =>
    have ends : Known (.load (source.at slot)) ∧ Known (.store (target.at slot)) := ⟨first, second⟩
    cases slots with
    | nil => simp [copying, ends]
    | cons next slots =>
      intro transfer mem
      simp only [copying, List.mem_cons, List.mem_append, List.not_mem_nil, or_false] at mem
      rcases mem with rfl | rfl | inner | rfl | rfl
      · exact ends.1
      · trivial
      · exact ih transfer inner
      · trivial
      · exact ends.2

theorem known_extracting (total first count : Nat) :
    ∀ transfer ∈ extracting total first count, Known transfer := by
  have free : Register.stackPointer.slot?.isSome ∧ Register.stackPointer ≠ .a ∧
      Register.stackPointer ≠ .counter := by decide
  intro transfer mem
  rw [extracting, lifting] at mem
  rcases List.mem_append.mp mem with lifts | raises
  · split at lifts
    · simp at lifts
    · obtain ⟨index, -, found⟩ := List.mem_flatMap.mp lifts
      simp only [List.mem_cons, List.not_mem_nil, or_false] at found
      rcases found with rfl | rfl
      · exact free
      · exact free
  · split at raises
    · obtain rfl := List.mem_singleton.mp raises
      trivial
    · simp at raises

/-- A machine that has copied the scalars of a value from one address to another. -/
structure Copies (slots : List Slot) (source target : Nat) (machine after : Machine) : Prop where
  pointer : after.view.pointer = machine.view.pointer
  /-- The scalars at the target are what those at the source were. -/
  leaves : ∀ slot ∈ slots, ∀ index < slot.size,
    after.memory.byteAt (target + slot.offset.toNat + index) =
      machine.memory.byteAt (source + slot.offset.toNat + index)
  /-- Only the scalars at the target change, and the words that were pushed. -/
  others : ∀ place, (∀ slot ∈ slots, place < target + slot.offset.toNat ∨
      target + slot.offset.toNat + slot.size ≤ place) →
    place < machine.view.pointer - 8 * slots.length ∨ machine.view.pointer ≤ place →
      after.memory.byteAt place = machine.memory.byteAt place

/-- A machine that has replaced the words of a struct by those of a member. -/
structure Extracts (struct : StructType) (mem : Member) (machine after : Machine) : Prop where
  pointer : after.view.pointer =
    machine.view.pointer + 8 * (struct.shape.leaves - mem.shape.leaves)
  /-- The words that are left are those of the scalars of the member. -/
  words : ∃ (front back : List Slot) (before behind : List Word),
    struct.shape.slots 0 = front ++ mem.shape.slots mem.offset ++ back ∧
    machine.stacked struct.shape.leaves = before ++ after.stacked mem.shape.leaves ++ behind ∧
    before.length = front.length ∧ behind.length = back.length
  /-- Nothing above the struct changes, nor what lies elsewhere. -/
  others : ∀ place, place < machine.view.pointer ∨
    machine.view.pointer + 8 * struct.shape.leaves ≤ place →
      after.memory.byteAt place = machine.memory.byteAt place

/-- The words that are left when those of a member are taken out stand together among those before.
-/
theorem stacked_of_leaf {after : Machine} {total first count : Nat} (fits : first + count ≤ total)
    (same : ∀ index < count, after.view.leaf count index =
      machine.view.leaf total (first + index)) :
    ∃ before behind, machine.stacked total = before ++ after.stacked count ++ behind ∧
      before.length = first ∧ behind.length = total - (first + count) := by
  obtain ⟨rest, rfl⟩ := Nat.exists_eq_add_of_le fits
  refine ⟨(List.range first).map (machine.view.leaf (first + count + rest)),
    (List.range rest).map fun index =>
      machine.view.leaf (first + count + rest) (first + count + index), ?_, by simp, by simp⟩
  have middle : after.stacked count = (List.range count).map fun index =>
      machine.view.leaf (first + count + rest) (first + index) :=
    List.map_congr_left fun index inside => same index (List.mem_range.mp inside)
  rw [middle, stacked, List.range_add, List.range_add, List.map_append, List.map_append,
    List.map_map, List.map_map]
  rfl

/-- Pushing a struct value and popping it elsewhere copies it. -/
theorem copies_value {struct : StructType} (fits : struct.shape.Fits struct.size)
    (sized : struct.shape.Sized)
    (accessed : struct.shape.Accessed) (settings : Settings) {source target : Spot}
    {start stop : Nat} (enters : machine.Enters prog piece later)
    (adds : piece.Adds later ((copying source target (struct.shape.slots 0)).flatMap
    Transfer.cells))
    (laid : machine.memory.Laid Heap.mostRequests)
    (low : Memory.stackBase + 8 * struct.shape.leaves ≤ machine.view.pointer)
    (high : machine.view.pointer ≤ machine.memory.stackTop)
    (from' : machine.Locates source struct.size struct.shape.leaves start)
    (to' : machine.Locates target struct.size struct.shape.leaves stop) :
    ∃ after, Reaches prog settings machine after ∧ after.running = true ∧
      after.counter = later.size ∧ Copies (struct.shape.slots 0) start stop machine after := by
  have count := Shape.length_slots accessed 0
  have follow := fits 0
  have scalars : ∀ slot ∈ struct.shape.slots 0, slot.Sized ∧ 0 ≤ slot.offset := fun slot mem =>
    ⟨sized 0 slot mem, (follow.mem mem).1⟩
  have apart : (struct.shape.slots 0).Pairwise Slot.Apart := follow.pairwise.imp fun before =>
    .inl before
  have lies : ∀ {spot : Spot} {addr : Nat},
      machine.Locates spot struct.size struct.shape.leaves addr →
      ∀ slot ∈ struct.shape.slots 0, spot.Lies machine.memory machine.held addr
        (machine.view.pointer - 8 * (struct.shape.slots 0).length) machine.view.pointer slot := by
    intro spot addr locates slot mem
    have inside := follow.mem mem
    have some := List.length_pos_of_mem mem
    rw [count] at some ⊢
    exact locates.lies laid (by omega) (by omega) inside.1 (by omega)
      (Shape.pos_of_accessible (accessed 0 slot mem))
  obtain ⟨moved, performs, pointer, copied⟩ := performs_copying (struct.shape.slots 0) machine.view
    scalars apart from'.free.2.1 to'.free.2.1 (lies from') (lies to') (by rw [count]; exact low)
      high
  obtain ⟨base, slots, -⟩ := from'.base
  obtain ⟨base', slots', -⟩ := to'.base
  have known := known_copying ⟨Option.isSome_iff_exists.mpr ⟨base, slots⟩, from'.free.1,
    from'.free.2.2⟩ ⟨Option.isSome_iff_exists.mpr ⟨base', slots'⟩, to'.free.1, to'.free.2.2⟩
    (struct.shape.slots 0)
  obtain ⟨after, reaches, running, counter, top, bytes⟩ := enters.reaches settings adds
    performs known
    (by rw [pointer]; exact high) laid.stack
  refine ⟨after, reaches, running, counter, top.trans pointer, fun slot mem index inside => ?_,
    fun place outside clear => ?_⟩
  · rw [bytes]
    exact copied.scalars slot mem index inside
  · rw [bytes]
    exact copied.others place outside clear

/-- Taking out a member leaves its words. -/
theorem extracts_member {struct : StructType} {mem : Member} (inside : mem ∈ struct.members)
    (distinct : (struct.members.map Member.name).Nodup) (accessed : struct.shape.Accessed)
    (part : mem.shape.Accessed) (settings : Settings)
    (enters : machine.Enters prog piece later)
    (adds : piece.Adds later ((extracting struct.shape.leaves (struct.leavesBefore mem.name)
      mem.shape.leaves).flatMap Transfer.cells))
    (stack : machine.memory.stackSize ≤ Memory.maxStackSize)
    (low : Memory.stackBase ≤ machine.view.pointer)
    (high : machine.view.pointer + 8 * struct.shape.leaves ≤ machine.memory.stackTop) :
    ∃ after, Reaches prog settings machine after ∧ after.running = true ∧
      after.counter = later.size ∧ Extracts struct mem machine after := by
  obtain ⟨front, back, slots, first⟩ := struct.slots_of_mem distinct accessed inside 0
  rw [Int.zero_add] at slots
  have total := Shape.length_slots accessed 0
  have count := Shape.length_slots part mem.offset
  rw [slots, List.length_append, List.length_append, count, first] at total
  obtain ⟨moved, performs, pointer, leaves, others⟩ := @performs_extracting
    mem.shape.leaves machine.memory machine.held machine.view _ (struct.leavesBefore mem.name)
    (by omega) low high stack
  obtain ⟨after, reaches, running, counter, top, bytes⟩ := enters.reaches settings adds performs
    (known_extracting _ _ _) (by omega) stack
  have same : ∀ index < mem.shape.leaves, after.view.leaf mem.shape.leaves index =
      machine.view.leaf struct.shape.leaves (struct.leavesBefore mem.name + index) := by
    intro index less
    rw [← leaves index less, View.leaf, View.leaf, top]
    exact congrArg (fun bytes : Bytes => bytes.word _ .eight) bytes
  obtain ⟨before, behind, words, length, length'⟩ :=
    @stacked_of_leaf machine after _ _ _ (by omega) same
  refine ⟨after, reaches, running, counter, top.trans pointer,
    ⟨front, back, before, behind, slots, words, length.trans first.symm, by omega⟩,
    fun place outside => ?_⟩
  rw [bytes]
  exact others place outside

/-- A value that was copied to its own place or to a place apart from it is the same in both. -/
theorem Copies.same {slots : List Slot} {start stop size : Nat} {after : Machine}
    (copies : Copies slots start stop machine after)
    (inside : ∀ slot ∈ slots, slot.offset.toNat + slot.size ≤ size)
    (clear : ∀ place, start ≤ place → place < start + size →
      place < machine.view.pointer - 8 * slots.length ∨ machine.view.pointer ≤ place)
    (apart : start = stop ∨ start + size ≤ stop ∨ stop + size ≤ start) :
    ∀ slot ∈ slots, ∀ index < slot.size,
      after.memory.byteAt (stop + slot.offset.toNat + index) =
        after.memory.byteAt (start + slot.offset.toNat + index) := by
  intro slot mem index less
  have moved := copies.leaves slot mem index less
  rcases apart with rfl | apart
  · rfl
  · have within := inside slot mem
    rw [moved, copies.others _ (fun other listed => ?_) (clear _ (by omega) (by omega))]
    have within' := inside other listed
    omega

/-- Whatever a check of files reports, the values of a struct that it has completed can be copied,
and their members taken out, by the code that is generated for that. -/
theorem keeps_struct_values (files : List SourceFile) {name : Text}
    (complete : (Checker.ofFiles files).progress? name = some .done) {ctx : FunctionContext}
    (checked : ctx.environment = (Checker.ofFiles files).environment) {gen : Generator}
    (bounded : gen.piece.barrier ≤ gen.piece.size) (prog : Program)
    (settings : Settings) :
    let struct := ctx.environment.structs.get name
    (∀ source target : Spot, ∃ later, (do
        Generate.pushFrom source.base source.offset (some ⟨.struct name, 0⟩)
        Generate.popTo target.base target.offset (some ⟨.struct name, 0⟩)) ctx gen =
          .done ((), later) ∧
      ∀ (machine : Machine) (start stop : Nat), machine.Enters prog gen.piece later.piece →
        machine.memory.Laid Heap.mostRequests →
        Memory.stackBase + 8 * struct.shape.leaves ≤ machine.view.pointer →
        machine.view.pointer ≤ machine.memory.stackTop →
        machine.Locates source struct.size struct.shape.leaves start →
        machine.Locates target struct.size struct.shape.leaves stop →
        ∃ after, Reaches prog settings machine after ∧ after.running = true ∧
          after.counter = later.piece.size ∧ Copies (struct.shape.slots 0) start stop
            machine after ∧
          (start = stop ∨ start + struct.size ≤ stop ∨ stop + struct.size ≤ start →
            ∀ slot ∈ struct.shape.slots 0, ∀ index < slot.size,
              after.memory.byteAt (stop + slot.offset.toNat + index) =
                after.memory.byteAt (start + slot.offset.toNat + index))) ∧
    ∀ mem ∈ struct.members, ∃ later,
      Generate.extractMember struct mem ctx gen = .done ((), later) ∧
      ∀ machine : Machine, machine.Enters prog gen.piece later.piece →
        machine.memory.stackSize ≤ Memory.maxStackSize → Memory.stackBase ≤ machine.view.pointer →
        machine.view.pointer + 8 * struct.shape.leaves ≤ machine.memory.stackTop →
        ∃ after, Reaches prog settings machine after ∧ after.running = true ∧
          after.counter = later.piece.size ∧ Extracts struct mem machine after := by
  intro struct
  have laid := Checker.laid_ofFiles files
  have sound := (Checker.placed_ofFiles files).structs
  have fits : wordSize * struct.shape.leaves < 2 ^ 63 → struct.shape.Fits struct.size := by
    have done := laid.done name complete
    rw [← checked] at done
    exact fun small => (done small).fits
  have sized : struct.shape.Sized := by
    have reached := Checker.sized_ofFiles files name
    rwa [← checked] at reached
  have accessed : struct.shape.Accessed := by
    have reached := @StructTable.Sound.shapeOf ⟨.struct name, 0⟩ _ sound (by simp [ValueType.void])
    rwa [← checked] at reached
  have distinct : (struct.members.map Member.name).Nodup := by
    have names := laid.distinct name
    rwa [← checked] at names
  have parts : ∀ mem ∈ struct.members, mem.shape.Accessed := by
    rw [← checked] at sound
    exact fun mem inside => (sound.get name mem inside).2
  constructor
  · intro source target
    obtain ⟨later, done, adds⟩ := @Generate.move_done ctx source target ⟨.struct name, 0⟩
      gen bounded
    refine ⟨later, done, fun machine start stop enters laid low high from' to' => ?_⟩
    have fits := fits (by
      have most := laid.stack
      simp only [wordSize, Memory.maxStackSize, Memory.stackTop, Memory.stackBase, Memory.dataBase]
        at most low high ⊢
      omega)
    obtain ⟨after, reaches, running, counter, copies⟩ :=
      copies_value fits sized accessed settings enters adds laid low high from' to'
    have follow := fits 0
    refine ⟨after, reaches, running, counter, copies, copies.same (fun slot mem => ?_) ?_⟩
    · have inside := follow.mem mem
      omega
    · rw [Shape.length_slots accessed]
      exact from'.clear
  · intro mem inside
    obtain ⟨later, done, adds⟩ := @Generate.extractMember_done ctx struct mem gen
    exact ⟨later, done, fun machine enters stack low high =>
      extracts_member inside distinct accessed (parts mem inside) settings enters adds
        stack low high⟩

/-- A file with a struct of a character and an integer. -/
def pairs : SourceFile where
  name := "pairs.tin"
  source := ""
  structs := [⟨default, "Pair", [⟨default, "flag", ⟨default, "char", 0⟩⟩,
    ⟨default, "count", ⟨default, "int", 0⟩⟩]⟩]
  funcs := []
  globals := []
  consts := []

/-- What a function depends on that is generated beside it. -/
def pairsContext : FunctionContext where
  environment := (Checker.ofFiles [pairs]).environment
  function := ⟨⟨default, "main", [], none, ⟨default, []⟩⟩, pairs, [], .void, 0⟩

/-- The code of a step that is done at once. -/
def codeOf (step : Generate Unit) : Code :=
  match step pairsContext { piece := { name := "main" }, file := pairs } with
  | .done (_, later) => later.piece.code
  | _ => #[]

/-- Code that copies a pair eight bytes further. -/
def copyingCode : Code :=
  #[.instruction ⟨.loadAt, .a, .b, 1⟩, .immediate 0, .instruction ⟨.push, .a, .unused, 0⟩,
    .instruction ⟨.loadAt, .a, .b, 4⟩, .immediate 4, .instruction ⟨.storeAt, .b, .a, 4⟩,
      .immediate 12,
    .instruction ⟨.pop, .a, .unused, 0⟩, .instruction ⟨.storeAt, .b, .a, 1⟩, .immediate 8]

/-- Code that leaves the integer of a pair on the stack. -/
def extractingCode : Code :=
  #[.instruction ⟨.loadAt, .a, .stackPointer, 8⟩, .immediate 0,
    .instruction ⟨.storeAt, .stackPointer, .a, 8⟩, .immediate 8,
    .instruction ⟨.increase, .stackPointer, .unused, 0⟩, .immediate 8]

/-- The slot of the register that points to the pairs. -/
def slotB : Fin 12 := ⟨2, by decide⟩

/-- A machine before some code, with a pair in the data segment and the words of one on the stack.
-/
def bearing (pointer : Nat) : Machine where
  registers := assign (assign (Vector.replicate 12 0) slotB (BitVec.ofNat 64 Memory.dataBase))
    slotSP
    (BitVec.ofNat 64 pointer)
  memory := ((⟨32, 16, {}, {}⟩ : Memory).setBytes Memory.dataBase [7, 0, 0, 0, 1, 2, 3, 4]).setBytes
    (Memory.stackBase + 16) (Memory.bytesOf 8 5 ++ Memory.bytesOf 8 7)
  piece := 0
  running := true
  steps := 0
  softErrors := 0
  output := #[]
  files := {}

theorem laid_bearing (pointer : Nat) : (bearing pointer).memory.Laid Heap.mostRequests := by
  have empty : (⟨32, 16, {}, {}⟩ : Memory).Laid 0 :=
    ⟨by decide, by decide, Heap.sound_empty _⟩
  have data := empty.congr (Memory.sameLayout_setBytes _ Memory.dataBase [7, 0, 0, 0, 1, 2, 3, 4])
  have laid := data.congr (Memory.sameLayout_setBytes _ (Memory.stackBase + 16)
    (Memory.bytesOf 8 5 ++ Memory.bytesOf 8 7))
  exact ⟨laid.stack, laid.data, laid.heap.mono (by decide)⟩

theorem keeps_struct_values_pair :
    (∃ after, Reaches { pieces := #[{ name := "main", code := copyingCode }] } {}
        (bearing (Memory.stackBase + 32)) after ∧
      Copies [⟨0, 1⟩, ⟨4, 4⟩] Memory.dataBase (Memory.dataBase + 8)
        (bearing (Memory.stackBase + 32)) after) ∧
    ∃ after, Reaches { pieces := #[{ name := "main", code := extractingCode }] } {}
        (bearing (Memory.stackBase + 16)) after ∧
      Extracts ((Checker.ofFiles [pairs]).environment.structs.get "Pair")
        ⟨"count", .int, 4, .scalar 4⟩ (bearing (Memory.stackBase + 16)) after := by
  have complete : (Checker.ofFiles [pairs]).progress? "Pair" = some .done := by decide
  have keeps := @keeps_struct_values [pairs] "Pair" complete pairsContext rfl
    { piece := { name := "main" }, file := pairs } (Nat.le_refl 0)
  have codes : ∀ {step : Generate Unit} {later : Generator},
      step pairsContext { piece := { name := "main" }, file := pairs } = .done ((), later) →
      later.piece.code = codeOf step := fun done => by rw [codeOf, done]
  have size : (pairsContext.environment.structs.get "Pair").size = 8 := by decide
  have leaves : (pairsContext.environment.structs.get "Pair").shape.leaves = 2 := by decide
  have slots : (pairsContext.environment.structs.get "Pair").shape.slots 0 = [⟨0, 1⟩, ⟨4, 4⟩] := by
    decide
  constructor
  · obtain ⟨later, done, copies⟩ := (keeps { pieces := #[{ name := "main", code := copyingCode }] }
      {}).1
      ⟨.b, 0⟩ ⟨.b, 8⟩
    have code : later.piece.code = copyingCode := (codes done).trans (by decide)
    rw [size, leaves, slots] at copies
    have enters : (bearing (Memory.stackBase + 32)).Enters
        { pieces := #[{ name := "main", code := copyingCode }] } { name := "main" } later.piece :=
      ⟨rfl, by decide, fun place _ _ => by rw [code]; rfl, by rw [Piece.size, code]; decide⟩
    have pointer : (bearing (Memory.stackBase + 32)).view.pointer = Memory.stackBase + 32 := by
      decide
    have clear : ∀ {place : Nat}, Memory.dataBase ≤ place →
        place < (bearing (Memory.stackBase + 32)).view.pointer - 8 * 2 ∨
          (bearing (Memory.stackBase + 32)).view.pointer ≤ place := fun low => by
      rw [pointer]
      exact .inr (Nat.le_trans (by decide) low)
    obtain ⟨after, reaches, -, -, copied, -⟩ := copies _ Memory.dataBase (Memory.dataBase + 8)
      enters
      (laid_bearing _) (by decide) (by decide)
      ⟨⟨2, rfl, by decide⟩, by decide, by decide, by decide, fun _ low _ => clear low⟩
      ⟨⟨2, rfl, by decide⟩, by decide, by decide, by decide,
        fun _ low _ => clear (Nat.le_trans (Nat.le_add_right _ 8) low)⟩
    exact ⟨after, reaches, copied⟩
  · have inside : (⟨"count", .int, 4, .scalar 4⟩ : Member) ∈
        (pairsContext.environment.structs.get "Pair").members := by
      have members : (pairsContext.environment.structs.get "Pair").members =
        [⟨"flag", .char, 0, .scalar 1⟩, ⟨"count", .int, 4, .scalar 4⟩] := rfl
      rw [members]
      exact List.mem_cons_of_mem _ List.mem_cons_self
    obtain ⟨later, done, extracts⟩ :=
      (keeps { pieces := #[{ name := "main", code := extractingCode }] } {}).2 _ inside
    have code : later.piece.code = extractingCode := (codes done).trans (by decide)
    have enters : (bearing (Memory.stackBase + 16)).Enters
        { pieces := #[{ name := "main", code := extractingCode }] } { name := "main" }
          later.piece :=
      ⟨rfl, by decide, fun place _ _ => by rw [code]; rfl, by rw [Piece.size, code]; decide⟩
    rw [leaves] at extracts
    obtain ⟨after, reaches, -, -, extracted⟩ := extracts _ enters (laid_bearing _).stack
      (by decide) (by decide)
    exact ⟨after, reaches, extracted⟩

end Machine

end TinLang
