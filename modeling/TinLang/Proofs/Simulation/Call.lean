import TinLang.Proofs.Simulation.Values

/-!
# The caller's side of a call

A call makes room below the operand stack for the result and the arguments, evaluates the arguments,
moves them into their block, the last one first, and calls. The scalars of all arguments then stand
in the block, each at its place, cut to its size. What the callee leaves above the block becomes
words of the operand stack again, in front of those that were there.
-/
namespace TinLang

/-- The types and offsets of arguments in their block. -/
abbrev ArgumentPlaces := List (ValueType × Nat)

namespace StructTable

/-- The places of the scalars of arguments in a block at an address. -/
def blockSlots (table : StructTable) (addr : Int) (places : ArgumentPlaces) : List Slot :=
  places.flatMap fun (type, offset) => (table.shapeOf type).slots (addr + offset)

theorem blockSlots_cons (table : StructTable) (addr : Int) (type : ValueType) (offset : Nat)
    (places : ArgumentPlaces) : table.blockSlots addr ((type, offset) :: places) =
      (table.shapeOf type).slots (addr + offset) ++ table.blockSlots addr places := rfl

/-- A block at a distance has its scalars at a distance. -/
theorem blockSlots_add (table : StructTable) (addr distance : Int) (places : ArgumentPlaces) :
    table.blockSlots (addr + distance) places =
      (table.blockSlots addr places).map (Slot.shift distance) := by
  induction places with
  | nil => rfl
  | cons place places ih =>
    obtain ⟨type, offset⟩ := place
    have same : addr + distance + offset = addr + offset + distance := by omega
    rw [blockSlots_cons, blockSlots_cons, ih, same, Shape.slots_add, List.map_append]

end StructTable

/-- Where a callee finds the values of its parameters. -/
structure Generate.Callee.Laid (env : Environment) (callee : Generate.Callee)
    (places : ArgumentPlaces) : Prop where
  params : callee.params = places.map fun place => some place.1
  pairs : callee.params.zip callee.offsets = places.map fun (type, offset) => (some type, offset)
  placed : ∀ place ∈ places, place.1 ≠ .void
  follow : Slot.Follow 0 callee.block
    (places.map fun (type, offset) => ⟨offset, env.structs.sizeOf type⟩)
  fits : ∀ place ∈ places,
    (env.structs.shapeOf place.1).Fits (env.structs.sizeOf place.1)

namespace Generate.Callee.Laid

variable {env : Environment} {callee : Generate.Callee} {places : ArgumentPlaces}

/-- The scalars of all arguments follow one another in the block. -/
theorem follow_slots (laid : callee.Laid env places) (addr : Int) :
    Slot.Follow addr (addr + callee.block) (env.structs.blockSlots addr places) := by
  have each : ∀ {places : ArgumentPlaces} {first last : Int}, (∀ place ∈ places,
      (env.structs.shapeOf place.1).Fits (env.structs.sizeOf place.1)) →
      Slot.Follow first last
        (places.map fun (type, offset) => ⟨offset, env.structs.sizeOf type⟩) →
      Slot.Follow (addr + first) (addr + last)
        (env.structs.blockSlots addr places) := by
    intro places
    induction places with
    | nil => exact fun _ follow => Int.add_le_add_left follow addr
    | cons place places ih =>
      obtain ⟨type, offset⟩ := place
      intro first last fits follow
      obtain ⟨own, others⟩ := List.forall_mem_cons.mp fits
      have start : first ≤ offset := follow.1
      have own := own (addr + offset)
      have rest := ih others follow.2
      exact (own.mono (Int.add_le_add_left start addr) (Int.le_refl _)).append
        (rest.mono (by dsimp only; omega) (Int.le_refl _))
  have all := each laid.fits laid.follow
  rwa [Int.add_zero] at all

theorem sized (laid : callee.Laid env places) (settled : env.Settled)
    (sound : env.structs.Sound) {addr : Int} :
    ∀ slot ∈ env.structs.blockSlots addr places, slot.Sized := by
  intro slot mem
  obtain ⟨⟨type, offset⟩, inside, found⟩ := List.mem_flatMap.mp mem
  exact settled.sized sound (laid.placed _ inside) _ slot found

theorem apart (laid : callee.Laid env places) (addr : Int) :
    (env.structs.blockSlots addr places).Pairwise Slot.Apart :=
  (laid.follow_slots addr).pairwise.imp fun before => .inl before

/-- Nothing stands in an empty block. -/
theorem blockSlots_eq_nil (laid : callee.Laid env places) (settled : env.Settled)
    (sound : env.structs.Sound) (none : callee.block = 0) (addr : Int) :
    env.structs.blockSlots addr places = [] := by
  rw [List.eq_nil_iff_forall_not_mem]
  intro slot mem
  obtain ⟨start, stop⟩ := (laid.follow_slots addr).mem mem
  obtain ⟨width, known, bytes⟩ := laid.sized settled sound slot mem
  have positive : 0 < width.bytes := by cases width <;> decide
  omega

end Generate.Callee.Laid

namespace Bytes

variable {bytes : Bytes}

theorem keep_append {slots more : List Slot} {words others : List Word}
    (count : words.length = slots.length) :
    bytes.keep (slots ++ more) (words ++ others) = (bytes.keep more others).keep slots words := by
  induction slots generalizing words with
  | nil =>
    obtain rfl := List.length_eq_zero_iff.mp count
    rfl
  | cons slot slots ih =>
    cases words with
    | nil => simp at count
    | cons word words =>
      rw [List.cons_append, List.cons_append, keep, keep, ih (by simpa using count)]

end Bytes

namespace Scene

open Generate

variable {scene : Scene} {shown : Shown} {origin : Nat}

/-- Popping some arguments and then others. -/
theorem leads_popArguments_append {distance : Int} {places more : List (Option ValueType × Nat)}
    {before : Shown → Prop} {middle after : Unit → Shown → Prop}
    (first : scene.Leads before (popArguments distance places) middle)
    (second : scene.Leads (middle ()) (popArguments distance more) after) :
    scene.Leads before (popArguments distance (places ++ more)) after := by
  have split : ∀ {places : List (Option ValueType × Nat)} {ctx gen result},
      popArguments distance (places ++ more) ctx gen = .done result →
      (do popArguments distance places; popArguments distance more) ctx gen =
        .done result := by
    intro places
    induction places with
    | nil => exact fun done => bind_done.mpr ⟨(), _, rfl, done⟩
    | cons place places ih =>
      intro ctx gen result done
      obtain ⟨_, _, popped, rest⟩ := bind_done.mp done
      obtain ⟨value, between, one, two⟩ := bind_done.mp (ih rest)
      exact bind_done.mpr ⟨value, between, bind_done.mpr ⟨_, _, popped, one⟩, two⟩
  exact ⟨emits_popArguments _ _, fun _ _ _ done => (first.bind fun _ => second).comes (split done)⟩

/-- The words of arguments are stored in their block. -/
theorem leads_popArguments (origin : Nat) {distance : Int} {places : ArgumentPlaces}
    (start : shown.b = BitVec.ofNat 64 origin)
    (within : scene.Within shown.floor origin
      (scene.context.environment.structs.blockSlots distance places))
    {words rest : List Word}
    (count : words.length =
      (scene.context.environment.structs.blockSlots distance places).length)
    (stack : shown.stack = words.reverse ++ rest) :
    scene.Leads (· = shown) (popArguments distance
      (places.map fun (type, offset) => (some type, offset)).reverse) fun _ final =>
        ∃ a, final = { shown with
          a, stack := rest, bytes := shown.bytes.keep
            (scene.context.environment.structs.blockSlots (distance + origin) places) words } := by
  induction places generalizing words rest with
  | nil =>
    obtain rfl := List.length_eq_zero_iff.mp count
    refine .pure fun _ here => ⟨shown.a, ?_⟩
    rw [here, show rest = shown.stack from stack.symm]
    rfl
  | cons place places ih =>
    obtain ⟨type, offset⟩ := place
    rw [StructTable.blockSlots_cons] at within count
    rw [List.length_append] at count
    obtain ⟨own, others, rfl, size⟩ : ∃ own others, words = own ++ others ∧ own.length =
        ((scene.context.environment.structs.shapeOf type).slots (distance + offset)).length :=
      ⟨words.take _, words.drop _, (List.take_append_drop _ words).symm,
        List.length_take_of_le (by omega)⟩
    rw [List.length_append] at count
    rw [List.reverse_append, List.append_assoc] at stack
    rw [List.map_cons, List.reverse_cons]
    refine leads_popArguments_append
      (ih (fun slot mem => within slot (List.mem_append_right _ mem)) (by omega) stack) ?_
    refine .of_eq ?_ (emits_popArguments _ _)
    rintro _ ⟨a, rfl⟩
    refine .bind (leads_popTo origin (.inl rfl) ?_ ?_ size rfl) fun _ => ?_
    · exact start
    · exact fun slot mem => within slot (List.mem_append_left _ mem)
    refine .pure fun final here => ?_
    obtain ⟨last, rfl⟩ := here
    refine ⟨last, ?_⟩
    have same : distance + offset + origin = distance + origin + offset := by omega
    have length : own.length = ((scene.context.environment.structs.shapeOf type).slots
        (distance + origin + offset)).length := by
      rw [size, ← same, Shape.slots_add _ (distance + offset), List.length_map]
    rw [StructTable.blockSlots_cons, Bytes.keep_append length, same]

end Scene

namespace Generate

/-- Move the arguments of a call into their block. -/
def fillBlock (callee : Callee) (pushed : Nat) : Generate Unit :=
  if 0 < pushed then do
    emit .move .b .stackPointer
    popArguments pushed (callee.params.zip callee.offsets).reverse
  else return ()

/-- Emit the call itself. -/
def emitTarget (callee : Callee) : Generate Unit :=
  match callee.target with
  | .inl native => change (·.emitNativeCall native.id)
  | .inr index => change (·.emitCall (some index))

/-- Give the block back after a call. -/
def giveBlock (callee : Callee) : Generate Unit :=
  if 0 < callee.block then increase .stackPointer callee.block else return ()

/-- A call whose arguments fit consists of three parts. -/
theorem finishCall_done {callee : Callee} {pushed : Nat} {ctx : FunctionContext}
    {gen : Generator} {result : Option ValueType × Generator}
    (done : finishCall callee pushed true ctx gen = .done result) :
    ∃ filled called given, fillBlock callee pushed ctx gen = .done ((), filled) ∧
      emitTarget callee ctx filled = .done ((), called) ∧
      giveBlock callee ctx called = .done ((), given) ∧ (callee.result, given) = result := by
  have tail : ∀ {filled : Generator}, (do
      match callee.target with
      | .inl native => change (·.emitNativeCall native.id)
      | .inr index => change (·.emitCall (some index))
      if 0 < callee.block then increase .stackPointer callee.block
      return callee.result) ctx filled = .done result →
      ∃ called given, emitTarget callee ctx filled = .done ((), called) ∧
        giveBlock callee ctx called = .done ((), given) ∧ (callee.result, given) = result := by
    intro filled rest
    unfold emitTarget giveBlock
    have release : ∀ {called : Generator}, (do
        if 0 < callee.block then increase .stackPointer callee.block
        return callee.result) ctx called = .done result →
        ∃ given, (if 0 < callee.block then increase .stackPointer callee.block
          else return () : Generate Unit) ctx called = .done ((), given) ∧
            (callee.result, given) = result := by
      intro called rest
      split at rest
      · next some =>
        obtain ⟨_, given, one, two⟩ := bind_done.mp rest
        rw [if_pos some]
        exact ⟨given, one, pure_done.mp two⟩
      · next none =>
        rw [if_neg none]
        exact ⟨called, rfl, pure_done.mp rest⟩
    generalize callee.target = target at rest ⊢
    cases target <;>
    · obtain ⟨_, called, one, two⟩ := bind_done.mp rest
      obtain ⟨given, three, four⟩ := release two
      exact ⟨called, given, one, three, four⟩
  unfold finishCall at done
  rw [if_pos rfl] at done
  unfold fillBlock
  split at done
  · next some =>
    rw [if_pos some]
    obtain ⟨_, moved, one, rest⟩ := bind_done.mp done
    obtain ⟨_, filled, two, rest⟩ := bind_done.mp rest
    obtain ⟨called, given, three, four, five⟩ := tail rest
    exact ⟨filled, called, given, bind_done.mpr ⟨_, moved, one, two⟩, three, four, five⟩
  · next none =>
    rw [if_neg none]
    obtain ⟨called, given, three, four, five⟩ := tail done
    exact ⟨gen, called, given, rfl, three, four, five⟩

theorem emits_fillBlock (callee : Callee) (pushed : Nat) : Emits (fillBlock callee pushed) :=
  .ite (fun _ => (emits_emit (by decide) (by decide) (by decide)).bind fun _ =>
    emits_popArguments _ _) fun _ => .pure _

theorem emits_emitTarget (callee : Callee) : Emits (emitTarget callee) := by
  unfold emitTarget
  split
  · exact emits_callNative _
  · exact emits_callFunction _

theorem emits_giveBlock (callee : Callee) : Emits (giveBlock callee) :=
  .ite (fun _ => emits_increase _ _) fun _ => .pure _

end Generate

namespace Scene

open Generate

variable {scene : Scene} {shown : Shown} {callee : Callee} {places : ArgumentPlaces}

theorem leads_fillBlock (settled : scene.context.environment.Settled)
    (sound : scene.context.environment.structs.Sound)
    (laid : callee.Laid scene.context.environment places) {words rest : List Word}
    (count : words.length =
      (scene.context.environment.structs.blockSlots shown.floor places).length)
    (stack : shown.stack = words.reverse ++ rest) (ends : words ≠ [] → rest = [])
    (room : words ≠ [] → shown.floor + callee.block ≤ shown.base) :
    scene.Leads (· = shown) (fillBlock callee (wordSize * words.length)) fun _ final =>
      ∃ a b, final = { shown with
        a, b, stack := rest, bytes := shown.bytes.keep
          (scene.context.environment.structs.blockSlots shown.floor places) words } := by
  refine .ite (fun some => ?_) fun none => ?_
  · have nonempty : words ≠ [] := by
      rintro rfl
      simp at some
    obtain rfl := ends nonempty
    rw [List.append_nil] at stack
    refine .bind (leads_movePointer rfl) fun _ => ?_
    refine .of_eq ?_ (emits_popArguments _ _)
    rintro _ ⟨rfl, low, highest⟩
    have room := room nonempty
    have size : shown.stack.length = words.length := by rw [stack, List.length_reverse]
    have place : shown.pointer + wordSize * words.length = shown.floor := by
      rw [Shown.pointer, size, wordSize]
      omega
    have distance : ((wordSize * words.length : Nat) : Int) + shown.pointer =
      shown.floor := by omega
    have moved := scene.context.environment.structs.blockSlots_add
      ((wordSize * words.length : Nat) : Int) shown.pointer places
    rw [distance] at moved
    rw [laid.pairs]
    refine .weaken (leads_popArguments shown.pointer rfl ?_
      (count.trans (by rw [moved, List.length_map]))
      (show shown.stack = words.reverse ++ [] by rw [stack, List.append_nil])) ?_
    · intro slot mem
      obtain ⟨start, stop⟩ := (laid.follow_slots _).mem mem
      obtain ⟨width, known, bytes⟩ := laid.sized settled sound slot mem
      have below := scene.site.below
      unfold Memory.dataBase at below
      have positive : 0 < slot.size := by
        rw [← bytes]
        cases width <;> decide
      refine ⟨by omega, by omega, ⟨width, known, bytes⟩, ?_, .inl ?_⟩
      · show (shown.floor : Int) ≤ slot.offset + shown.pointer
        omega
      · show slot.offset + shown.pointer + slot.size ≤ scene.site.top
        omega
    · rintro _ _ ⟨a, rfl⟩
      rw [distance]
      exact ⟨a, _, rfl⟩
  · obtain rfl : words = [] := by
      cases words with
      | nil => rfl
      | cons word words => simp [wordSize] at none
    have empty := List.length_eq_zero_iff.mp count.symm
    refine .pure fun final here => ⟨shown.a, shown.b, ?_⟩
    rw [here, empty, show rest = shown.stack from stack.symm]
    rfl

/-- The space that a call takes for its result and its arguments. -/
def space (scene : Scene) (callee : Callee) : Nat :=
  wordSize * scene.context.environment.leavesOf callee.result + callee.block

/-- Words below an address stand above some room, or there is no room and they are still the rest
of the operand stack. -/
def Rooms (outer : List Word) (above size : Nat) (rest : List Word) (shown : Shown) : Prop :=
  (rest = [] ∧ shown.floor + size + 8 * outer.length = above ∧
    shown.bytes.Spells (shown.floor + size) outer) ∨
  (size = 0 ∧ rest = outer ∧ shown.floor = above)

theorem leads_reserveCall (small : scene.space callee ≤ 2 ^ 31) :
    scene.Leads (· = shown) (reserveCall callee) fun _ final => ∃ rest floor bytes,
      final = { shown with stack := rest, floor, bytes } ∧ floor ≤ shown.floor ∧
        (∀ place, shown.floor ≤ place → bytes place = shown.bytes place) ∧
        Rooms shown.stack shown.floor (scene.space callee) rest final := by
  refine .bind leads_environment fun env => ?_
  refine .of_eq ?_ (.ite (fun _ => emits_increase _ _) fun _ => .pure _)
  rintro shown ⟨rfl, rfl⟩
  refine .ite (fun _ => ?_) fun none => .pure ?_
  · refine .weaken (leads_reserve small) ?_
    rintro _ _ ⟨floor, bytes, room, rfl, same, spells⟩
    exact ⟨[], floor, bytes, rfl, Nat.le.intro (Nat.add_assoc .. ▸ room), same,
      .inl ⟨rfl, room, spells⟩⟩
  · rintro _ rfl
    exact ⟨_, _, _, rfl, Nat.le_refl _, fun _ _ => rfl,
      .inr ⟨Nat.eq_zero_of_not_pos none, rfl, rfl⟩⟩

/-- The immediate of a call names its target. -/
def Names (callee : Callee) (imm : BitVec 32) : Prop :=
  match callee.target with
  | .inl native => imm.toInt = native.id
  | .inr index => imm = BitVec.ofNat 32 (index + 1)

/-- What is shown when control reaches a call: the arguments stand in their block at the floor, and
the words of the operand stack above the room for the result. -/
structure Calling (scene : Scene) (callee : Callee) (places : ArgumentPlaces)
    (words outer : List Word)
    (above : Nat) (shown entered : Shown) : Prop where
  empty : entered.stack = []
  base : entered.base = shown.base
  output : entered.output = shown.output
  above : entered.floor + scene.space callee + 8 * outer.length = above
  outer : entered.bytes.Spells (entered.floor + scene.space callee) outer
  arguments : entered.bytes.read
      (scene.context.environment.structs.blockSlots entered.floor places) =
    List.zipWith narrowTo
      ((scene.context.environment.structs.blockSlots entered.floor places).map Slot.size) words
  bytes : ∀ place, shown.floor ≤ place → entered.floor + callee.block ≤ place →
    entered.bytes place = shown.bytes place

/-- A call stands in the final code where it was emitted. -/
theorem named_of_emitTarget {gen later : Generator}
    (done : emitTarget callee scene.context gen = .done ((), later))
    (complete : later.piece.Completes scene.site.code scene.holes)
    (bounded : gen.piece.barrier ≤ gen.piece.size) :
    ∃ imm, Names callee imm ∧
      scene.site.code[gen.piece.size]? = some (.instruction ⟨.call, .unused, .unused, 0⟩) ∧
      scene.site.code[gen.piece.size + 1]? = some (.immediate imm) ∧
      later.piece.size = gen.piece.size + 2 ∧ later.piece.pending = [] ∧
      (gen.piece.emitImmediate ⟨.call, .unused, .unused, 0⟩
        (match callee.target with | .inl native => .ofInt 32 native.id | .inr _ => 0)).1.Completes
          scene.site.code scene.holes := by
  unfold emitTarget at done
  unfold Names
  cases target : callee.target with
  | inl native =>
    rw [target] at done
    obtain ⟨-, rfl⟩ := Prod.mk.inj (Task.done.inj done)
    have number : (BitVec.ofInt 32 native.id).toInt = native.id ∧ BitVec.ofInt 32
      native.id ≠ 0 := by
      cases native <;> decide
    exact ⟨_, number.1, complete.emitted_instruction bounded,
      complete.emitted_immediate bounded ⟨by decide, by decide⟩ (.inr number.2),
      gen.piece.size_emitImmediate _ _, gen.piece.pending_emitImmediate bounded _ _,
      complete⟩
  | inr index =>
    rw [target] at done
    obtain ⟨-, rfl⟩ := Prod.mk.inj (Task.done.inj done)
    let call : Instruction := ⟨.call, .unused, .unused, 0⟩
    have grows : (gen.piece.emitImmediate call 0).1.Grows (gen.piece.emitCall (some index)) :=
      Piece.grows_of_same (Piece.grows_emitImmediate bounded call 0).bounded rfl rfl
        fun reloc mem => List.mem_append_left _ mem
    have emitted := grows.completes complete
    have linked := complete.calls ⟨some index, gen.piece.size + 1⟩
      (List.mem_append_right _ List.mem_cons_self) index rfl
    exact ⟨_, rfl, emitted.emitted_instruction bounded, linked,
      gen.piece.size_emitImmediate _ _, gen.piece.pending_emitImmediate bounded call 0,
      emitted⟩

/-- The block is given back, and the words above it are words of the operand stack. -/
theorem comes_giveBlock {machine : Machine} {gen later : Generator} {words : List Word}
    (done : giveBlock callee scene.context gen = .done ((), later))
    (scopes : gen.scopes = scene.scopes)
    (complete : later.piece.Completes scene.site.code scene.holes)
    (shows : scene.site.Shows gen.piece machine shown) (settled : gen.piece.pending = [])
    (empty : shown.stack = []) (small : callee.block < 2 ^ 31)
    (room : shown.floor + callee.block + 8 * words.length ≤ shown.base)
    (spells : shown.bytes.Spells (shown.floor + callee.block) words) :
    machine.Comes scene.site.program scene.site.settings fun last =>
      scene.site.Shows later.piece last
        { shown with stack := words, floor := shown.floor + callee.block + 8 * words.length } := by
  unfold giveBlock at done
  split at done
  · refine ((leads_release small empty room spells).comes done scopes complete shows rfl).mono ?_
    rintro last ⟨_, reached, rfl⟩
    exact reached
  · next none =>
    have block : callee.block = 0 := Nat.eq_zero_of_not_pos none
    obtain ⟨-, rfl⟩ := Prod.mk.inj (pure_done.mp done)
    rw [block, Nat.add_zero] at room spells
    have plain := (shows.toPlain settled).emerge empty room spells
    rw [block, Nat.add_zero]
    exact .here (.ofPlain settled shows.bounded plain)

/-- Once the arguments are in their block, what a machine at the call shows is as it should be. -/
theorem calling_of_rooms (settled : scene.context.environment.Settled)
    (sound : scene.context.environment.structs.Sound)
    (laid : callee.Laid scene.context.environment places) {words outer rest : List Word}
    {above : Nat}
    (count : words.length =
      (scene.context.environment.structs.blockSlots shown.floor places).length)
    (rooms : Rooms outer above (scene.space callee) rest shown) {cell : Nat} {machine : Machine}
    {a b : Word} (plain : scene.site.Plain cell machine { shown with
      a, b, stack := rest, bytes := shown.bytes.keep
        (scene.context.environment.structs.blockSlots shown.floor places) words }) :
    ∃ entered, scene.site.Plain cell machine entered ∧
      Calling scene callee places words outer above shown entered := by
  have slots := laid.follow_slots shown.floor
  have sized : ∀ slot ∈ scene.context.environment.structs.blockSlots shown.floor places,
      slot.Sized ∧ 0 ≤ slot.offset := fun slot mem =>
    ⟨laid.sized settled sound slot mem, by have start := (slots.mem mem).1; omega⟩
  have space : callee.block ≤ scene.space callee := Nat.le_add_left _ _
  have outside : ∀ place, shown.floor + callee.block ≤ place →
      shown.bytes.keep (scene.context.environment.structs.blockSlots shown.floor places)
        words place =
        shown.bytes place := by
    intro place high
    refine Bytes.keep_of_outside sized (fun slot mem => .inr ?_) words
    have stop := (slots.mem mem).2
    omega
  have low := plain.low
  dsimp only at low
  obtain ⟨absorbed, same, spells⟩ := plain.absorb
  refine ⟨_, absorbed, ?_⟩
  rcases rooms with ⟨rfl, place, spelled⟩ | ⟨none, rfl, level⟩
  · have floor : Shown.pointer { shown with
        a, b, stack := [], bytes := shown.bytes.keep
          (scene.context.environment.structs.blockSlots shown.floor places) words } = shown.floor :=
      Nat.sub_zero _
    refine ⟨rfl, rfl, rfl, by rw [floor]; exact place, ?_, ?_, ?_⟩
    · rw [floor]
      exact spelled.congr fun place low high =>
        ((same place (by dsimp only; omega)).trans (outside place (by omega))).symm
    · rw [floor]
      refine Eq.trans ?_ (@Bytes.read_keep shown.bytes _ _ sized (laid.apart _) count)
      exact Bytes.read_congr sized fun slot mem place low high => same place
        (by have start := (slots.mem mem).1; dsimp only; omega)
    · intro place high behind
      rw [floor] at behind
      exact (same place high).trans (outside place behind)
  · have block : callee.block = 0 := by omega
    have nothing := laid.blockSlots_eq_nil settled sound block
    refine ⟨rfl, rfl, rfl, ?_, ?_, ?_, ?_⟩
    · rw [none, Shown.pointer]
      dsimp only
      omega
    · rw [none]
      exact spells
    · simp only [nothing, List.map_nil, List.zipWith_nil_left, Bytes.read]
    · intro place high _
      refine (same place high).trans ?_
      rw [nothing]
      rfl

/-- The words of the arguments that a call moves into their block are at most as many as there are
cells of code and words on the stack. -/
theorem few_of_finishCall {words rest : List Word} {machine : Machine} {gen later : Generator}
    {type : Option ValueType}
    (done : finishCall callee (wordSize * words.length) true scene.context gen =
      .done (type, later))
    (complete : later.piece.Completes scene.site.code scene.holes)
    (shows : scene.site.Shows gen.piece machine shown)
    (stack : shown.stack = words.reverse ++ rest) : wordSize * words.length < 2 ^ 63 := by
  obtain ⟨filled, called, given, one, two, three, same⟩ := finishCall_done done
  obtain ⟨rfl, rfl⟩ := Prod.mk.inj same
  obtain ⟨piece, rfl, first⟩ := emits_fillBlock callee _ one shows.bounded
  obtain ⟨piece', rfl, second⟩ := emits_emitTarget callee two first.bounded
  obtain ⟨piece'', rfl, third⟩ := emits_giveBlock callee three second.bounded
  have complete' := second.completes (third.completes complete)
  unfold fillBlock at one
  split at one
  · obtain ⟨_, moved, emitted, popped⟩ := bind_done.mp one
    obtain ⟨-, rfl⟩ := Prod.mk.inj (Task.done.inj emitted)
    let move : Instruction := ⟨.move, .b, .stackPointer, 0⟩
    obtain ⟨last, settled⟩ := @Piece.pending_emit _ shows.bounded move (by decide) (by decide)
    obtain ⟨piece, same, fourth⟩ := emits_popArguments _ _ popped (Piece.grows_emit shows.bounded
      move).bounded
    obtain rfl := congrArg Generator.piece same
    have stays : gen.piece.size < (gen.piece.emit move).1.settled := by
      rw [Piece.settled, settled, last, Piece.size_push]
      exact Nat.lt_succ_self _
    have cell : (gen.piece.emit move).1.code[gen.piece.size]? = some (.instruction move) := by
      rw [last]
      exact Array.getElem?_push_size
    have here := (fourth.completes complete').instruction stays cell
    have inside := (Array.getElem?_eq_some_iff.mp here).1
    obtain ⟨under, split, plain⟩ := shows.plain
    have pending := gen.piece.length_pending
    have low := plain.low
    have high := plain.high
    have highest := plain.highest
    have small := scene.site.small
    have below := scene.site.below
    have length := congrArg List.length (stack.symm.trans split)
    simp only [List.length_append, List.length_reverse, List.length_map] at length
    unfold Memory.dataBase at below
    dsimp only [wordSize] at low high highest ⊢
    omega
  · omega

/-- The caller's side of a call: its code leads to the call, and goes on behind it with the words
of the result in front of those that were on the operand stack. -/
theorem comes_finishCall (settled : scene.context.environment.Settled)
    (sound : scene.context.environment.structs.Sound)
    (laid : callee.Laid scene.context.environment places) {words outer rest : List Word}
    {above : Nat}
    {machine : Machine} {gen later : Generator} {type : Option ValueType}
    (done : finishCall callee (wordSize * words.length) true scene.context gen =
      .done (type, later))
    (complete : later.piece.Completes scene.site.code scene.holes)
    (shows : scene.site.Shows gen.piece machine shown)
    (scopes : gen.scopes = scene.scopes) (small : callee.block < 2 ^ 31)
    (count : words.length =
      (scene.context.environment.structs.blockSlots shown.floor places).length)
    (stack : shown.stack = words.reverse ++ rest)
    (rooms : Rooms outer above (scene.space callee) rest shown) (room : above ≤ shown.base) :
    type = callee.result ∧ ∃ cell imm, Names callee imm ∧
      scene.site.code[cell]? = some (.instruction ⟨.call, .unused, .unused, 0⟩) ∧
      scene.site.code[cell + 1]? = some (.immediate imm) ∧
      machine.Comes scene.site.program scene.site.settings (fun last => ∃ entered,
        scene.site.Plain cell last entered ∧
        Calling scene callee places words outer above shown entered) ∧
      ∀ (back : Machine) (final : Shown) (results : List Word),
        scene.site.Plain (cell + 2) back final → final.stack = [] →
        final.floor + callee.block + 8 * (results ++ outer).length = above →
        final.bytes.Spells (final.floor + callee.block) (results ++ outer) → above ≤ final.base →
        back.Comes scene.site.program scene.site.settings fun last =>
          scene.site.Shows later.piece last { final with stack := results ++ outer, floor :=
            above } := by
  obtain ⟨filled, called, given, one, two, three, same⟩ := finishCall_done done
  obtain ⟨rfl, rfl⟩ := Prod.mk.inj same
  obtain ⟨piece, rfl, first⟩ := emits_fillBlock callee _ one shows.bounded
  obtain ⟨piece', rfl, second⟩ := emits_emitTarget callee two first.bounded
  obtain ⟨piece'', rfl, third⟩ := emits_giveBlock callee three second.bounded
  have complete'' := third.completes complete
  have complete' := second.completes complete''
  have nothing : scene.space callee = 0 → words = [] := by
    intro none
    have block : callee.block = 0 := Nat.eq_zero_of_add_eq_zero_left none
    rw [laid.blockSlots_eq_nil settled sound block] at count
    exact List.length_eq_zero_iff.mp count
  have space : callee.block ≤ scene.space callee := Nat.le_add_left _ _
  have filling := leads_fillBlock settled sound laid count stack
    (fun some => by
      rcases rooms with ⟨empty, -⟩ | ⟨none, -⟩
      · exact empty
      · exact absurd (nothing none) some)
    (fun some => by
      rcases rooms with ⟨-, place, -⟩ | ⟨none, -⟩
      · omega
      · exact absurd (nothing none) some)
  have reached := filling.comes one scopes complete' shows rfl
  obtain ⟨imm, names, here, next, size, pending, emitted⟩ :=
    named_of_emitTarget two complete'' first.bounded
  refine ⟨rfl, piece.size, imm, names, here, next, reached.bind ?_, ?_⟩
  · rintro last ⟨_, arrived, a, b, rfl⟩
    exact (arrived.comes_before emitted).mono fun _ plain =>
      calling_of_rooms settled sound laid count rooms plain
  · intro back final results plain empty place spells room
    have behind : scene.site.Shows piece' back final :=
      .ofPlain pending second.bounded (size ▸ plain)
    rw [← place]
    exact comes_giveBlock three scopes complete behind pending empty small (by omega) spells

/-- The words of a result are stored above the argument block, the top of the operand stack
lowest, as the caller wants them. -/
theorem leads_popResult {block : Nat} {results rest : List Word}
    (stack : shown.stack = results ++ rest)
    (room : shown.base + 16 + block + 8 * results.length ≤ scene.site.top)
    (level : shown.floor ≤ shown.base) :
    scene.Leads (· = shown) (popResult block (List.range results.length)) fun _ final =>
      ∃ a bytes, final = { shown with a, stack := rest, bytes } ∧
        bytes.Spells (shown.base + 16 + block) results ∧
        ∀ place, (place < shown.base + 16 + block ∨
          shown.base + 16 + block + 8 * results.length ≤ place) → bytes place =
            shown.bytes place := by
  have below := scene.site.below
  unfold Memory.dataBase at below
  have each : ∀ (count start : Nat) (shown' : Shown) (words : List Word),
      shown'.base = shown.base → shown'.floor = shown.floor → words.length = count →
      shown'.stack = words ++ rest → start + count = results.length →
      scene.Leads (· = shown') (popResult block (List.range' start count)) fun _ final =>
        ∃ a bytes, final = { shown' with a, stack := rest, bytes } ∧
          bytes.Spells (shown.base + 16 + block + 8 * start) words ∧
          ∀ place, (place < shown.base + 16 + block + 8 * start ∨
            shown.base + 16 + block + 8 * results.length ≤ place) →
              bytes place = shown'.bytes place := by
    intro count
    induction count with
    | zero =>
      intro start shown' words base floor count stack _
      obtain rfl := List.length_eq_zero_iff.mp count
      refine .pure fun _ here => ⟨shown'.a, shown'.bytes, ?_, trivial, fun _ _ => rfl⟩
      rw [here, show rest = shown'.stack from stack.symm]
    | succ count ih =>
      intro start shown' words base floor length stack stop
      obtain ⟨word, words, rfl⟩ := List.exists_cons_of_length_eq_add_one length
      have natural : (0 : Int) ≤ shown'.base + (16 + block + wordSize * start) := by
        unfold wordSize
        omega
      have place : (shown'.base + (16 + block + wordSize * start : Int)).toNat =
          shown.base + 16 + block + 8 * start := by
        unfold wordSize
        omega
      refine .bind (leads_pop rfl stack) fun _ => ?_
      refine .bind (leads_storeAt (shown.base + 16 + block + 8 * start) rfl (show Register.isShown
        .basePointer by rfl)
        (show AccessSize.ofCode? wordSize.toUInt8 = some .eight by decide) ?_ ?_) fun _ => ?_
      · have added := @address_add shown'.base (16 + block + wordSize * start)
          (by unfold wordSize; omega) (by unfold wordSize; omega) natural
        rw [place] at added
        exact added
      · refine ⟨?_, .inl ?_⟩
        · show shown'.floor ≤ _
          omega
        · simp only [AccessSize.bytes]
          omega
      refine .weaken (ih (start + 1) _ words base floor (by simpa using length) rfl (by omega)) ?_
      rintro _ _ ⟨a, bytes, rfl, spells, same⟩
      refine ⟨a, bytes, rfl, ⟨?_, ?_⟩, fun place outside => ?_⟩
      · rw [Bytes.word_congr fun place low high => same place
          (.inl (by simp only [AccessSize.bytes] at high; omega))]
        exact (Memory.word_store _ _ .eight word).trans (Memory.narrow_eight word)
      · rwa [show shown.base + 16 + block + 8 * start + 8 =
          shown.base + 16 + block + 8 * (start + 1) by omega]
      · rw [same place (by omega)]
        exact Memory.store_of_outside (by simp only [AccessSize.bytes]; omega)
  have all := each results.length 0 shown results rfl rfl rfl stack (Nat.zero_add _)
  rw [← List.range_eq_range'] at all
  exact all

end Scene

end TinLang
