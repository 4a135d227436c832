import TinLang.Proofs.Machine.Memory
import TinLang.Proofs.Settled
import TinLang.Semantics.Value

/-!
# Values at their places

A value in memory is the words of its scalars, each at its place. What is stored in places that do
not overlap is read back, cut to the sizes of the scalars, and no other place changes.
-/
namespace TinLang

namespace Slot

/-- One access reaches the whole scalar. -/
def Sized (slot : Slot) : Prop :=
  ∃ size, AccessSize.ofCode? slot.size.toUInt8 = some size ∧ size.bytes = slot.size

/-- Two places do not overlap. -/
def Apart (first second : Slot) : Prop :=
  first.offset + first.size ≤ second.offset ∨ second.offset + second.size ≤ first.offset

/-- The place at a distance. -/
def shift (distance : Int) (slot : Slot) : Slot := ⟨slot.offset + distance, slot.size⟩

end Slot

namespace Shape

mutual

/-- A value at a distance has its scalars at a distance. -/
theorem slots_add (shape : Shape) (offset distance : Int) :
    shape.slots (offset + distance) = (shape.slots offset).map (Slot.shift distance) := by
  cases shape with
  | scalar size => rfl
  | record parts => exact partSlots_add parts offset distance

theorem partSlots_add (parts : List (Nat × Shape)) (offset distance : Int) :
    partSlots (offset + distance) parts = (partSlots offset parts).map (Slot.shift distance) := by
  cases parts with
  | nil => rfl
  | cons part parts =>
    obtain ⟨place, shape⟩ := part
    have same : offset + distance + place = offset + place + distance := by omega
    rw [partSlots, partSlots, same, slots_add shape, partSlots_add parts, List.map_append]

end

/-- One access reaches each scalar of a value. -/
def Sized (shape : Shape) : Prop := ∀ (offset : Int), ∀ slot ∈ shape.slots offset, slot.Sized

end Shape

namespace StructTable

variable {table : StructTable}

/-- Values of members lie in structs as they do elsewhere. -/
def Nested (table : StructTable) : Prop :=
  ∀ name, ∀ mem ∈ (table.get name).members, mem.shape = table.shapeOf mem.type

mutual

theorem Nested.sized_of_eq (nested : table.Nested) (sound : table.Sound) {shape : Shape}
    {type : ValueType} (placed : type ≠ .void) (same : table.shapeOf type = shape) :
    shape.Sized := by
  cases shape with
  | scalar size =>
    intro offset slot mem
    obtain rfl := List.mem_singleton.mp mem
    cases struct : type.structName? with
    | some name => simp [StructTable.shapeOf, struct, StructType.shape] at same
    | none =>
      rw [StructTable.shapeOf, struct, Shape.scalar.injEq] at same
      subst same
      obtain ⟨base, pointer⟩ := type
      cases pointer with
      | succ pointer => exact ⟨.eight, rfl, rfl⟩
      | zero =>
        cases base with
        | void => exact absurd rfl placed
        | struct name => simp [ValueType.structName?] at struct
        | int | float => exact ⟨.four, rfl, rfl⟩
        | char | bool => exact ⟨.one, rfl, rfl⟩
  | record parts =>
    intro offset slot mem
    obtain ⟨part, inside, found⟩ := Shape.mem_partSlots mem
    cases struct : type.structName? with
    | none => simp [StructTable.shapeOf, struct] at same
    | some name =>
      have known : (table.get name).shape = .record parts := by
        rw [StructTable.shapeOf, struct] at same
        exact same
      have members := Shape.record.inj known
      have each : ∀ part ∈ parts, ∃ type : ValueType,
          type ≠ .void ∧ table.shapeOf type = part.2 := by
        intro part inside
        obtain ⟨inner, found, rfl⟩ := List.mem_map.mp (members ▸ inside)
        exact ⟨inner.type, (sound.get name inner found).1, (nested name inner found).symm⟩
      exact Nested.sized_of_mem nested sound each part inside _ slot found

theorem Nested.sized_of_mem (nested : table.Nested) (sound : table.Sound)
    {parts : List (Nat × Shape)} (each : ∀ part ∈ parts, ∃ type : ValueType, type ≠ .void ∧
      table.shapeOf type = part.2) : ∀ part ∈ parts, part.2.Sized := by
  cases parts with
  | nil => simp
  | cons part parts =>
    obtain ⟨place, shape⟩ := part
    obtain ⟨type, placed, same⟩ := each (place, shape) List.mem_cons_self
    have first := Nested.sized_of_eq nested sound placed same
    have rest := Nested.sized_of_mem nested sound fun other mem =>
      each other (List.mem_cons_of_mem _ mem)
    intro other mem
    rcases List.mem_cons.mp mem with rfl | later
    · exact first
    · exact rest other later

end

/-- One access reaches each scalar of a value. -/
theorem Nested.sized (nested : table.Nested) (sound : table.Sound) {type : ValueType}
    (placed : type ≠ .void) : (table.shapeOf type).Sized :=
  nested.sized_of_eq sound placed rfl

end StructTable

/-- One access reaches each scalar of a value in a settled environment. -/
theorem Environment.Settled.sized {env : Environment} (settled : env.Settled)
    (sound : env.structs.Sound) {type : ValueType} (placed : type ≠ .void) :
    (env.structs.shapeOf type).Sized :=
  StructTable.Nested.sized settled.members sound placed

namespace Bytes

/-- The word of the scalar at a place. -/
def scalar (bytes : Bytes) (slot : Slot) : Word :=
  match AccessSize.ofCode? slot.size.toUInt8 with
  | some size => bytes.word slot.offset.toNat size
  | none => 0

/-- The bytes with another scalar at a place. -/
def put (bytes : Bytes) (slot : Slot) (word : Word) : Bytes :=
  match AccessSize.ofCode? slot.size.toUInt8 with
  | some size => bytes.store slot.offset.toNat size word
  | none => bytes

/-- The words of the scalars at some places. -/
def read (bytes : Bytes) (slots : List Slot) : List Word := slots.map bytes.scalar

/-- The bytes with other scalars at some places. -/
def keep (bytes : Bytes) : List Slot → List Word → Bytes
  | slot :: slots, word :: words => (bytes.keep slots words).put slot word
  | _, _ => bytes

variable {bytes others : Bytes} {slot other : Slot} {slots : List Slot} {word : Word}

theorem scalar_congr (sized : slot.Sized) (low : 0 ≤ slot.offset)
    (same : ∀ place : Nat, slot.offset ≤ place → (place : Int) < slot.offset + slot.size →
      bytes place = others place) : bytes.scalar slot = others.scalar slot := by
  obtain ⟨size, width, count⟩ := sized
  rw [scalar, scalar, width]
  exact word_congr fun place above below => same place (by omega) (by omega)

theorem read_congr (sized : ∀ slot ∈ slots, slot.Sized ∧ 0 ≤ slot.offset)
    (same : ∀ slot ∈ slots, ∀ place : Nat, slot.offset ≤ place →
      (place : Int) < slot.offset + slot.size → bytes place = others place) :
    bytes.read slots = others.read slots :=
  List.map_congr_left fun slot mem =>
    scalar_congr (sized slot mem).1 (sized slot mem).2 (same slot mem)

/-- A stored scalar is cut to its size. -/
theorem scalar_put (sized : slot.Sized) : (bytes.put slot word).scalar slot = narrowTo
    slot.size word := by
  obtain ⟨size, width, -⟩ := sized
  rw [scalar, put, narrowTo, width]
  exact Memory.word_store bytes _ size word

theorem put_of_outside (sized : slot.Sized) (low : 0 ≤ slot.offset) {place : Nat}
    (outside : (place : Int) < slot.offset ∨ slot.offset + slot.size ≤ place) :
    bytes.put slot word place = bytes place := by
  obtain ⟨size, width, count⟩ := sized
  rw [put, width]
  exact Memory.store_of_outside (by omega)

theorem keep_of_outside (sized : ∀ slot ∈ slots, slot.Sized ∧ 0 ≤ slot.offset) {place : Nat}
    (outside : ∀ slot ∈ slots, (place : Int) < slot.offset ∨ slot.offset + slot.size ≤ place)
    (words : List Word) : bytes.keep slots words place = bytes place := by
  induction slots generalizing words with
  | nil => rfl
  | cons slot slots ih =>
    cases words with
    | nil => rfl
    | cons word words =>
      obtain ⟨accessed, low⟩ := sized slot List.mem_cons_self
      rw [keep, put_of_outside accessed low (outside slot List.mem_cons_self)]
      exact ih (fun other mem => sized other (List.mem_cons_of_mem _ mem))
        (fun other mem => outside other (List.mem_cons_of_mem _ mem)) words

/-- Stored scalars leave the places alone that are apart from theirs. -/
theorem scalar_keep (sized : ∀ slot ∈ slots, slot.Sized ∧ 0 ≤ slot.offset)
    (accessed : other.Sized) (low : 0 ≤ other.offset)
    (apart : ∀ slot ∈ slots, other.Apart slot) (words : List Word) :
    (bytes.keep slots words).scalar other = bytes.scalar other :=
  scalar_congr accessed low fun place above below =>
    keep_of_outside sized (fun slot mem => by
      rcases apart slot mem with before | behind
      · left
        omega
      · right
        omega) words

theorem read_keep_of_apart {more : List Slot} (sized : ∀ slot ∈ slots, slot.Sized ∧ 0 ≤ slot.offset)
    (accessed : ∀ slot ∈ more, slot.Sized ∧ 0 ≤ slot.offset)
    (apart : ∀ other ∈ more, ∀ slot ∈ slots, other.Apart slot) (words : List Word) :
    (bytes.keep slots words).read more = bytes.read more :=
  List.map_congr_left fun other mem =>
    scalar_keep sized (accessed other mem).1 (accessed other mem).2 (apart other mem) words

/-- What is stored in places that do not overlap is read back, cut to their sizes. -/
theorem read_keep {words : List Word} (sized : ∀ slot ∈ slots, slot.Sized ∧ 0 ≤ slot.offset)
    (apart : slots.Pairwise Slot.Apart) (count : words.length = slots.length) :
    (bytes.keep slots words).read slots = List.zipWith narrowTo (slots.map Slot.size) words := by
  induction slots generalizing words with
  | nil => rfl
  | cons slot slots ih =>
    cases words with
    | nil => simp at count
    | cons word words =>
      obtain ⟨first, rest⟩ := List.pairwise_cons.mp apart
      obtain ⟨accessed, low⟩ := sized slot List.mem_cons_self
      have others := fun other mem => sized other (List.mem_cons_of_mem slot mem)
      rw [read, List.map_cons, List.map_cons, List.zipWith_cons_cons, keep, scalar_put accessed]
      congr 1
      rw [← ih others rest (by simpa using count)]
      refine List.map_congr_left fun other mem => scalar_congr (others other mem).1
        (others other mem).2 fun place above below => put_of_outside accessed low ?_
      rcases first other mem with before | behind
      · right
        omega
      · left
        omega

theorem read_append (slots more : List Slot) :
    bytes.read (slots ++ more) = bytes.read slots ++ bytes.read more := List.map_append

theorem length_read (slots : List Slot) : (bytes.read slots).length = slots.length :=
  List.length_map _

end Bytes

end TinLang
