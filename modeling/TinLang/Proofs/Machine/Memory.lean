import Mathlib.Algebra.Group.Int.Defs
import Mathlib.Algebra.Group.Nat.Defs
import TinLang.Machine.Memory

/-!
# Bytes at addresses

What a memory holds is a function from addresses to bytes. A word is read back as it was stored,
cut to the size of the access, and a store changes no byte outside its range.
-/
namespace TinLang

/-- What stands at every address. -/
abbrev Bytes := Nat → UInt8

namespace Bytes

/-- The bytes of a range in order. -/
def range (bytes : Bytes) (addr count : Nat) : Text :=
  (List.range count).map fun index => bytes (addr + index)

/-- The bytes with others from an address on. -/
def overwrite (bytes : Bytes) (addr : Nat) (text : Text) : Bytes := fun place =>
  if addr ≤ place then (text[place - addr]?).getD (bytes place) else bytes place

/-- The word of some size at an address, extended by its sign. -/
def word (bytes : Bytes) (addr : Nat) (size : AccessSize) : Word :=
  Memory.narrow size (Memory.numberOf (bytes.range addr size.bytes))

/-- The bytes with the low bytes of a word at an address. -/
def store (bytes : Bytes) (addr : Nat) (size : AccessSize) (value : Word) : Bytes :=
  bytes.overwrite addr (Memory.bytesOf size.bytes value.toNat)

theorem length_range (bytes : Bytes) (addr count : Nat) :
    (bytes.range addr count).length = count := by
  simp [range]

theorem range_succ (bytes : Bytes) (addr count : Nat) :
    bytes.range addr (count + 1) = bytes addr :: bytes.range (addr + 1) count := by
  simp [range, List.range_succ_eq_map, Function.comp_def, Nat.add_assoc, Nat.add_comm 1]

theorem range_congr {bytes others : Bytes} {addr count : Nat}
    (same : ∀ place, addr ≤ place → place < addr + count → bytes place = others place) :
    bytes.range addr count = others.range addr count := by
  apply List.map_congr_left
  intro index mem
  have bound := List.mem_range.mp mem
  exact same _ (by omega) (by omega)

/-- A word depends only on the bytes of its range. -/
theorem word_congr {bytes others : Bytes} {addr : Nat} {size : AccessSize}
    (same : ∀ place, addr ≤ place → place < addr + size.bytes → bytes place = others place) :
    bytes.word addr size = others.word addr size := by
  rw [word, word, range_congr same]

theorem overwrite_of_outside {bytes : Bytes} {addr place : Nat} {text : Text}
    (outside : place < addr ∨ addr + text.length ≤ place) :
    bytes.overwrite addr text place = bytes place := by
  unfold overwrite
  split
  · next above =>
    have past : text.length ≤ place - addr := by omega
    rw [List.getElem?_eq_none past]
    rfl
  · rfl

theorem range_overwrite (bytes : Bytes) (addr : Nat) (text : Text) :
    (bytes.overwrite addr text).range addr text.length = text := by
  apply List.ext_getElem (by simp [range])
  intro index first second
  simp [range, overwrite, List.getElem?_eq_getElem second]

theorem overwrite_nil (bytes : Bytes) (addr : Nat) : bytes.overwrite addr [] = bytes := by
  funext place
  simp [overwrite]

theorem overwrite_cons (bytes : Bytes) (addr : Nat) (byte : UInt8) (text : Text) :
    bytes.overwrite addr (byte :: text) =
      Bytes.overwrite (bytes.overwrite addr [byte]) (addr + 1) text := by
  funext place
  unfold overwrite
  by_cases here : place = addr
  · subst here
    have past : ¬ place + 1 ≤ place := by omega
    simp [past]
  · by_cases above : addr ≤ place
    · have later : addr + 1 ≤ place := by omega
      have index : place - addr = place - (addr + 1) + 1 := by omega
      simp [above, later, index]
    · have before : ¬ addr + 1 ≤ place := by omega
      simp [above, before]

end Bytes

namespace Memory

theorem length_bytesOf (count number : Nat) : (bytesOf count number).length = count := by
  induction count generalizing number with
  | zero => rfl
  | succ count ih => simp [bytesOf, ih]

theorem numberOf_bytesOf (count number : Nat) :
    numberOf (bytesOf count number) = number % 256 ^ count := by
  induction count generalizing number with
  | zero => simp [bytesOf, numberOf, Nat.mod_one]
  | succ count ih =>
    have byte : ((number % 256).toUInt8).toNat = number % 256 := by
      simp [Nat.toUInt8]
    rw [bytesOf, numberOf, ih, byte, Nat.pow_succ, Nat.mul_comm (256 ^ count), Nat.mod_mul]

theorem narrow_mod (size : AccessSize) (number : Nat) :
    narrow size (number % 256 ^ size.bytes) = narrow size number := by
  have power : 256 ^ size.bytes = 2 ^ (8 * size.bytes) := by
    rw [Nat.pow_mul]
  have same : BitVec.ofNat (8 * size.bytes) (number % 256 ^ size.bytes) =
      BitVec.ofNat (8 * size.bytes) number := by
    apply BitVec.eq_of_toNat_eq
    simp [power]
  rw [narrow, narrow, same]

/-- What is stored is read back. -/
theorem word_store (bytes : Bytes) (addr : Nat) (size : AccessSize) (value : Word) :
    (bytes.store addr size value).word addr size = narrow size value.toNat := by
  have count := length_bytesOf size.bytes value.toNat
  have stored := bytes.range_overwrite addr (bytesOf size.bytes value.toNat)
  rw [count] at stored
  rw [Bytes.word, Bytes.store, stored, numberOf_bytesOf, narrow_mod]

theorem store_of_outside {bytes : Bytes} {addr place : Nat} {size : AccessSize} {value : Word}
    (outside : place < addr ∨ addr + size.bytes ≤ place) :
    bytes.store addr size value place = bytes place := by
  apply Bytes.overwrite_of_outside
  rw [length_bytesOf]
  exact outside

/-- A word is not affected by a store elsewhere. -/
theorem word_store_of_apart {bytes : Bytes} {addr other : Nat} {size width : AccessSize}
    {value : Word} (apart : other + width.bytes ≤ addr ∨ addr + size.bytes ≤ other) :
    (bytes.store addr size value).word other width = bytes.word other width := by
  apply Bytes.word_congr
  intro place low high
  exact store_of_outside (by omega)

/-- A word of eight bytes is not cut. -/
theorem narrow_eight (value : Word) : narrow .eight value.toNat = value := by
  simp [narrow, AccessSize.bytes]

/-- Cutting keeps the low bits. -/
theorem ofNat_narrow (size : AccessSize) (number : Nat) :
    BitVec.ofNat (8 * size.bytes) (narrow size number).toNat =
      BitVec.ofNat (8 * size.bytes) number := by
  have fits : 8 * size.bytes ≤ 64 := by cases size <;> decide
  rw [BitVec.ofNat_toNat, narrow]
  apply BitVec.eq_of_getElem_eq
  intro index bound
  have small : index < 64 := by omega
  simp [BitVec.getElem_signExtend, bound, small]

theorem narrow_narrow (size : AccessSize) (number : Nat) :
    narrow size (narrow size number).toNat = narrow size number := by
  rw [narrow, ofNat_narrow, narrow]

/-- The low bytes of a number are those of its remainder. -/
theorem bytesOf_mod (count number : Nat) :
    bytesOf count (number % 256 ^ count) = bytesOf count number := by
  induction count generalizing number with
  | zero => rfl
  | succ count ih =>
    have low : number % 256 ^ (count + 1) % 256 = number % 256 :=
      Nat.mod_mod_of_dvd _ (Nat.dvd_mul_left 256 (256 ^ count))
    have high : number % 256 ^ (count + 1) / 256 = number / 256 % 256 ^ count := by
      rw [Nat.pow_succ, Nat.mul_comm, Nat.mod_mul_right_div_self]
    rw [bytesOf, bytesOf, low, high, ih]

/-- Bytes are those of the number that they write. -/
theorem bytesOf_numberOf (text : Text) : bytesOf text.length (numberOf text) = text := by
  induction text with
  | nil => rfl
  | cons byte text ih =>
    have small := byte.toNat_lt
    have low : (byte.toNat + 256 * numberOf text) % 256 = byte.toNat := by omega
    have high : (byte.toNat + 256 * numberOf text) / 256 = numberOf text := by omega
    rw [List.length_cons, numberOf, bytesOf, low, high, ih]
    simp

/-- The bytes of a word that was loaded are those that it was loaded from. -/
theorem bytesOf_word (bytes : Bytes) (addr : Nat) (size : AccessSize) :
    bytesOf size.bytes (bytes.word addr size).toNat = bytes.range addr size.bytes := by
  have power : 256 ^ size.bytes = 2 ^ (8 * size.bytes) := by
    rw [Nat.pow_mul]
  have same : (bytes.word addr size).toNat % 256 ^ size.bytes =
      numberOf (bytes.range addr size.bytes) % 256 ^ size.bytes := by
    have low := congrArg BitVec.toNat (ofNat_narrow size (numberOf (bytes.range addr size.bytes)))
    rw [BitVec.toNat_ofNat, BitVec.toNat_ofNat, ← power] at low
    exact low
  have whole := bytesOf_numberOf (bytes.range addr size.bytes)
  rw [Bytes.length_range] at whole
  rw [← bytesOf_mod, same, bytesOf_mod, whole]

/-- A word that was loaded is stored byte by byte. -/
theorem store_word (bytes others : Bytes) (source target : Nat) {size : AccessSize} {index : Nat}
    (small : index < size.bytes) :
    (others.store target size (bytes.word source size)) (target + index) = bytes
    (source + index) := by
  rw [Bytes.store, bytesOf_word, Bytes.overwrite, if_pos (Nat.le_add_right _ _),
    Nat.add_sub_cancel_left]
  simp [Bytes.range, small]

variable {memory : Memory}

/-- A range lies in the stack or in the data segment. -/
def Covers (memory : Memory) (addr count : Nat) : Prop :=
  (stackBase ≤ addr ∧ addr + count ≤ memory.stackTop) ∨
    (dataBase ≤ addr ∧ addr + count ≤ dataBase + memory.dataSize)

theorem addressable_of_covers {addr count : Nat} (covers : memory.Covers addr count) :
    memory.addressable addr count = true := by
  unfold addressable Heap.within
  rcases covers with ⟨low, high⟩ | ⟨low, high⟩
  · have size : addr - stackBase + count ≤ memory.stackSize := by
      unfold stackTop at high
      omega
    simp [low, size]
  · have size : addr - dataBase + count ≤ memory.dataSize := by omega
    simp [low, size]

theorem bytesAt_eq (addr count : Nat) :
    memory.bytesAt addr count = Bytes.range memory.byteAt addr count := by
  induction count generalizing addr with
  | zero => rfl
  | succ count ih => rw [bytesAt, ih, Bytes.range_succ]

theorem byteAt_setByte (addr : Nat) (byte : UInt8) :
    (memory.setByte addr byte).byteAt = Bytes.overwrite memory.byteAt addr [byte] := by
  funext place
  by_cases here : place = addr
  · subst here
    simp [Bytes.overwrite]
  · rw [byteAt_setByte_of_ne memory byte (Ne.symm here), Bytes.overwrite_of_outside]
    simp only [List.length_singleton]
    omega

theorem byteAt_setBytes (addr : Nat) (text : Text) :
    (memory.setBytes addr text).byteAt = Bytes.overwrite memory.byteAt addr text := by
  induction text generalizing memory addr with
  | nil => rw [setBytes, Bytes.overwrite_nil]
  | cons byte text ih => rw [setBytes, ih, byteAt_setByte, ← Bytes.overwrite_cons]

@[simp] theorem stackTop_setBytes (addr : Nat) (text : Text) :
    (memory.setBytes addr text).stackTop = memory.stackTop := by
  induction text generalizing memory addr with
  | nil => rfl
  | cons byte text ih => rw [setBytes, ih]; rfl

@[simp] theorem dataSize_setBytes (addr : Nat) (text : Text) :
    (memory.setBytes addr text).dataSize = memory.dataSize := by
  induction text generalizing memory addr with
  | nil => rfl
  | cons byte text ih => rw [setBytes, ih]; rfl

theorem load?_of_covers {addr : Nat} {size : AccessSize}
    (covers : memory.Covers addr size.bytes) :
    memory.load? addr size = some (Bytes.word memory.byteAt addr size) := by
  rw [load?, read?, addressable_of_covers covers, if_pos rfl, Int.toNat_natCast, bytesAt_eq]
  rfl

/-- A store inside the stack or the data segment succeeds. -/
theorem store?_of_covers {addr : Nat} {size : AccessSize} (value : Word)
    (covers : memory.Covers addr size.bytes) :
    ∃ after, memory.store? addr size value = some after ∧
      after.byteAt = Bytes.store memory.byteAt addr size value ∧
      after.stackTop = memory.stackTop ∧ after.dataSize = memory.dataSize := by
  have count := length_bytesOf size.bytes value.toNat
  refine ⟨memory.setBytes addr (bytesOf size.bytes value.toNat), ?_, byteAt_setBytes _ _,
    by simp, by simp⟩
  rw [store?, write?, count, addressable_of_covers covers, if_pos rfl]

/-- Clearing a range of the stack succeeds. -/
theorem clear?_of_covers {addr count : Nat} (covers : memory.Covers addr count) :
    ∃ after, memory.clear? addr count = some after ∧
      after.byteAt = Bytes.overwrite memory.byteAt addr (List.replicate count 0) ∧
      after.stackTop = memory.stackTop ∧ after.dataSize = memory.dataSize := by
  refine ⟨memory.setBytes addr (List.replicate count 0), ?_, byteAt_setBytes _ _, by simp,
    by simp⟩
  rw [clear?, addressable_of_covers covers, if_pos rfl, Int.toNat_natCast]

end Memory

end TinLang
