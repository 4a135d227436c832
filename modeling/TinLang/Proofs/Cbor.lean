import Mathlib.Algebra.Group.Int.Defs
import Mathlib.Algebra.Group.Nat.Defs
import TinLang.Cbor.Decode

/-!
# Reading back written values

A value is writable when all its numbers fit the heads they are written with, its texts are in one
part, and its arrays and maps stay within the levels that a reader admits. Reading the bytes of a
writable value, followed by any bytes, returns the value and those bytes as long as the reader
admits as many items as the value has bytes (`readDeep_write`).
-/
namespace TinLang

namespace Text

/-- Appending a byte shifts a big-endian number by it. -/
theorem ofBigEndian_append (bytes : Text) (byte : UInt8) :
    ofBigEndian (bytes ++ [byte]) = ofBigEndian bytes * 256 + byte.toNat := by
  simp [ofBigEndian]

/-- A number that fits a count of bytes is read back from them. -/
theorem ofBigEndian_bigEndian (count number : Nat) (fits : number < 256 ^ count) :
    ofBigEndian (bigEndian count number) = number := by
  induction count generalizing number with
  | zero =>
    have zero : number = 0 := by simpa using fits
    simp [bigEndian, ofBigEndian, zero]
  | succ count ih =>
    have smaller : number / 256 < 256 ^ count := by
      rw [Nat.div_lt_iff_lt_mul (by decide)]
      rwa [Nat.pow_succ] at fits
    have byte : (number % 256).toUInt8.toNat = number % 256 := by
      simp only [UInt8.toNat_ofNat', Nat.toUInt8_eq]
      omega
    rw [bigEndian, ofBigEndian_append, ih _ smaller, byte]
    omega

end Text

namespace Cbor

/-- The lead byte of a head keeps the kind and the low bits apart. -/
private theorem toNat_lead {major info : Nat} (kind : major < 8) (low : info < 32) :
    (major * 32 + info).toUInt8.toNat = major * 32 + info := by
  simp only [Nat.toUInt8_eq, UInt8.toNat_ofNat']
  omega

/-- A head with its argument in following bytes is read back. -/
private theorem head?_following {major info size argument : Nat} (rest : Text) (kind : major < 8)
    (low : 24 ≤ info) (high : info < 28) (width : Nat.pow 2 (info - 24) = size)
    (fits : argument < 256 ^ size) :
    head? (((major * 32 + info).toUInt8 :: Text.bigEndian size argument) ++ rest) =
      some (major, .following size argument, rest) := by
  have lead := toNat_lead kind (show info < 32 by omega)
  have quotient : (major * 32 + info) / 32 = major := by omega
  have remainder : (major * 32 + info) % 32 = info := by omega
  have taken : take? size (Text.bigEndian size argument ++ rest) =
      some (Text.bigEndian size argument, rest) := by
    simp [take?]
  simp only [List.cons_append, head?, lead, quotient, remainder, width, taken, high,
    show ¬ info < 24 by omega, ↓reduceIte, bind, Option.bind, Text.length_bigEndian,
    Text.ofBigEndian_bigEndian size argument fits]

/-- A head whose argument is in the lead byte is read back as such. -/
theorem head?_head_direct (major : Nat) {argument : Nat} (rest : Text) (kind : major < 8)
    (small : argument < 24) :
    head? (head major argument ++ rest) = some (major, .direct argument, rest) := by
  have lead := toNat_lead kind (show argument < 32 by omega)
  have quotient : (major * 32 + argument) / 32 = major := by omega
  have remainder : (major * 32 + argument) % 32 = argument := by omega
  simp only [head, small, ↓reduceIte, List.cons_append, List.nil_append, head?, lead, quotient,
    remainder]

/-- A written head is read back with its kind and the number it was written with. -/
theorem head?_head (major : Nat) {argument : Nat} (rest : Text) (kind : major < 8)
    (fits : argument < 2 ^ 64) :
    ∃ found, head? (head major argument ++ rest) = some (major, found, rest) ∧
      found.number? = some argument := by
  by_cases small : argument < 24
  · exact ⟨.direct argument, head?_head_direct major rest kind small, rfl⟩
  · unfold head
    rw [if_neg small]
    split
    · exact ⟨.following 1 argument, head?_following rest kind (by decide) (by decide) rfl
        (by omega), rfl⟩
    · split
      · exact ⟨.following 2 argument, head?_following rest kind (by decide) (by decide) rfl
          (by omega), rfl⟩
      · split
        · exact ⟨.following 4 argument, head?_following rest kind (by decide) (by decide) rfl
            (by omega), rfl⟩
        · exact ⟨.following 8 argument, head?_following rest kind (by decide) (by decide) rfl
            (by omega), rfl⟩

/-- A value that a reader with some levels reads back. -/
inductive Writable : Nat → Value → Prop where
  | unsigned {depth number : Nat} (fits : number < 2 ^ 64) : Writable depth (.unsigned number)
  | negative {depth number : Nat} (fits : number < 2 ^ 64) : Writable depth (.negative number)
  | bytes {depth : Nat} {content : Text} : Writable depth (.bytes content)
  | text {depth : Nat} {content : Text} : Writable depth (.text [content])
  | array {depth : Nat} {items : List Value} (inner : ∀ item ∈ items, Writable depth item) :
    Writable (depth + 1) (.array items)
  | map {depth : Nat} {entries : List (Value × Value)}
    (keys : ∀ entry ∈ entries, Writable depth entry.1)
    (values : ∀ entry ∈ entries, Writable depth entry.2) : Writable (depth + 1) (.map entries)
  | simple {depth number : Nat} (small : number < 24) : Writable depth (.simple number)

variable {limit : Nat}

/-- The levels of a reader: the values inside are read with one level less. -/
def innerReader (limit : Nat) : Nat → Reader
  | 0 => fun _ => none
  | depth + 1 => readDeep limit depth

/-- A reader with some levels reads one item. -/
theorem readDeep_eq (depth : Nat) :
    readDeep limit depth = readItem limit (innerReader limit depth) := by
  cases depth <;> rfl

/-- An item without a tag is read by its head. -/
private theorem readItem_of_head {inner : Reader} {bytes rest : Text} {major : Nat}
    {argument : Argument} (found : head? bytes = some (major, argument, rest)) (plain : major ≠ 6) :
    readItem limit inner bytes = readPlain limit inner major argument rest := by
  simp [readItem, found, plain]

/-- Values read back one by one are read back in sequence. -/
private theorem readCount_writeItems {reader : Reader} {items : List Value}
    (each : ∀ item ∈ items, ∀ rest, reader (item.write ++ rest) = some (item, rest))
    (rest : Text) : readCount reader items.length (writeItems items ++ rest) = some
    (items, rest) := by
  induction items with
  | nil => rfl
  | cons item items ih =>
    have first := each item (by simp) (writeItems items ++ rest)
    have others := ih fun other mem => each other (by simp [mem])
    simp [readCount, writeItems, List.append_assoc, first, others]

/-- The keys and values of a map in the order they are written. -/
def flattened : List (Value × Value) → List Value
  | [] => []
  | (key, value) :: entries => key :: value :: flattened entries

private theorem writeEntries_eq (entries : List (Value × Value)) :
    writeEntries entries = writeItems (flattened entries) := by
  induction entries with
  | nil => rfl
  | cons entry entries ih => simp [writeEntries, flattened, writeItems, ih, List.append_assoc]

private theorem entries?_flattened (entries : List (Value × Value)) :
    entries? (flattened entries) = some entries := by
  induction entries with
  | nil => rfl
  | cons entry entries ih => simp [flattened, entries?, ih]

private theorem length_flattened (entries : List (Value × Value)) :
    (flattened entries).length = entries.length * 2 := by
  induction entries with
  | nil => rfl
  | cons entry entries ih =>
    simp only [flattened, List.length_cons, ih]
    omega

private theorem mem_flattened {entries : List (Value × Value)} {item : Value}
    (mem : item ∈ flattened entries) : ∃ entry ∈ entries, item = entry.1 ∨ item = entry.2 := by
  induction entries with
  | nil => simp [flattened] at mem
  | cons entry entries ih =>
    simp only [flattened, List.mem_cons] at mem
    rcases mem with same | same | later
    · exact ⟨entry, by simp, .inl same⟩
    · exact ⟨entry, by simp, .inr same⟩
    · obtain ⟨found, inside, which⟩ := ih later
      exact ⟨found, by simp [inside], which⟩

/-- No value is written without a byte. -/
theorem length_head (major argument : Nat) : 0 < (head major argument).length := by
  unfold head
  repeat' split
  all_goals simp

/-- An item has no more bytes than a sequence with it, and the sequence as many as it has items. -/
theorem length_writeItems (items : List Value) : items.length ≤ (writeItems items).length ∧
    ∀ item ∈ items, item.write.length ≤ (writeItems items).length := by
  induction items with
  | nil => simp
  | cons first items ih =>
    have some : 0 < first.write.length := by
      cases first <;> simp only [Value.write, List.length_append, List.length_cons] <;>
        first
          | exact length_head _ _
          | exact Nat.lt_of_lt_of_le (length_head _ _) (Nat.le_add_right _ _)
          | exact Nat.succ_pos _
    rw [writeItems, List.length_append, List.length_cons]
    refine ⟨by omega, fun item mem => ?_⟩
    rcases List.mem_cons.mp mem with rfl | later
    · exact Nat.le_add_right _ _
    · exact Nat.le_trans (ih.2 item later) (Nat.le_add_left _ _)

/-- Reading the bytes of a writable value, followed by any bytes, returns the value and those
bytes. -/
theorem readDeep_write {depth : Nat} {value : Value} (writable : Writable depth value)
    (short : value.write.length < 2 ^ 64) (admitted : value.write.length ≤ limit) (rest : Text) :
    readDeep limit depth (value.write ++ rest) = some (value, rest) := by
  induction writable generalizing rest with
  | @unsigned depth number fits =>
    obtain ⟨argument, found, number⟩ := head?_head 0 rest (by decide) fits
    rw [readDeep_eq, Value.write, readItem_of_head found (by decide)]
    simp [readPlain, number]
  | @negative depth number fits =>
    obtain ⟨argument, found, number⟩ := head?_head 1 rest (by decide) fits
    rw [readDeep_eq, Value.write, readItem_of_head found (by decide)]
    simp [readPlain, number]
  | @bytes depth content =>
    rw [Value.write, List.length_append] at short
    obtain ⟨argument, found, number⟩ := head?_head 2 (content ++ rest) (by decide)
      (Nat.lt_of_le_of_lt (Nat.le_add_left _ _) short)
    rw [readDeep_eq, Value.write, List.append_assoc, readItem_of_head found (by decide)]
    simp [readPlain, readString, number, take?]
  | @text depth content =>
    have written : (Value.text [content]).write = head 3 content.length ++ content := by
      simp [Value.write]
    rw [written, List.length_append] at short
    obtain ⟨argument, found, number⟩ := head?_head 3 (content ++ rest) (by decide)
      (Nat.lt_of_le_of_lt (Nat.le_add_left _ _) short)
    rw [readDeep_eq, written, List.append_assoc, readItem_of_head found (by decide)]
    simp [readPlain, readString, number, take?]
  | @array depth items inner ih =>
    obtain ⟨many, each⟩ := length_writeItems items
    rw [Value.write, List.length_append] at short admitted
    obtain ⟨argument, found, number⟩ := head?_head 4 (writeItems items ++ rest)
      (by decide) (show items.length < 2 ^ 64 by omega)
    have read := readCount_writeItems (fun item mem => ih item mem
      (by have := each item mem; omega) (by have := each item mem; omega)) rest
    have few : items.length ≤ limit := by omega
    rw [readDeep_eq, Value.write, List.append_assoc, readItem_of_head found (by decide)]
    simp [readPlain, readItems, number, few, innerReader, read]
  | @map depth entries keys values keysRead valuesRead =>
    obtain ⟨many, parts⟩ := length_writeItems (flattened entries)
    rw [length_flattened] at many
    rw [Value.write, List.length_append, writeEntries_eq] at short admitted
    obtain ⟨argument, found, number⟩ := head?_head 5 (writeEntries entries ++ rest)
      (by decide) (show entries.length < 2 ^ 64 by omega)
    have each : ∀ item ∈ flattened entries, ∀ rest,
        readDeep limit depth (item.write ++ rest) = some (item, rest) := by
      intro item mem rest
      have part := parts item mem
      obtain ⟨entry, inside, rfl | rfl⟩ := mem_flattened mem
      · exact keysRead entry inside (by omega) (by omega) rest
      · exact valuesRead entry inside (by omega) (by omega) rest
    have read := readCount_writeItems each rest
    have few : entries.length ≤ limit := by omega
    rw [length_flattened, ← writeEntries_eq] at read
    rw [readDeep_eq, Value.write, List.append_assoc, readItem_of_head found (by decide)]
    simp [readPlain, readItems, number, few, innerReader, read, entries?_flattened]
  | @simple depth number small =>
    rw [readDeep_eq, Value.write,
      readItem_of_head (head?_head_direct 7 rest (by decide) small) (by decide)]
    simp [readPlain, primitive?]

/-- The bytes of a writable value hold that value. -/
theorem read?_write {value : Value} (writable : Writable maxDepth value)
    (short : value.write.length < 2 ^ 64) (admitted : value.write.length ≤ limit) :
    read? limit value.write = some value := by
  have read := readDeep_write writable short admitted []
  rw [List.append_nil] at read
  simp [read?, read]

/-- A value that is writable with some levels is so with more. -/
theorem Writable.mono {depth more : Nat} {value : Value} (writable : Writable depth value)
    (le : depth ≤ more) : Writable more value := by
  induction writable generalizing more with
  | unsigned fits => exact .unsigned fits
  | negative fits => exact .negative fits
  | bytes => exact .bytes
  | text => exact .text
  | array _ ih =>
    obtain ⟨more, rfl⟩ : ∃ less, more = less + 1 := ⟨more - 1, by omega⟩
    exact .array fun item mem => ih item mem (by omega)
  | map _ _ keys values =>
    obtain ⟨more, rfl⟩ : ∃ less, more = less + 1 := ⟨more - 1, by omega⟩
    exact .map (fun entry mem => keys entry mem (by omega))
      fun entry mem => values entry mem (by omega)
  | simple small => exact .simple small

end Cbor

end TinLang
