import Mathlib.Data.List.Nodup
import TinLang.Image.Records
import TinLang.Proofs.Cbor
import TinLang.Proofs.Glyphs
import TinLang.Proofs.Image

/-!
# The codec of binary objects

The records of images are written as binary objects from which a reader finds the same fields
again, so the codec of binary objects is lawful when it admits as many items as there can be bytes
(`lawful_cbor`).
-/
namespace TinLang

open Cbor (Value Writable maxDepth)
open Cbor.Value (Key)

variable {piece : StoredPiece} {number : Int} {depth : Nat} {body : Body}

namespace Cbor.Value

variable {value : Value}

/-- Items that are written are read back when all of them are good. -/
theorem mapM_eq_ite {α β : Type} {read : α → Option β} {good : β → Bool} {write : β → α}
    {items : List β}
    (each : ∀ item ∈ items, read (write item) = if good item then some item else none) :
    (items.map write).mapM read = if items.all good then some items else none := by
  induction items with
  | nil => simp
  | cons item items ih =>
    have first := each item List.mem_cons_self
    have others := ih fun other mem => each other (List.mem_cons_of_mem _ mem)
    rw [List.map_cons, List.mapM_cons, first, others, List.all_cons]
    cases good item <;> cases items.all good <;> rfl

/-- Each result of reading items comes from an item. -/
theorem mem_of_mapM {α β : Type} {read : α → Option β} {items : List α} {results : List β}
    (done : items.mapM read = some results) {result : β} (inside : result ∈ results) :
    ∃ item ∈ items, read item = some result := by
  induction items generalizing results with
  | nil =>
    obtain rfl : [] = results := by simpa using done
    simp at inside
  | cons item items ih =>
    simp only [List.mapM_cons, Option.bind_eq_bind, Option.bind_eq_some_iff] at done
    obtain ⟨first, found, others, later, same⟩ := done
    obtain rfl := Option.some.inj same
    rcases List.mem_cons.mp inside with rfl | mem
    · exact ⟨item, List.mem_cons_self, found⟩
    · obtain ⟨source, listed, read⟩ := ih later mem
      exact ⟨source, List.mem_cons_of_mem _ listed, read⟩

/-- A number that is read lies between the bounds. -/
theorem toInt?_bounds {low high : Int} (read : value.toInt? low high = some number) :
    low ≤ number ∧ number ≤ high := by
  have checked : ∀ candidate : Int, (if low ≤ candidate ∧ candidate ≤ high then some candidate
      else none) = some number → low ≤ number ∧ number ≤ high := by
    intro candidate same
    split at same
    · rename_i bounds
      exact Option.some.inj same ▸ bounds
    · contradiction
  simp only [toInt?, Option.bind_eq_bind, Option.bind_eq_some_iff] at read
  obtain ⟨plain, -, found⟩ := read
  split at found
  case h_5 => split at found <;> exact checked _ found
  all_goals first
    | exact checked _ found
    | simp at found

/-- A text that is read is UTF-8. -/
theorem isUtf8_toText? {text : Text} (read : value.toText? = some text) : text.isUtf8 := by
  simp only [toText?, Option.bind_eq_bind, Option.bind_eq_some_iff] at read
  obtain ⟨plain, -, same⟩ := read
  split at same
  · split at same
    · rename_i each
      obtain rfl := Option.some.inj same
      exact Text.isUtf8_flatten each
    · contradiction
  · split at same
    · obtain rfl := Option.some.inj same
      rfl
    · contradiction

/-- An integer within the bounds is read back. -/
theorem toInt?_int {low high : Int} (above : low ≤ number) (below : number ≤ high) :
    (int number).toInt? low high = some number := by
  cases number with
  | ofNat number =>
    have bounds : low ≤ (number : Int) ∧ (number : Int) ≤ high := ⟨above, below⟩
    simp [int, toInt?, untagged?, bounds]
  | negSucc number => simp [int, toInt?, untagged?, above, below]

/-- A 64-bit integer is read back. -/
theorem toInt64?_int (above : -2 ^ 63 ≤ number) (below : number < 2 ^ 63) :
    (int number).toInt64? = some number :=
  toInt?_int (by omega) (by omega)

/-- A text is read back exactly when it is UTF-8. -/
theorem toText?_string (content : Text) :
    (string content).toText? = if content.isUtf8 then some content else none := by
  simp [string, toText?, untagged?]

/-- A byte string is read back. -/
@[simp] theorem toBytes?_bytes (content : Text) : (bytes content).toBytes? =
  some (some content) := by
  simp [toBytes?, untagged?]

/-- A missing byte string is read as none. -/
@[simp] theorem toBytes?_null : null.toBytes? = some none := by
  simp [null, toBytes?, untagged?, toList?, isMissing]

/-- A byte string of the right length is read back. -/
theorem toFixedBytes?_bytes {size : Nat} {content : Text} (whole : content.length = size) :
    (bytes content).toFixedBytes? size = some content := by
  simp [toFixedBytes?, untagged?, ← whole]

/-- A list that is left out when it is empty is read item by item. -/
theorem toItems?_unlessEmpty {α : Type} (item : Value → Option α) (items : List Value) :
    ((Image.unlessEmpty items).getD .null).toItems? item = items.mapM item := by
  cases items with
  | nil => simp [Image.unlessEmpty, null, toItems?, toList?, untagged?, isMissing]
  | cons first items =>
    simp only [Image.unlessEmpty, List.isEmpty_cons, Bool.false_eq_true, ↓reduceIte,
      Option.getD_some, toItems?, toList?, untagged?, Option.bind_eq_bind, Option.bind_some]
    cases (first :: items).mapM item <;> rfl

/-- Items that are read come from items of the value. -/
theorem mem_of_toItems? {α : Type} {item : Value → Option α} {results : List α}
    (done : value.toItems? item = some results) {result : α} (inside : result ∈ results) :
    ∃ source, item source = some result := by
  obtain ⟨found, read, rfl⟩ := Option.map_eq_some_iff.mp done
  simp only [toList?, Option.bind_eq_bind, Option.bind_eq_some_iff] at read
  obtain ⟨plain, -, same⟩ := read
  split at same
  · simp only [Option.bind_eq_some_iff] at same
    obtain ⟨list, all, same⟩ := same
    obtain rfl := Option.some.inj same
    obtain ⟨source, -, read⟩ := mem_of_mapM all inside
    exact ⟨source, read⟩
  · split at same
    · obtain rfl := Option.some.inj same
      simp at inside
    · contradiction

/-- A table whose keys differ is read back in the order it is written. -/
theorem foldl_table (table pairs : List (Text × Int))
    (distinct : ((table ++ pairs).map Prod.fst).Nodup) :
    pairs.foldl (fun table (key, number) =>
      table.filter (fun entry => entry.1 != key) ++ [(key, number)]) table = table ++ pairs := by
  induction pairs generalizing table with
  | nil => simp
  | cons pair pairs ih =>
    obtain ⟨key, number⟩ := pair
    have fresh : table.filter (fun entry => entry.1 != key) = table := by
      rw [List.filter_eq_self]
      intro entry mem
      have apart : entry.1 ≠ key := by
        rintro rfl
        rw [List.map_append, List.nodup_append] at distinct
        exact distinct.2.2 entry.1 (List.mem_map_of_mem mem) entry.1 (by simp) rfl
      simpa using apart
    simp only [List.foldl_cons, fresh]
    rw [ih (table ++ [(key, number)]) (by simpa using distinct)]
    simp

/-- Entering pairs into a table of different keys keeps the keys different and adds pairs only. -/
theorem enter_pairs (pairs table : List (Text × Int)) (distinct : (table.map Prod.fst).Nodup) :
    let entered := pairs.foldl (fun table (key, number) =>
      table.filter (fun entry => entry.1 != key) ++ [(key, number)]) table
    (entered.map Prod.fst).Nodup ∧ ∀ entry ∈ entered, entry ∈ table ∨ entry ∈ pairs := by
  induction pairs generalizing table with
  | nil => exact ⟨distinct, fun entry mem => .inl mem⟩
  | cons pair pairs ih =>
    let kept := table.filter fun entry => entry.1 != pair.1
    have fresh : ((kept ++ [pair]).map Prod.fst).Nodup := by
      have others : (kept.map Prod.fst).Nodup :=
        distinct.sublist (List.filter_sublist.map Prod.fst)
      have absent : pair.1 ∉ kept.map Prod.fst := by
        intro mem
        obtain ⟨entry, inside, same⟩ := List.mem_map.mp mem
        have differ := (List.mem_filter.mp inside).2
        rw [same] at differ
        simp at differ
      rw [List.map_append, List.map_singleton, List.nodup_append]
      refine ⟨others, List.pairwise_singleton _ _, fun key inside other single => ?_⟩
      rw [List.mem_singleton.mp single]
      rintro rfl
      exact absent inside
    obtain ⟨keys, members⟩ := ih (kept ++ [pair]) fresh
    refine ⟨keys, fun entry mem => ?_⟩
    rcases members entry mem with inside | later
    · rcases List.mem_append.mp inside with old | new
      · exact .inl (List.mem_filter.mp old).1
      · exact .inr (List.mem_cons.mpr (.inl (List.mem_singleton.mp new)))
    · exact .inr (List.mem_cons_of_mem _ later)

/-- The keys of a table that is read are different UTF-8 texts, and its numbers have 64 bits. -/
theorem typed_toTable? {table : List (Text × Int)}
    (read : value.toTable? = some table) : (table.map Prod.fst).Nodup ∧
      ∀ entry ∈ table, entry.1.isUtf8 ∧ -2 ^ 63 ≤ entry.2 ∧ entry.2 < 2 ^ 63 := by
  simp only [toTable?, Option.bind_eq_bind, Option.bind_eq_some_iff] at read
  obtain ⟨plain, -, same⟩ := read
  split at same
  · simp only [Option.bind_eq_some_iff] at same
    obtain ⟨pairs, done, same⟩ := same
    obtain rfl := Option.some.inj same
    obtain ⟨keys, members⟩ := enter_pairs pairs [] List.nodup_nil
    refine ⟨keys, fun entry mem => ?_⟩
    have inside := (members entry mem).resolve_left List.not_mem_nil
    obtain ⟨source, -, done⟩ := mem_of_mapM done inside
    simp only [Option.bind_eq_some_iff] at done
    obtain ⟨key, text, number, word, same⟩ := done
    obtain rfl := Option.some.inj same
    obtain ⟨low, high⟩ := toInt?_bounds word
    exact ⟨isUtf8_toText? text, low, by simp only; omega⟩
  · split at same
    · obtain rfl := Option.some.inj same
      simp
    · contradiction

end Cbor.Value

namespace Image

/-- The fields of a record with a value, by number. -/
def entries (fields : List (Nat × Option Value)) : Cbor.Value.Record :=
  fields.filterMap fun (number, value?) => value?.map fun value => (Key.number number, value)

/-- A record is read back with the fields it has. -/
theorem toRecord?_record {fields : List (Nat × Option Value)}
    (small : ∀ field ∈ fields, field.1 < 2 ^ 63) :
    (record fields).toRecord? = some (entries fields) := by
  have keyed : ∀ number : Nat, number < 2 ^ 63 →
      (Value.unsigned number).key? = some (.number number) := by
    intro number bound
    have word : (BitVec.ofNat 64 number).toInt = number := by
      rw [BitVec.toInt_eq_toNat_of_lt (by rw [BitVec.toNat_ofNat]; omega), BitVec.toNat_ofNat]
      omega
    simp [Cbor.Value.key?, word]
  simp only [record, entries, Cbor.Value.toRecord?, Cbor.Value.untagged?, bind, Option.bind]
  induction fields with
  | nil => rfl
  | cons field fields ih =>
    obtain ⟨number, value?⟩ := field
    have others := ih fun other mem => small other (by simp [mem])
    cases value? with
    | none => simpa using others
    | some value =>
      have key := keyed number (small (number, some value) (by simp))
      simp only [List.filterMap_cons, Option.map_some, List.mapM_cons, key, bind, Option.bind,
        others, pure]

/-- No fields have no entries. -/
@[simp] theorem entries_nil : entries [] = [] := rfl

/-- A field with a value has an entry. -/
@[simp] theorem entries_cons_some (number : Nat) (value : Value)
    (fields : List (Nat × Option Value)) :
    entries ((number, some value) :: fields) = (.number number, value) :: entries fields := rfl

/-- A field without a value has no entry. -/
@[simp] theorem entries_cons_none (number : Nat) (fields : List (Nat × Option Value)) :
    entries ((number, none) :: fields) = entries fields := rfl

/-- A field that is not there is null. -/
@[simp] theorem field_nil (number : Nat) : Cbor.Value.Record.field [] number = .null := rfl

/-- A field is the first entry with its number. -/
@[simp] theorem field_cons (found : Int) (number : Nat) (value : Value)
    (rest : Cbor.Value.Record) :
    Cbor.Value.Record.field ((Key.number found, value) :: rest) number =
      if found = number then value else rest.field number := by
  by_cases same : found = number
  · simp [Cbor.Value.Record.field, same]
  · simp only [Cbor.Value.Record.field, List.find?_cons, Key.number.injEq, same, reduceCtorEq,
      or_self, decide_false, ↓reduceIte]

/-- An outer record is read back. -/
theorem File.ofValue?_value {file : File} (typed : file.Typed) :
    File.ofValue? file.value = some file := by
  have version : (Value.unsigned file.version).toInt? 0 0xffffffff = some (file.version : Int) := by
    have small := typed.version
    exact Cbor.Value.toInt?_int (Int.natCast_nonneg _) (by omega)
  rw [File.ofValue?, File.value, toRecord?_record (by simp)]
  simp [Cbor.Value.toFixedBytes?_bytes typed.mark, version,
    Cbor.Value.toFixedBytes?_bytes typed.digest]

/-- A source line is read back exactly when its text is UTF-8. -/
theorem lineOfValue?_lineValue {line : SourceLine}
    (typed : -2 ^ 63 ≤ line.number ∧ line.number < 2 ^ 63) :
    lineOfValue? (lineValue line) = if line.text.isUtf8 then some line else none := by
  rw [lineOfValue?, lineValue, toRecord?_record (by simp)]
  by_cases utf8 : line.text.isUtf8 <;>
    simp [Cbor.Value.toInt64?_int typed.1 typed.2, Cbor.Value.toText?_string, utf8]

/-- A field that may be left out behind two others, and one more. -/
theorem four_fields (first second : Value) (third? fourth? : Option Value) :
    let fields := entries [(1, some first), (2, some second), (3, third?), (4, fourth?)]
    fields.field 1 = first ∧ fields.field 2 = second ∧ fields.field 3 = third?.getD .null ∧
      fields.field 4 = fourth?.getD .null := by
  cases third? <;> cases fourth? <;> simp

/-- A stored piece is read back exactly when its texts are UTF-8. -/
theorem StoredPiece.ofValue?_value (typed : piece.Typed) :
    StoredPiece.ofValue? piece.value = if piece.isUtf8 then some piece else none := by
  obtain ⟨first, second, third, fourth⟩ := four_fields (.string piece.name) (.bytes piece.code)
    (unlessEmpty (piece.lines.map lineValue)) (unlessEmpty (piece.lineOf.map .int))
  have lines := Cbor.Value.mapM_eq_ite fun line mem =>
    lineOfValue?_lineValue (typed.numbers line mem)
  have indices : (piece.lineOf.map Value.int).mapM (Value.toInt? (-0x80000000) 0x7fffffff) =
      some piece.lineOf := by
    rw [List.mapM_map]
    refine (mapM_eq_pure fun index mem => ?_).trans (congrArg some (List.map_id piece.lineOf))
    obtain ⟨low, high⟩ := typed.indices index mem
    exact Cbor.Value.toInt?_int (by omega) (by omega)
  rw [StoredPiece.ofValue?, StoredPiece.value, toRecord?_record (by simp), StoredPiece.isUtf8]
  simp only [Option.bind_eq_bind, Option.bind_some, first, second, third, fourth,
    Cbor.Value.toText?_string, Cbor.Value.toBytes?_bytes, Cbor.Value.toItems?_unlessEmpty, lines,
    indices]
  cases piece.name.isUtf8 <;> cases piece.lines.all fun line => line.text.isUtf8 <;> rfl

/-- What is read of a piece has its types, and its texts are UTF-8. -/
theorem StoredPiece.typed_ofValue? {value : Value}
    (done : ofValue? value = some piece) : piece.Typed ∧ piece.isUtf8 := by
  simp only [ofValue?, Option.bind_eq_bind, Option.bind_eq_some_iff] at done
  obtain ⟨fields, -, name, valid, code, -, lines, texts, lineOf, indices, same⟩ := done
  obtain rfl := Option.some.inj same
  have line : ∀ line ∈ lines,
      line.text.isUtf8 ∧ -2 ^ 63 ≤ line.number ∧ line.number < 2 ^ 63 := by
    intro line mem
    obtain ⟨source, read⟩ := Cbor.Value.mem_of_toItems? texts mem
    simp only [lineOfValue?, Option.bind_eq_bind, Option.bind_eq_some_iff] at read
    obtain ⟨fields, -, number, word, text, valid, same⟩ := read
    obtain rfl := Option.some.inj same
    obtain ⟨low, high⟩ := Cbor.Value.toInt?_bounds word
    exact ⟨Cbor.Value.isUtf8_toText? valid, low, by simp only; omega⟩
  refine ⟨⟨fun found mem => (line found mem).2, fun index mem => ?_⟩, ?_⟩
  · obtain ⟨source, read⟩ := Cbor.Value.mem_of_toItems? indices mem
    obtain ⟨low, high⟩ := Cbor.Value.toInt?_bounds read
    exact ⟨low, by omega⟩
  · rw [isUtf8, Bool.and_eq_true, List.all_eq_true]
    exact ⟨Cbor.Value.isUtf8_toText? valid, fun found mem => (line found mem).1⟩

/-- The canonical order only permutes the strings. -/
theorem canonical_perm (strings : List InternedString) : (canonical strings).Perm strings :=
  List.mergeSort_perm _ _

/-- Strings that differ have one canonical order. -/
theorem canonical_congr {strings other : List InternedString} (same : other.Perm strings)
    (distinct : (strings.map InternedString.text).Nodup) : canonical other = canonical strings := by
  let precedes (left right : InternedString) : Bool :=
    decide (left.text.length < right.text.length) ||
      (decide (left.text.length = right.text.length) && !Text.precedes right.text left.text)
  have precedes_iff : ∀ left right, precedes left right ↔
      left.text.length < right.text.length ∨
        (left.text.length = right.text.length ∧ left.text ≤ right.text) := by
    intro left right
    simp only [precedes, Text.precedes, Bool.or_eq_true, Bool.and_eq_true, decide_eq_true_eq,
      Bool.not_eq_true', decide_eq_false_iff_not, List.not_lt]
  have sorted := fun strings => @List.pairwise_mergeSort _ precedes
    (fun first second third => by
      simp only [precedes_iff]
      rintro (shorter | ⟨length, before⟩) (shorter' | ⟨length', before'⟩)
      · exact .inl (by omega)
      · exact .inl (by omega)
      · exact .inl (by omega)
      · exact .inr ⟨by omega, List.le_trans before before'⟩)
    (fun left right => by
      rw [Bool.or_eq_true, precedes_iff, precedes_iff]
      rcases Nat.lt_trichotomy left.text.length right.text.length with less | equal | more
      · exact .inl (.inl less)
      · rcases List.le_total left.text right.text with first | second
        · exact .inl (.inr ⟨equal, first⟩)
        · exact .inr (.inr ⟨equal.symm, second⟩)
      · exact .inr (.inl more)) strings
  have perm := ((canonical_perm other).trans same).trans (canonical_perm strings).symm
  refine perm.eq_of_pairwise ?_ (sorted other) (sorted strings)
  intro left right first second before after
  have inside := ((canonical_perm other).trans same).mem_iff.mp first
  have inside' := (canonical_perm strings).mem_iff.mp second
  rw [precedes_iff] at before after
  refine List.inj_on_of_nodup_map distinct inside inside' ?_
  rcases before with shorter | ⟨length, before⟩
  · omega
  · rcases after with shorter | ⟨-, after⟩
    · omega
    · exact List.le_antisymm before after

/-- The table of strings is read back in the canonical order when its texts are UTF-8. -/
theorem toTable?_stringsValue {strings : List InternedString}
    (distinct : (strings.map InternedString.text).Nodup)
    (typed : ∀ string ∈ strings, -2 ^ 63 ≤ string.offset ∧ string.offset < 2 ^ 63) :
    ((stringsValue strings).getD .null).toTable? =
      if strings.all fun string => string.text.isUtf8 then
        some ((canonical strings).map fun string => (string.text, string.offset))
      else none := by
  let pairs := (canonical strings).map fun string => (string.text, string.offset)
  have perm := canonical_perm strings
  have fold := Cbor.Value.foldl_table [] pairs (by
    have distinct' := (perm.map InternedString.text).nodup_iff.mpr distinct
    simpa [pairs, Function.comp_def] using distinct')
  have all : pairs.all (fun pair => pair.1.isUtf8) = strings.all fun string =>
    string.text.isUtf8 := by
    rw [List.all_map]
    exact perm.all_eq
  have read := @Cbor.Value.mapM_eq_ite _ _ (fun entry : Value × Value => (do
      some (← entry.1.toText?, ← entry.2.toInt64?) : Option (Text × Int)))
    (fun pair => pair.1.isUtf8) (fun pair => (.string pair.1, .int pair.2)) pairs fun pair mem => by
      obtain ⟨string, inside, rfl⟩ := List.mem_map.mp mem
      obtain ⟨low, high⟩ := typed string (perm.mem_iff.mp inside)
      by_cases utf8 : string.text.isUtf8 <;>
        simp [Cbor.Value.toInt64?_int low high, Cbor.Value.toText?_string, utf8]
  rw [all, List.map_map] at read
  cases strings with
  | nil =>
    simp [stringsValue, canonical, Cbor.Value.null, Cbor.Value.toTable?, Cbor.Value.untagged?,
      Cbor.Value.isMissing]
  | cons first rest =>
    simp only [stringsValue, List.isEmpty_cons, Bool.false_eq_true, ↓reduceIte, Option.getD_some,
      Cbor.Value.toTable?, Cbor.Value.untagged?, Option.bind_eq_bind, Option.bind_some]
    simp only [Option.bind_eq_bind] at read
    refine (congrArg (Option.bind · _) read).trans ?_
    cases (first :: rest).all fun string => string.text.isUtf8 with
    | false => rfl
    | true => exact congrArg some fold

/-- A field that may be left out behind two others. -/
theorem three_fields (first second : Value) (third? : Option Value) :
    let fields := entries [(1, some first), (2, some second), (3, third?)]
    fields.field 1 = first ∧ fields.field 2 = second ∧ fields.field 3 = third?.getD .null := by
  cases third? <;> simp

/-- A body is read back with its strings in the canonical order when its texts are UTF-8. -/
theorem Body.ofValue?_value (typed : body.Typed) : Body.ofValue? body.value =
    if body.isUtf8 then some { body with strings := canonical body.strings } else none := by
  obtain ⟨first, second, third⟩ := three_fields
    ((unlessEmpty (body.pieces.map StoredPiece.value)).getD .null)
    (body.segment.elim .null .bytes) (stringsValue body.strings)
  have pieces := Cbor.Value.mapM_eq_ite fun piece mem =>
    StoredPiece.ofValue?_value (typed.pieces piece mem)
  have segment : (body.segment.elim .null Value.bytes).toBytes? = some body.segment := by
    cases body.segment <;> simp
  have strings := toTable?_stringsValue typed.distinct typed.offsets
  rw [Body.ofValue?, Body.value, toRecord?_record (by simp), Body.isUtf8]
  simp only [Option.bind_eq_bind, Option.bind_some, first, second, third,
    Cbor.Value.toItems?_unlessEmpty, pieces, segment, strings]
  cases body.pieces.all StoredPiece.isUtf8 with
  | false => rfl
  | true =>
    cases body.strings.all fun string => string.text.isUtf8 with
    | false => rfl
    | true => simp [List.map_map, Function.comp_def]

/-- What is read of a body has its types, and its texts are UTF-8. -/
theorem Body.typed_ofValue? {value : Value} (done : ofValue? value = some body) :
    body.Typed ∧ body.isUtf8 := by
  simp only [ofValue?, Option.bind_eq_bind, Option.bind_eq_some_iff] at done
  obtain ⟨fields, -, pieces, readPieces, segment, -, table, readTable, same⟩ := done
  obtain rfl := Option.some.inj same
  obtain ⟨distinct, entries⟩ := Cbor.Value.typed_toTable? readTable
  have piece : ∀ piece ∈ pieces, piece.Typed ∧ piece.isUtf8 := by
    intro piece mem
    obtain ⟨source, read⟩ := Cbor.Value.mem_of_toItems? readPieces mem
    exact StoredPiece.typed_ofValue? read
  have entry : ∀ string ∈ table.map fun pair => InternedString.mk pair.2 pair.1,
      string.text.isUtf8 ∧ -2 ^ 63 ≤ string.offset ∧ string.offset < 2 ^ 63 := by
    intro string mem
    obtain ⟨pair, inside, rfl⟩ := List.mem_map.mp mem
    exact entries pair inside
  refine ⟨⟨fun found mem => (piece found mem).1, fun string mem => (entry string mem).2,
    by rwa [List.map_map]⟩, ?_⟩
  rw [isUtf8, Bool.and_eq_true, List.all_eq_true, List.all_eq_true]
  exact ⟨fun found mem => (piece found mem).2, fun string mem => (entry string mem).1⟩

/-- A record is writable when its fields are. -/
theorem writable_record {fields : List (Nat × Option Value)}
    (small : ∀ field ∈ fields, field.1 < 2 ^ 64)
    (each : ∀ field ∈ fields, ∀ value, field.2 = some value → Writable depth value) :
    Writable (depth + 1) (record fields) := by
  have found : ∀ entry ∈ fields.filterMap fun (number, value?) =>
      value?.map fun value => (Value.unsigned number, value),
      ∃ field ∈ fields, entry.1 = .unsigned field.1 ∧ field.2 = some entry.2 := by
    intro entry mem
    obtain ⟨field, inside, same⟩ := List.mem_filterMap.mp mem
    obtain ⟨value, stored, rfl⟩ := Option.map_eq_some_iff.mp same
    exact ⟨field, inside, rfl, stored⟩
  refine .map (fun entry mem => ?_) fun entry mem => ?_
  · obtain ⟨field, inside, key, _⟩ := found entry mem
    rw [key]
    exact .unsigned (small field inside)
  · obtain ⟨field, inside, _, stored⟩ := found entry mem
    exact each field inside _ stored

/-- A list that is left out when it is empty is writable when its items are. -/
theorem writable_unlessEmpty {items : List Value} {value : Value}
    (each : ∀ item ∈ items, Writable depth item) (stored : unlessEmpty items = some value) :
    Writable (depth + 1) value := by
  unfold unlessEmpty at stored
  split at stored
  · contradiction
  · rw [← Option.some.inj stored]
    exact .array each

/-- A 64-bit integer is writable. -/
theorem writable_int
    (typed : -2 ^ 63 ≤ number ∧ number < 2 ^ 63) : Writable depth (.int number) := by
  cases number with
  | ofNat number => exact .unsigned (by simp at typed; omega)
  | negSucc number => exact .negative (by omega)

/-- A stored piece is writable. -/
theorem StoredPiece.writable_value (typed : piece.Typed) :
    Writable 3 piece.value := by
  refine writable_record (by simp) fun field mem value stored => ?_
  simp only [List.mem_cons, List.not_mem_nil, or_false] at mem
  rcases mem with rfl | rfl | rfl | rfl
  · obtain rfl := Option.some.inj stored
    exact .text
  · obtain rfl := Option.some.inj stored
    exact .bytes
  · refine writable_unlessEmpty (fun item inside => ?_) stored
    obtain ⟨line, listed, rfl⟩ := List.mem_map.mp inside
    refine writable_record (by simp) fun field mem value stored => ?_
    simp only [List.mem_cons, List.not_mem_nil, or_false] at mem
    rcases mem with rfl | rfl <;> obtain rfl := Option.some.inj stored
    · exact writable_int (typed.numbers line listed)
    · exact .text
  · refine writable_unlessEmpty (fun item inside => ?_) stored
    obtain ⟨index, listed, rfl⟩ := List.mem_map.mp inside
    have bounds := typed.indices index listed
    exact writable_int ⟨by omega, by omega⟩

/-- A body is writable. -/
theorem Body.writable_value (typed : body.Typed) : Writable 5 body.value := by
  refine writable_record (by simp) fun field mem value stored => ?_
  simp only [List.mem_cons, List.not_mem_nil, or_false] at mem
  rcases mem with rfl | rfl | rfl
  · obtain rfl := Option.some.inj stored
    cases pieces : unlessEmpty (body.pieces.map StoredPiece.value) with
    | none => exact .simple (by decide)
    | some value =>
      refine writable_unlessEmpty (fun item inside => ?_) pieces
      obtain ⟨piece, listed, rfl⟩ := List.mem_map.mp inside
      exact StoredPiece.writable_value (typed.pieces piece listed)
  · obtain rfl := Option.some.inj stored
    cases body.segment with
    | none => exact .simple (by decide)
    | some data => exact .bytes
  · unfold stringsValue at stored
    split at stored
    · contradiction
    · obtain rfl := Option.some.inj stored
      refine .map (fun entry mem => ?_) fun entry mem => ?_
      all_goals obtain ⟨string, inside, rfl⟩ := List.mem_map.mp mem
      · exact .text
      · exact writable_int (typed.offsets string ((canonical_perm _).mem_iff.mp inside))

/-- An outer record is writable. -/
theorem File.writable_value {file : File} (typed : file.Typed) : Writable 1 file.value := by
  refine writable_record (by simp) fun field mem value stored => ?_
  simp only [List.mem_cons, List.not_mem_nil, or_false] at mem
  rcases mem with rfl | rfl | rfl | rfl <;> obtain rfl := Option.some.inj stored
  · exact .bytes
  · exact .unsigned (Nat.lt_trans typed.version (by decide))
  · exact .bytes
  · exact .bytes

/-- Bytes that were written are read back as a value. -/
theorem read?_write_of_short {value : Value} (writable : Writable depth value)
    (shallow : depth ≤ maxDepth) (short : value.write.length < 2 ^ 63) :
    Cbor.read? (2 ^ 64) value.write = some value :=
  Cbor.read?_write (writable.mono shallow) (by omega) (by omega)

/-- The codec of binary objects is lawful when arrays and maps may have as many items as a length
can say. -/
theorem lawful_cbor : (Codec.cbor (2 ^ 64)).Lawful where
  readFile file typed short := by
    show (Cbor.read? _ file.value.write).bind _ = _
    rw [read?_write_of_short (File.writable_value typed) (by decide) short, Option.bind_some,
      File.ofValue?_value typed]
  readBody body typed utf8 short := by
    refine ⟨{ body with strings := canonical body.strings }, ?_, rfl, rfl, canonical_perm _⟩
    show (Cbor.read? _ body.value.write).bind _ = _
    rw [read?_write_of_short (Body.writable_value typed) (by decide) short, Option.bind_some,
      Body.ofValue?_value typed, if_pos utf8]
  refuses body typed broken short := by
    show (Cbor.read? _ body.value.write).bind _ = _
    rw [read?_write_of_short (Body.writable_value typed) (by decide) short, Option.bind_some,
      Body.ofValue?_value typed, broken]
    rfl
  typed bytes body read := by
    obtain ⟨value, -, taken⟩ := Option.bind_eq_some_iff.mp read
    exact Body.typed_ofValue? taken
  order body other typed same := by
    obtain ⟨pieces, segment, strings⟩ := other
    obtain ⟨rfl, rfl, perm⟩ := same
    show Value.write _ = Value.write _
    rw [Body.value, Body.value, stringsValue, stringsValue, canonical_congr perm typed.distinct,
      perm.isEmpty_eq]

end Image

end TinLang
