import Mathlib.Algebra.Group.Int.Defs
import Mathlib.Algebra.Group.Nat.Defs
import TinLang.Numeral
import TinLang.Text.Lines
import TinLang.Proofs.Scan

/-!
# Reading back what was written

Numbers in decimal are read back as the same numbers. A word is a text of visible ASCII characters
without commas: words that are joined by commas and blanks are split into the same words, and
trimming takes away exactly the blanks around them. Lines that fit the buffer of a line reader are
handed out one by one.
-/
namespace TinLang

variable {text : Text} {separator first : UInt8}

namespace Text

/-- The digits of a decimal number are decimal digits. -/
theorem digit_of_mem_ofNat {number : Nat} {byte : UInt8} (mem : byte ∈ ofNat number) :
    ∃ digit < 10, byte = Text.byte (Nat.digitChar digit) := by
  induction number using Nat.strongRecOn with
  | _ number ih =>
    rw [ofNat, digits, Nat.toDigits_eq_if (by decide)] at mem
    split at mem
    · next small => exact ⟨number, small, by simpa using mem⟩
    · next large =>
      rw [List.map_append, List.mem_append] at mem
      rcases mem with front | last
      · exact ih (number / 10) (by omega) front
      · exact ⟨number % 10, Nat.mod_lt _ (by decide), by simpa using last⟩

theorem ofNat_ne_nil (number : Nat) : ofNat number ≠ [] := by
  have long := Nat.length_toDigits_pos (b := 10) (n := number)
  intro empty
  rw [ofNat, digits, List.map_eq_nil_iff] at empty
  simp [empty] at long

end Text

namespace Numeral

theorem digit?_digitChar {digit : Nat} (small : digit < 10) :
    digit? (Text.byte (Nat.digitChar digit)) = some digit := by
  revert digit
  decide

/-- Digits are read one part after another. -/
theorem continued_append (base number : Nat) (left right : Text) :
    continued base number (left ++ right) =
      (continued base number left).bind fun read => continued base read right := by
  induction left generalizing number with
  | nil => rfl
  | cons byte left ih =>
    simp only [List.cons_append, continued, bind]
    cases digit? byte with
    | none => rfl
    | some digit =>
      simp only [Option.bind_some]
      split
      · exact ih _
      · rfl

/-- A natural number is read back from its digits. -/
theorem continued_ofNat (number : Nat) : continued 10 0 (Text.ofNat number) = some number := by
  have single : ∀ before digit, digit < 10 →
      continued 10 before [Text.byte (Nat.digitChar digit)] = some (before * 10 + digit) := by
    intro before digit small
    simp [continued, digit?_digitChar small, small]
  induction number using Nat.strongRecOn with
  | _ number ih =>
    rw [Text.ofNat, Text.digits, Nat.toDigits_eq_if (by decide)]
    split
    · next small => simpa using single 0 number small
    · next large =>
      rw [List.map_append, continued_append]
      change (continued 10 0 (Text.ofNat (number / 10))).bind _ = _
      rw [ih (number / 10) (by omega), Option.bind_some]
      refine (single _ _ (Nat.mod_lt _ (by decide))).trans ?_
      rw [Nat.div_add_mod' number 10]

theorem ofDigits?_ofNat (number : Nat) : ofDigits? 10 (Text.ofNat number) = some number := by
  unfold ofDigits?
  split
  · next empty => exact absurd empty (Text.ofNat_ne_nil number)
  · exact continued_ofNat number

/-- An integer is read back from its numeral. -/
theorem signed?_ofInt (number : Int) : signed? (Text.ofInt number) = some number := by
  cases number with
  | ofNat number =>
    have read := ofDigits?_ofNat number
    rw [Text.ofInt]
    cases written : Text.ofNat number with
    | nil => exact absurd written (Text.ofNat_ne_nil number)
    | cons sign rest =>
      obtain ⟨digit, small, rfl⟩ : ∃ digit < 10, sign = Text.byte (Nat.digitChar digit) :=
        Text.digit_of_mem_ofNat (written ▸ List.mem_cons_self)
      have unsigned : ∀ digit < 10, Text.byte (Nat.digitChar digit) ≠ Text.byte '-' ∧
          Text.byte (Nat.digitChar digit) ≠ Text.byte '+' := by decide
      rw [written] at read
      simp [signed?, unsigned digit small, read]
  | negSucc number =>
    simp [Text.ofInt, signed?, ofDigits?_ofNat, Int.negSucc_eq]

/-- An integer that fits a word is read back from its numeral. -/
theorem signedWithin?_ofInt {bits : Nat} {number : Int} (low : -2 ^ (bits - 1) ≤ number)
    (high : number < 2 ^ (bits - 1)) : signedWithin? bits (Text.ofInt number) = some number := by
  simp [signedWithin?, signed?_ofInt, low, high]

end Numeral

namespace Text

/-- A visible ASCII character other than a comma. -/
def isVisible (byte : UInt8) : Bool :=
  decide (0x21 ≤ byte.toNat) && decide (byte.toNat ≤ 0x7E) && decide (byte ≠ Text.byte ',')

/-- A text of visible ASCII characters without commas. -/
def Word (text : Text) : Prop := text ≠ [] ∧ ∀ byte ∈ text, isVisible byte

instance (text : Text) : Decidable text.Word := inferInstanceAs (Decidable (_ ∧ _))

theorem Word.append {left right : Text} (first : left.Word) (second : right.Word) :
    (left ++ right).Word := by
  refine ⟨by simp [first.1], fun byte mem => ?_⟩
  rcases List.mem_append.mp mem with inLeft | inRight
  · exact first.2 byte inLeft
  · exact second.2 byte inRight

theorem word_ofNat (number : Nat) : (ofNat number).Word := by
  refine ⟨ofNat_ne_nil number, fun byte mem => ?_⟩
  obtain ⟨digit, small, rfl⟩ := digit_of_mem_ofNat mem
  have visible : ∀ digit < 10, isVisible (Text.byte (Nat.digitChar digit)) := by decide
  exact visible digit small

theorem word_ofInt (number : Int) : (ofInt number).Word := by
  cases number with
  | ofNat number => exact word_ofNat number
  | negSucc number =>
    have visible : isVisible (byte '-') := by decide
    have sign : Word [byte '-'] := ⟨by simp, by simpa using visible⟩
    exact sign.append (word_ofNat (number + 1))

/-- A byte that no word holds is not in one. -/
theorem Word.ne (word : text.Word) {byte : UInt8} (hidden : isVisible byte = false) :
    ∀ other ∈ text, other ≠ byte := by
  rintro other mem rfl
  rw [word.2 other mem] at hidden
  contradiction

theorem cut_append {before : Text} (free : ∀ byte ∈ before, byte ≠ separator)
    (after : Text) : cut separator (before ++ separator :: after) = some (before, after) := by
  induction before with
  | nil => simp [cut]
  | cons byte before ih =>
    simp [cut, free byte (by simp), ih fun other mem => free other (by simp [mem])]

theorem cut_eq_none (free : ∀ byte ∈ text, byte ≠ separator) :
    cut separator text = none := by
  induction text with
  | nil => rfl
  | cons byte text ih =>
    simp [cut, free byte (by simp), ih fun other mem => free other (by simp [mem])]

theorem dropTrailing?_append (text trailing : Text) :
    dropTrailing? trailing (text ++ trailing) = some text := by
  simp [dropTrailing?]

/-- A text without the first byte of a separating pair stays in one piece. -/
theorem splitAtPair_of_free {second : UInt8}
    (free : ∀ byte ∈ text, byte ≠ first) : splitAtPair first second text = [text] := by
  fun_induction splitAtPair first second text with
  | case1 => rfl
  | case2 => rfl
  | case3 head next text separates => exact absurd separates.1 (free head (by simp))
  | case4 head next text _ empty ih =>
    simp [ih fun byte mem => free byte (List.mem_cons_of_mem _ mem)] at empty
  | case5 head next text _ piece pieces found ih =>
    have one := ih fun byte mem => free byte (List.mem_cons_of_mem _ mem)
    rw [one, List.cons.injEq] at found
    rw [← found.1, ← found.2]

theorem splitAtPair_append {second : UInt8}
    (free : ∀ byte ∈ text, byte ≠ first) (rest : Text) :
    splitAtPair first second (text ++ first :: second :: rest) =
      text :: splitAtPair first second rest := by
  induction text with
  | nil => simp [splitAtPair]
  | cons head text ih =>
    have later := ih fun byte mem => free byte (List.mem_cons_of_mem _ mem)
    have apart : ¬ head = first := free head (by simp)
    cases text with
    | nil =>
      simp only [List.cons_append, List.nil_append] at later ⊢
      simp [splitAtPair, apart]
    | cons next text =>
      simp only [List.cons_append] at later ⊢
      simp [splitAtPair, apart, later]

/-- Joined words are split into the same words. -/
theorem splitAtPair_join {words : List Text} (some : words ≠ [])
    (each : ∀ word ∈ words, word.Word) :
    splitAtPair (byte ',') (byte ' ') (join ", " words) = words := by
  induction words with
  | nil => contradiction
  | cons word words ih =>
    have free := (each word (by simp)).ne (by decide : isVisible (byte ',') = false)
    cases words with
    | nil => exact splitAtPair_of_free free
    | cons next words =>
      have later := ih (by simp) fun other mem => each other (List.mem_cons_of_mem _ mem)
      have shape : join ", " (word :: next :: words) =
          word ++ byte ',' :: byte ' ' :: join ", " (next :: words) := by
        rw [join, List.append_assoc]
        · rfl
        · simp
      rw [shape, splitAtPair_append free, later]

/-- An ASCII character is the glyph of its byte. -/
theorem glyphs_cons {lead : UInt8} (ascii : lead.toNat < 0x80) (text : Text) :
    glyphs (lead :: text) = ⟨lead.toNat, [lead]⟩ :: glyphs text := by
  simp [glyphs, glyphsAfter, Glyph.first, Glyph.wellFormed?, ascii]

/-- The glyphs of a text of ASCII characters are its bytes. -/
theorem glyphs_ascii (ascii : ∀ byte ∈ text, byte.toNat < 0x80) :
    text.glyphs = text.map fun byte => ⟨byte.toNat, [byte]⟩ := by
  induction text with
  | nil => rfl
  | cons byte text ih =>
    rw [glyphs_cons (ascii byte (by simp)), ih fun other mem => ascii other (by simp [mem])]
    rfl

theorem isSpace_of_isVisible {byte : UInt8} (visible : isVisible byte) :
    Glyph.isSpace ⟨byte.toNat, [byte]⟩ = false := by
  simp only [isVisible, Bool.and_eq_true, decide_eq_true_eq] at visible
  simp only [Glyph.isSpace, Bool.or_eq_false_iff, Bool.and_eq_false_iff, decide_eq_false_iff_not,
    beq_eq_false_iff_ne]
  omega

/-- A printed text starts and ends with visible characters, and has blanks and commas between
others. -/
structure Phrase (text : Text) : Prop where
  starts : ∃ first rest, text = first :: rest ∧ isVisible first
  ends : ∃ front last, text = front ++ [last] ∧ isVisible last
  printed : ∀ byte ∈ text, 0x20 ≤ byte.toNat ∧ byte.toNat ≤ 0x7E

theorem Word.phrase (word : text.Word) : text.Phrase where
  starts := by
    obtain ⟨first, rest, rfl⟩ := List.exists_cons_of_ne_nil word.1
    exact ⟨first, rest, rfl, word.2 first (by simp)⟩
  ends := by
    refine ⟨text.dropLast, text.getLast word.1, (List.dropLast_concat_getLast word.1).symm, ?_⟩
    exact word.2 _ (List.getLast_mem word.1)
  printed := by
    intro byte mem
    have visible := word.2 byte mem
    simp only [isVisible, Bool.and_eq_true, decide_eq_true_eq] at visible
    omega

theorem Phrase.append {left middle right : Text} (first : left.Phrase)
    (between : ∀ byte ∈ middle, 0x20 ≤ byte.toNat ∧ byte.toNat ≤ 0x7E) (second : right.Phrase) :
    (left ++ middle ++ right).Phrase where
  starts := by
    obtain ⟨head, rest, rfl, visible⟩ := first.starts
    exact ⟨head, rest ++ middle ++ right, by simp, visible⟩
  ends := by
    obtain ⟨front, last, rfl, visible⟩ := second.ends
    exact ⟨left ++ middle ++ front, last, by simp, visible⟩
  printed := by
    intro byte mem
    rcases List.mem_append.mp mem with inner | inRight
    · rcases List.mem_append.mp inner with inLeft | inMiddle
      · exact first.printed byte inLeft
      · exact between byte inMiddle
    · exact second.printed byte inRight

theorem phrase_join {words : List Text} (some : words ≠ []) (each : ∀ word ∈ words, word.Word) :
    (join ", " words).Phrase := by
  induction words with
  | nil => contradiction
  | cons word words ih =>
    have first := (each word (by simp)).phrase
    cases words with
    | nil => exact first
    | cons next words =>
      have later := ih (by simp) fun other mem => each other (List.mem_cons_of_mem _ mem)
      rw [join]
      · have comma : List.all (", " : Text) (fun byte =>
            decide (0x20 ≤ byte.toNat ∧ byte.toNat ≤ 0x7E)) = true := by decide
        exact first.append (fun byte mem => of_decide_eq_true (List.all_eq_true.mp comma byte mem))
          later
      · simp

/-- Trimming takes away the blanks before a phrase and nothing else. -/
theorem Phrase.trim_append (phrase : text.Phrase) (count : Nat) :
    trim (List.replicate count (byte ' ') ++ text) = text := by
  obtain ⟨first, rest, shape, visible⟩ := phrase.starts
  obtain ⟨front, last, same, ended⟩ := phrase.ends
  let glyph : UInt8 → Glyph := fun byte => ⟨byte.toNat, [byte]⟩
  have blanks : glyphs (List.replicate count (byte ' ') ++ text) =
      List.replicate count (glyph (byte ' ')) ++ text.map glyph := by
    rw [glyphs_ascii, List.map_append, List.map_replicate]
    intro other mem
    rcases List.mem_append.mp mem with blank | inside
    · rw [(List.mem_replicate.mp blank).2]
      decide
    · have printed := phrase.printed other inside
      omega
  have started : (List.replicate count (glyph (byte ' ')) ++ text.map glyph).dropWhile
      Glyph.isSpace = text.map glyph := by
    have space : Glyph.isSpace (glyph (byte ' ')) = true := by decide
    rw [List.dropWhile_append_of_pos]
    · rw [shape, List.map_cons, List.dropWhile_cons_of_neg]
      simpa using isSpace_of_isVisible visible
    · intro other mem
      rw [(List.mem_replicate.mp mem).2]
      exact space
  have finished : (text.map glyph).reverse.dropWhile Glyph.isSpace = (text.map glyph).reverse := by
    rw [same, List.map_append, List.map_singleton, List.reverse_append, List.reverse_singleton,
      List.singleton_append, List.dropWhile_cons_of_neg]
    simpa using isSpace_of_isVisible ended
  simp only [trim, blanks, started, finished, List.reverse_reverse, List.flatMap_map]
  exact List.flatMap_singleton' text

theorem Phrase.trim_eq (phrase : text.Phrase) : trim text = text :=
  phrase.trim_append 0

/-- A trimmed text holds no other bytes. -/
theorem mem_of_mem_trim {byte : UInt8} (mem : byte ∈ text.trim) : byte ∈ text := by
  obtain ⟨glyph, inside, found⟩ := List.mem_flatMap.mp mem
  have kept : glyph ∈ text.glyphs := by
    have ended := (List.dropWhile_sublist _).subset (List.mem_reverse.mp inside)
    exact (List.dropWhile_sublist _).subset (List.mem_reverse.mp ended)
  have written := flatMap_glyphs text
  rw [← written]
  exact List.mem_flatMap.mpr ⟨glyph, kept, found⟩

/-- Trimming keeps a visible character at the start. -/
theorem head?_trim (visible : isVisible first) (rest : Text) :
    (trim (first :: rest)).head? = some first := by
  have plain := isSpace_of_isVisible visible
  have ascii : first.toNat < 0x80 := by
    simp only [isVisible, Bool.and_eq_true, decide_eq_true_eq] at visible
    omega
  let glyph : Glyph := ⟨first.toNat, [first]⟩
  have kept : ∀ glyphs : List Glyph, ∃ others,
      ((glyph :: glyphs).reverse.dropWhile Glyph.isSpace).reverse = glyph :: others := by
    intro glyphs
    rw [List.reverse_cons, List.dropWhile_append]
    split
    · exact ⟨[], by rw [List.dropWhile_cons_of_neg (by simpa using plain)]; rfl⟩
    · exact ⟨(glyphs.reverse.dropWhile Glyph.isSpace).reverse, by simp⟩
  obtain ⟨others, shape⟩ := kept (glyphs rest)
  unfold trim
  rw [glyphs_cons ascii, List.dropWhile_cons_of_neg (by simpa using plain)]
  change ((((glyph :: glyphs rest).reverse.dropWhile Glyph.isSpace).reverse).flatMap
    Glyph.bytes).head? = some first
  rw [shape]
  rfl

/-- A text of lines, each with its line end. -/
def ofLines (lines : List Text) : Text := lines.flatMap (· ++ "\n")

theorem splitAt_cons_free {line : Text}
    (free : ∀ byte ∈ line, byte ≠ separator) (rest : Text) :
    splitAt separator (line ++ separator :: rest) = line :: splitAt separator rest := by
  induction line with
  | nil => simp [splitAt]
  | cons byte line ih =>
    simp [splitAt, free byte (by simp), ih fun other mem => free other (by simp [mem])]

/-- A text of lines is split into the lines. -/
theorem splitAt_ofLines {lines : List Text} (free :
    ∀ line ∈ lines, ∀ other ∈ line, other ≠ byte '\n') :
    splitAt (byte '\n') (ofLines lines) = lines ++ [[]] := by
  induction lines with
  | nil => rfl
  | cons line lines ih =>
    have shape : ofLines (line :: lines) = line ++ byte '\n' :: ofLines lines := by
      rw [ofLines, List.flatMap_cons, List.append_assoc]
      rfl
    rw [shape, splitAt_cons_free (free line (by simp)),
      ih fun other mem => free other (List.mem_cons_of_mem _ mem)]
    rfl

/-- A line reader hands out the next line of a text. -/
theorem nextLine?_append {line : Text} (free : ∀ other ∈ line, other ≠ byte '\n')
    (short : line.length < lineBuffer) (rest : Text) :
    nextLine? (line ++ byte '\n' :: rest) = .ok (some (dropReturn line, rest)) := by
  have taken : (line ++ byte '\n' :: rest).takeWhile (· != byte '\n') = line := by
    rw [List.takeWhile_append_of_pos (by simpa using free), List.takeWhile_cons_of_neg (by simp),
      List.append_nil]
  have fits : ¬ lineBuffer ≤ line.length := by omega
  have after : (line ++ byte '\n' :: rest).drop (line.length + 1) = rest := by
    rw [List.drop_append, List.drop_of_length_le (by omega)]
    simp
  unfold nextLine?
  split
  · next empty => simp at empty
  · simp only [taken, fits, ↓reduceIte, after]

/-- The lines of a text that all fit the buffer are handed out one by one. -/
theorem lines_ofLines {lines : List Text} (free : ∀ line ∈ lines, ∀ other ∈ line, other ≠ byte '\n')
    (short : ∀ line ∈ lines, line.length < lineBuffer) :
    (ofLines lines).lines = (lines.map dropReturn, none) := by
  have within : ∀ bound, lines.length ≤ bound →
      linesWithin bound (ofLines lines) = (lines.map dropReturn, none) := by
    induction lines with
    | nil =>
      intro bound _
      cases bound <;> rfl
    | cons line lines ih =>
      intro bound enough
      cases bound with
      | zero => simp at enough
      | succ bound =>
        have shape : ofLines (line :: lines) = line ++ byte '\n' :: ofLines lines := by
          rw [ofLines, List.flatMap_cons, List.append_assoc]
          rfl
        have later := ih (fun other mem => free other (List.mem_cons_of_mem _ mem))
          (fun other mem => short other (List.mem_cons_of_mem _ mem)) bound
          (by simpa using enough)
        rw [linesWithin, shape, nextLine?_append (free line (by simp)) (short line (by simp))]
        simp [later]
  refine within _ ?_
  rw [ofLines, List.length_flatMap]
  clear within free short
  induction lines with
  | nil => simp
  | cons line lines ih =>
    have one : (line ++ ofString "\n").length = line.length + 1 := by
      rw [List.length_append]
      rfl
    simp only [List.map_cons, List.sum_cons, List.length_cons, one]
    omega

/-- A line that does not end in a carriage return is handed out as it is. -/
theorem Phrase.dropReturn_eq (phrase : text.Phrase) (count : Nat) :
    dropReturn (List.replicate count (byte ' ') ++ text) =
      List.replicate count (byte ' ') ++ text := by
  obtain ⟨front, last, rfl, visible⟩ := phrase.ends
  have other : last ≠ byte '\r' := by
    rintro rfl
    exact absurd visible (by decide)
  unfold dropReturn
  rw [if_neg]
  simpa [← List.append_assoc] using other

/-- A line of two bytes and more keeps its first byte. -/
theorem exists_dropReturn_cons (first second : UInt8) (rest : Text) :
    ∃ others, dropReturn (first :: second :: rest) = first :: others := by
  unfold dropReturn
  split
  · exact ⟨(second :: rest).dropLast, rfl⟩
  · exact ⟨second :: rest, rfl⟩

end Text

end TinLang
