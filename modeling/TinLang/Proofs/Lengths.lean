import Mathlib.Data.List.Count
import TinLang.Proofs.Tokens

/-!
# Lengths of literals

Most lexemes have a literal as long as the text that they take up. That of a string or character
literal is without the quotes, each escape in it is one byte instead of two, and each byte that is
no part of a character is three (`Scan.measured_lexeme`).
-/
namespace TinLang

namespace Scan

variable {glyph : Glyph} {glyphs rest : List Glyph}

/-- How many escapes there are: a backslash and the glyph after it. -/
def escapes : List Glyph → Nat
  | glyph :: next :: rest => if glyph.is '\\' then escapes rest + 1 else escapes (next :: rest)
  | _ => 0

theorem escapes_cons {glyph : Glyph} (plain : glyph.is '\\' = false) (rest : List Glyph) :
    escapes (glyph :: rest) = escapes rest := by
  cases rest with
  | nil => rfl
  | cons next rest => simp [escapes, plain]

/-- How many bytes are no part of a character. -/
def strays (glyphs : List Glyph) : Nat := glyphs.countP Glyph.isStray

/-- A legible glyph is written in the bytes of its code point, or is stray. -/
theorem Legible.length_encode (legible : Legible glyphs) (mem : glyph ∈ glyphs) :
    (Glyph.encode glyph.code).length = glyph.bytes.length + 2 * strays [glyph] := by
  obtain ⟨before, after, rfl⟩ := List.append_of_mem mem
  obtain ⟨-, lead, tail, bytes, front⟩ := legible.of_append.2.of_cons
  cases found : Glyph.wellFormed? lead (tail ++ written after) with
  | some own =>
    have same : glyph = own := by rw [← front, Glyph.first, found, Option.getD_some]
    have written := Glyph.encode_of_wellFormed? found
    rw [← same] at written
    have whole : glyph.isStray = false := by
      rw [Glyph.isStray, Bool.and_eq_false_iff]
      by_cases code : glyph.code = Glyph.replacement
      · right
        rw [← written, code]
        rfl
      · exact .inl (beq_false_of_ne code)
    simp [written, strays, whole]
  | none =>
    have same : glyph = .stray lead := by rw [← front, Glyph.first, found, Option.getD_none]
    rw [same]
    rfl

/-- A glyph of an ASCII character is one byte and not stray. -/
theorem Legible.ascii (legible : Legible glyphs) (mem : glyph ∈ glyphs) {character : Char}
    (same : glyph.is character) (small : character.toNat < 0x80) :
    glyph.bytes.length = 1 ∧ strays [glyph] = 0 := by
  have plain := (legible.sound glyph mem).1
  have code : glyph.code = character.toNat := by simpa [Glyph.is] using same
  rw [bytes_of_is plain same small]
  refine ⟨rfl, ?_⟩
  have other : glyph.code ≠ Glyph.replacement := by
    rw [code]
    unfold Glyph.replacement
    omega
  simp [strays, Glyph.isStray, other]

/-- An escape is a backslash and a glyph of one byte, and stands for a character of one byte. -/
theorem Legible.escape (legible : Legible glyphs) (mem : glyph ∈ glyphs) {code : Nat}
    (found : escape? glyph = some code) :
    glyph.bytes.length = 1 ∧ strays [glyph] = 0 ∧ (Glyph.encode code).length = 1 := by
  have one : ∀ {code : Nat}, code < 0x80 → (Glyph.encode code).length = 1 := by
    intro code small
    rw [Glyph.encode, if_pos small]
    rfl
  have letter : ∀ {character : Char}, glyph.is character → character.toNat < 0x80 →
      ∀ {code : Nat}, code < 0x80 →
        glyph.bytes.length = 1 ∧ strays [glyph] = 0 ∧ (Glyph.encode code).length = 1 := by
    intro character same small code low
    obtain ⟨bytes, whole⟩ := legible.ascii mem same small
    exact ⟨bytes, whole, one low⟩
  unfold escape? at found
  split at found
  next same => exact Option.some.inj found ▸ letter same (by decide) (by decide)
  split at found
  next same => exact Option.some.inj found ▸ letter same (by decide) (by decide)
  split at found
  next same => exact Option.some.inj found ▸ letter same (by decide) (by decide)
  split at found
  next same => exact Option.some.inj found ▸ letter same (by decide) (by decide)
  split at found
  next same =>
    have own : ∀ {character : Char}, glyph.is character → character.toNat < 0x80 →
        glyph.code < 0x80 := by
      intro character same small
      rw [Glyph.is, beq_iff_eq] at same
      omega
    rw [← Option.some.inj found]
    rcases (Bool.or_eq_true _ _).mp same with either | same
    · rcases (Bool.or_eq_true _ _).mp either with same | same
      · exact letter same (by decide) (own same (by decide))
      · exact letter same (by decide) (own same (by decide))
    · exact letter same (by decide) (own same (by decide))
  · contradiction

theorem strays_cons (glyph : Glyph) (rest : List Glyph) :
    strays (glyph :: rest) = strays [glyph] + strays rest := by
  simp only [strays, List.countP_cons, List.countP_nil]
  omega

theorem length_written_cons (glyph : Glyph) (rest : List Glyph) :
    (written (glyph :: rest)).length = glyph.bytes.length + (written rest).length := by
  rw [written, List.flatMap_cons, List.length_append]
  rfl

/-- Every escape in a string shortens its value by a byte, and every stray byte lengthens it by
two. The closing quote is one byte. -/
theorem length_stringBody (legible : Legible glyphs)
    (closed : (stringBody glyphs).ending = .closed) :
    (stringBody glyphs).value.length + 1 + escapes (glyphs.take (stringBody glyphs).width) =
      (written (glyphs.take (stringBody glyphs).width)).length +
        2 * strays (glyphs.take (stringBody glyphs).width) := by
  fun_induction stringBody glyphs with
  | case1 | case2 | case4 | case5 | case6 | case9 => contradiction
  | case3 glyph other quote | case7 glyph next rest other quote =>
    obtain ⟨bytes, whole⟩ := legible.ascii List.mem_cons_self quote (by decide)
    rw [List.take_succ_cons, List.take_zero, length_written_cons, bytes, whole]
    rfl
  | case8 glyph next rest other quote slash code found ih =>
    obtain ⟨bytes, whole⟩ := legible.ascii List.mem_cons_self slash (by decide)
    obtain ⟨bytes', whole', one⟩ :=
      legible.escape (List.mem_cons_of_mem _ List.mem_cons_self) found
    have inner := ih legible.of_cons.1.of_cons.1 closed
    simp only [StringBody.extend, List.take_succ_cons, escapes, slash, ↓reduceIte,
      List.length_append]
    rw [length_written_cons, length_written_cons, strays_cons, strays_cons next]
    omega
  | case10 glyph next rest other quote slash ih =>
    have own := legible.length_encode List.mem_cons_self
    have inner := ih legible.of_cons.1 closed
    simp only [StringBody.extend, List.take_succ_cons, List.length_append]
    rw [escapes_cons (by simpa using slash), length_written_cons, strays_cons]
    omega

/-- The bytes of the literal of a lexeme against those that it takes up, unless it is an error. -/
def Lexeme.Measured (glyphs : List Glyph) (lexeme : Lexeme) : Prop :=
  lexeme.Valid →
    if lexeme.kind = .string ∨ lexeme.kind = .character then
      lexeme.literal.length + 2 + escapes (glyphs.take lexeme.width) =
        (written (glyphs.take lexeme.width)).length + 2 * strays (glyphs.take lexeme.width)
    else lexeme.literal.length = (written (glyphs.take lexeme.width)).length

theorem Lexeme.Measured.either {test : Prop} [Decidable test] {first second : Lexeme}
    (yes : test → first.Measured glyphs) (no : second.Measured glyphs) :
    (if test then first else second).Measured glyphs := by
  split
  · exact yes ‹_›
  · exact no

/-- A lexeme without quotes has the length of its text. -/
theorem measured_plain {lexeme : Lexeme} (literally : lexeme.Literally glyphs)
    (unquoted : lexeme.Valid → lexeme.kind ≠ .string ∧ lexeme.kind ≠ .character) :
    lexeme.Measured glyphs := by
  intro valid
  obtain ⟨string, character⟩ := unquoted valid
  rw [if_neg (not_or.mpr ⟨string, character⟩)]
  exact congrArg List.length (literally valid string character)

theorem measured_word (glyphs : List Glyph) : (word glyphs).Measured glyphs := by
  refine measured_plain (literally_word glyphs) fun _ => ?_
  rcases kind_word glyphs with ⟨reserved, kind⟩ | kind <;> simp [kind]

theorem measured_number (glyphs : List Glyph) : (number glyphs).Measured glyphs := by
  refine measured_plain (literally_number glyphs) fun valid => ?_
  rcases numeric_number glyphs with kind | kind | ⟨cause, kind⟩
  · simp [kind]
  · simp [kind]
  · exact absurd kind (valid cause)

theorem measured_symbol (plain : ∀ other ∈ glyph :: rest, other.Plain) :
    (symbol glyph rest).Measured (glyph :: rest) := by
  refine measured_plain (literally_symbol plain) fun valid => ?_
  rcases symbolic_symbol glyph rest with ⟨sign, kind⟩ | ⟨cause, kind⟩
  · simp [kind]
  · exact absurd kind (valid cause)

theorem other_of_is {first second : Char} (same : glyph.is first)
    (apart : first.toNat ≠ second.toNat) : glyph.is second = false := by
  rw [Glyph.is, beq_iff_eq] at same
  rw [Glyph.is, beq_eq_false_iff_ne, same]
  exact apart

theorem measured_string (legible : Legible (glyph :: rest)) (quote : glyph.is '"') :
    (string rest).Measured (glyph :: rest) := by
  intro valid
  cases ending : (stringBody rest).ending with
  | unterminated | badEscape => simp [string, ending] at valid
  | closed =>
    have same : string rest = ⟨.string, (stringBody rest).value, (stringBody rest).width + 1⟩ := by
      simp only [string, ending]
    obtain ⟨bytes, whole⟩ := legible.ascii List.mem_cons_self quote (by decide)
    have other : glyph.is '\\' = false := other_of_is quote (by decide)
    have body := length_stringBody legible.of_cons.1 ending
    rw [same, if_pos (.inl rfl), List.take_succ_cons, escapes_cons other,
      length_written_cons, strays_cons]
    simp only
    omega

theorem characterEnd_of_valid {code width : Nat} (valid : (characterEnd code width glyphs).Valid) :
    ∃ quote others, glyphs = quote :: others ∧ quote.is '\'' ∧ code ≤ 0xFF ∧
      characterEnd code width glyphs = ⟨.character, Glyph.encode code, width + 2⟩ := by
  cases glyphs with
  | nil => simp [characterEnd] at valid
  | cons quote others =>
    by_cases closed : quote.is '\''
    · by_cases wide : 0xFF < code
      · simp [characterEnd, closed, wide] at valid
      · exact ⟨quote, others, rfl, closed, by omega,
          by simp only [characterEnd, if_pos closed, if_neg wide]⟩
    · simp [characterEnd, closed] at valid

theorem measured_character (legible : Legible (glyph :: rest)) (quote : glyph.is '\'') :
    (character rest).Measured (glyph :: rest) := by
  intro valid
  obtain ⟨bytes, whole⟩ := legible.ascii List.mem_cons_self quote (by decide)
  have opening : glyph.is '\\' = false := other_of_is quote (by decide)
  obtain ⟨inner, -⟩ := legible.of_cons
  cases rest with
  | nil => exact absurd valid (not_valid_error _ _)
  | cons first rest =>
    by_cases ends : (first.is '\'' || first.is '\n') = true
    · simp [character, ends] at valid
    by_cases slash : first.is '\\'
    · cases rest with
      | nil => simp [character, ends, slash] at valid
      | cons letter rest =>
        cases found : escape? letter with
        | none => simp [character, ends, slash, found] at valid
        | some code =>
          have same : character (first :: letter :: rest) = characterEnd code 2 rest := by
            simp only [character, if_neg ends, if_pos slash, found]
          rw [same] at valid ⊢
          obtain ⟨last, others, rfl, closing, -, run⟩ := characterEnd_of_valid valid
          obtain ⟨bytes₁, whole₁⟩ := inner.ascii List.mem_cons_self slash (by decide)
          obtain ⟨bytes₂, whole₂, one⟩ :=
            inner.escape (List.mem_cons_of_mem _ List.mem_cons_self) found
          obtain ⟨bytes₃, whole₃⟩ := inner.ascii (by simp) closing (by decide)
          rw [run, if_pos (.inr rfl)]
          simp only [List.take_succ_cons, List.take_zero]
          rw [escapes_cons opening, escapes, if_pos slash, length_written_cons,
            length_written_cons, length_written_cons, length_written_cons, strays_cons,
            strays_cons first, strays_cons letter, one, bytes, bytes₁, bytes₂, bytes₃, whole,
            whole₁, whole₂, whole₃]
          rfl
    · have same : character (first :: rest) = characterEnd first.code 1 rest := by
        simp only [character, if_neg ends, if_neg slash]
      rw [same] at valid ⊢
      obtain ⟨last, others, rfl, closing, small, run⟩ := characterEnd_of_valid valid
      have own := inner.length_encode List.mem_cons_self
      obtain ⟨bytes₂, whole₂⟩ := inner.ascii (by simp) closing (by decide)
      have none : strays [first] = 0 := by
        have other : first.code ≠ Glyph.replacement := by
          unfold Glyph.replacement
          omega
        simp [strays, Glyph.isStray, other]
      rw [run, if_pos (.inr rfl)]
      simp only [List.take_succ_cons, List.take_zero]
      rw [escapes_cons opening, escapes_cons (by simpa using slash), length_written_cons,
        length_written_cons, length_written_cons, strays_cons, strays_cons first, bytes, bytes₂,
        whole, whole₂, own, none]
      simp only [written, List.flatMap_nil, List.length_nil, escapes]
      omega

/-- The literal of a lexeme has the bytes of its text, but for the quotes, the escapes and the stray
bytes of a literal in quotes. -/
theorem measured_lexeme (legible : Legible (glyph :: rest)) :
    (lexeme glyph rest).Measured (glyph :: rest) :=
  .either (fun _ => measured_word _) (.either (fun _ => measured_number _)
    (.either (fun quote => measured_string legible quote)
      (.either (fun quote => measured_character legible quote)
        (measured_symbol fun other mem => (legible.sound other mem).1))))

end Scan

end TinLang
