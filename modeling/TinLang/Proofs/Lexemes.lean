import TinLang.Proofs.Glyphs
import TinLang.Proofs.Scan

/-!
# Lexemes alone

The scanner decides where a lexeme ends by what follows it. Cut out of its text, a lexeme that is
no error is still the same lexeme (`Scan.local_lexeme`): the end of a text ends whatever another
glyph would have ended. The glyphs of a part of a text are that part of its glyphs
(`Scan.Legible.of_append`), so this can be said of the bytes, too.
-/
namespace TinLang

variable {rest : List Glyph} {count width : Nat}

namespace Glyph

/-- A front glyph is read as well when its bytes are followed by less than there was. -/
theorem first_of_append {lead : UInt8} {tail less more : Text}
    (bytes : (first lead (tail ++ less ++ more)).bytes = lead :: tail) :
    first lead (tail ++ less) = first lead (tail ++ less ++ more) := by
  cases found : wellFormed? lead (tail ++ less ++ more) with
  | some glyph =>
    have same : first lead (tail ++ less ++ more) = glyph := by rw [first, found, Option.getD_some]
    obtain ⟨own, parts, read⟩ := exact_wellFormed? found
    obtain rfl : own = tail := by
      rw [same, parts] at bytes
      exact (List.cons.inj bytes).2
    rw [same, first, read less, Option.getD_some]
  | none =>
    have missing : wellFormed? lead (tail ++ less) = none := by
      cases shorter : wellFormed? lead (tail ++ less) with
      | none => rfl
      | some glyph => rw [wellFormed?_append shorter more] at found; contradiction
    rw [first, first, found, missing]

end Glyph

namespace Scan

/-- The glyphs of what some glyphs write are these glyphs. -/
def Legible (glyphs : List Glyph) : Prop := Text.glyphs (written glyphs) = glyphs

theorem written_append (left right : List Glyph) :
    written (left ++ right) = written left ++ written right := List.flatMap_append

/-- The glyphs of a text are legible. -/
theorem legible_glyphs (text : Text) : Legible text.glyphs := by
  rw [Legible, written, Text.flatMap_glyphs]

variable {glyph : Glyph} {left right glyphs : List Glyph}

/-- The first of legible glyphs is read from its own bytes, and the others are legible. -/
theorem Legible.of_cons (legible : Legible (glyph :: glyphs)) :
    Legible glyphs ∧ ∃ lead tail, glyph.bytes = lead :: tail ∧
      Glyph.first lead (tail ++ written glyphs) = glyph := by
  have solid : glyph.bytes ≠ [] := by
    refine (Text.glyphs_sound (written (glyph :: glyphs)) glyph ?_).2
    rw [legible]
    exact List.mem_cons_self
  obtain ⟨lead, tail, bytes⟩ := List.exists_cons_of_ne_nil solid
  have whole : written (glyph :: glyphs) = lead :: (tail ++ written glyphs) := by
    rw [written, List.flatMap_cons, bytes, List.cons_append]
    rfl
  rw [Legible, whole, Text.glyphs, Text.glyphsAfter, List.cons.injEq] at legible
  obtain ⟨front, later⟩ := legible
  rw [front, bytes, List.length_cons, Nat.add_sub_cancel, Text.glyphsAfter_length] at later
  exact ⟨later, lead, tail, bytes, front⟩

/-- A glyph that is read from its own bytes is legible in front of legible glyphs. -/
theorem Legible.cons {lead : UInt8} {tail : Text} (legible : Legible glyphs)
    (bytes : glyph.bytes = lead :: tail)
    (front : Glyph.first lead (tail ++ written glyphs) = glyph) : Legible (glyph :: glyphs) := by
  have whole : written (glyph :: glyphs) = lead :: (tail ++ written glyphs) := by
    rw [written, List.flatMap_cons, bytes, List.cons_append]
    rfl
  rw [Legible, whole, Text.glyphs, Text.glyphsAfter, List.cons.injEq]
  refine ⟨front, ?_⟩
  rw [front, bytes, List.length_cons, Nat.add_sub_cancel, Text.glyphsAfter_length]
  exact legible

/-- Both parts of legible glyphs are legible. -/
theorem Legible.of_append (legible : Legible (left ++ right)) : Legible left ∧ Legible right := by
  induction left with
  | nil => exact ⟨rfl, legible⟩
  | cons glyph left ih =>
    rw [List.cons_append] at legible
    obtain ⟨others, lead, tail, bytes, front⟩ := legible.of_cons
    obtain ⟨first, second⟩ := ih others
    refine ⟨first.cons bytes ?_, second⟩
    rw [written_append, ← List.append_assoc] at front
    rw [Glyph.first_of_append (by rw [front, bytes]), front]

theorem Legible.take (legible : Legible glyphs) (count : Nat) : Legible (glyphs.take count) := by
  rw [← List.take_append_drop count glyphs] at legible
  exact legible.of_append.1

theorem Legible.drop (legible : Legible glyphs) (count : Nat) : Legible (glyphs.drop count) := by
  rw [← List.take_append_drop count glyphs] at legible
  exact legible.of_append.2

/-- Legible glyphs are the glyphs of a text. -/
theorem Legible.sound (legible : Legible glyphs) :
    ∀ glyph ∈ glyphs, glyph.Plain ∧ glyph.bytes ≠ [] := by
  intro glyph mem
  exact Text.glyphs_sound (written glyphs) glyph (by rwa [legible])

/-- A lexeme that is no error. -/
def Lexeme.Valid (lexeme : Lexeme) : Prop := ∀ cause, lexeme.kind ≠ .error cause

@[simp] theorem not_valid_error (cause : LexicalError) (width : Nat) :
    ¬ (Lexeme.error cause width).Valid := fun valid => valid cause rfl

/-- A scanner gives the same lexeme when less follows the lexeme. Some glyphs of the lexeme stand
before those that the scanner is given. -/
def Local (before : Nat) (scan : List Glyph → Lexeme) : Prop :=
  ∀ glyphs, (scan glyphs).Valid → before ≤ (scan glyphs).width ∧
    (scan glyphs).width ≤ before + glyphs.length ∧
    ∀ count, (scan glyphs).width ≤ before + count → scan (glyphs.take count) = scan glyphs

section Scanners

variable {before : Nat} {first second : List Glyph → Lexeme}

/-- One of two local scanners is local when the choice does not look at the glyphs. -/
theorem Local.either {test : Prop} [Decidable test] (yes : test → Local before first)
    (no : ¬ test → Local before second) :
    Local before fun glyphs => if test then first glyphs else second glyphs := by
  by_cases chosen : test
  · simpa only [if_pos chosen] using yes chosen
  · simpa only [if_neg chosen] using no chosen

theorem local_error (cause : LexicalError) (width : List Glyph → Nat) :
    Local before fun glyphs => .error cause (width glyphs) :=
  fun _ valid => absurd valid (not_valid_error cause _)

/-- A local scanner of everything is a local scanner of what follows the first glyph. -/
theorem Local.after {glyph : Glyph} (whole : Local 0 first)
    (wide : ∀ rest, 0 < (first (glyph :: rest)).width) :
    Local 1 fun rest => first (glyph :: rest) := by
  intro rest valid
  obtain ⟨-, short, alone⟩ := whole (glyph :: rest) valid
  rw [List.length_cons, Nat.zero_add, Nat.add_comm] at short
  refine ⟨wide rest, short, fun count enough => ?_⟩
  dsimp only at enough
  have cut := alone (count + 1) (by omega)
  rwa [List.take_succ_cons] at cut

end Scanners

theorem takeWhile_take (class? : Glyph → Bool) (glyphs : List Glyph) (count : Nat) :
    (glyphs.take count).takeWhile class? = (glyphs.takeWhile class?).take count := by
  induction glyphs generalizing count with
  | nil => simp
  | cons glyph glyphs ih =>
    cases count with
    | zero => simp
    | succ count => by_cases inside : class? glyph <;> simp [inside, ih]

theorem takeWhile_take_of_le {class? : Glyph → Bool} {glyphs : List Glyph}
    (enough : (glyphs.takeWhile class?).length ≤ count) :
    (glyphs.take count).takeWhile class? = glyphs.takeWhile class? := by
  rw [takeWhile_take, List.take_of_length_le enough]

theorem width_word (glyphs : List Glyph) :
    (word glyphs).width = (glyphs.takeWhile isNameGlyph).length := by
  simp only [word]
  cases Keyword.ofWord? (written (glyphs.takeWhile isNameGlyph)) <;> rfl

theorem local_word : Local 0 word := by
  intro glyphs _
  rw [width_word, Nat.zero_add]
  refine ⟨Nat.zero_le _, (List.takeWhile_sublist _).length_le, fun count enough => ?_⟩
  rw [Nat.zero_add] at enough
  unfold word
  rw [takeWhile_take_of_le enough]

theorem digitRun_take {glyphs : List Glyph} (enough : digitRun glyphs ≤ count) :
    digitRun (glyphs.take count) = digitRun glyphs := by
  rw [digitRun, takeWhile_take_of_le enough, digitRun]

theorem digitRun_le (glyphs : List Glyph) : digitRun glyphs ≤ glyphs.length :=
  (List.takeWhile_sublist _).length_le

theorem fraction_le (glyphs : List Glyph) : fraction glyphs ≤ glyphs.length := by
  cases glyphs with
  | nil => exact Nat.le_refl 0
  | cons point rest =>
    have run := digitRun_le rest
    simp only [fraction, List.length_cons]
    split <;> omega

theorem fraction_take {glyphs : List Glyph} (enough : fraction glyphs ≤ count) :
    fraction (glyphs.take count) = fraction glyphs := by
  cases glyphs with
  | nil => simp
  | cons point rest =>
    cases count with
    | zero => exact (Nat.le_zero.mp enough).symm
    | succ count =>
      simp only [fraction, List.take_succ_cons] at enough ⊢
      by_cases some : (point.is '.' && decide (0 < digitRun rest)) = true
      · rw [if_pos some] at enough ⊢
        rw [digitRun_take (by omega), if_pos some]
      · rw [if_neg some]
        -- A run that is cut short has a digit only if the whole run has one.
        have none : ¬ (point.is '.' && decide (0 < digitRun (rest.take count))) = true := by
          intro found
          apply some
          simp only [Bool.and_eq_true, decide_eq_true_eq] at found ⊢
          refine ⟨found.1, Nat.lt_of_lt_of_le found.2 ?_⟩
          simp only [digitRun, takeWhile_take, List.length_take]
          exact Nat.min_le_right _ _
        rw [if_neg none]

/-- An exponent takes up the glyphs that it is said to, and is found when less follows it. -/
theorem exponent_take {glyphs : List Glyph}
    (found : exponent glyphs = .present width) : width ≤ glyphs.length ∧
      ∀ count, width ≤ count → exponent (glyphs.take count) = .present width := by
  rcases glyphs with _ | ⟨mark, _ | ⟨sign, rest⟩⟩
  · simp [exponent] at found
  · simp [exponent] at found
  · have run := digitRun_le rest
    simp only [exponent] at found
    repeat' split at found
    all_goals first
      | contradiction
      | obtain rfl := Exponent.present.inj found
        refine ⟨by simp only [List.length_cons]; omega, fun count enough => ?_⟩
        obtain ⟨more, rfl⟩ : ∃ more, count = more + 2 := ⟨count - 2, by omega⟩
        have cut : digitRun (rest.take more) = digitRun rest := digitRun_take (by omega)
        simp_all [exponent, List.take_succ_cons]

/-- Where there is no exponent, there is none in less. -/
theorem exponent_take_absent {glyphs : List Glyph} (found : exponent glyphs = .absent)
    (count : Nat) : exponent (glyphs.take count) = .absent := by
  rcases glyphs with _ | ⟨mark, _ | ⟨sign, rest⟩⟩
  · rw [List.take_nil, found]
  · cases count with
    | zero => rfl
    | succ => rw [List.take_succ_cons, List.take_nil, found]
  · rcases count with _ | _ | count
    · rfl
    · rfl
    · simp only [exponent] at found
      simp only [List.take_succ_cons, exponent]
      repeat' split at found
      all_goals first
        | contradiction
        | simp_all

theorem verbatim_take (kind : TokenKind) (inside : width ≤ count)
    (glyphs : List Glyph) :
    Lexeme.verbatim kind width (glyphs.take count) = .verbatim kind width glyphs := by
  rw [Lexeme.verbatim, Lexeme.verbatim, List.take_take, Nat.min_eq_left inside]

section Decimal

variable {glyphs : List Glyph} {whole part : Nat}

theorem decimal_of_absent (digits : digitRun glyphs = whole)
    (places : fraction (glyphs.drop whole) = part)
    (ending : exponent (glyphs.drop (whole + part)) = .absent) :
    decimal glyphs = .verbatim (if part = 0 then .integer else .float) (whole + part) glyphs := by
  simp only [decimal, digits, places, ending]

theorem decimal_of_present (digits : digitRun glyphs = whole)
    (places : fraction (glyphs.drop whole) = part)
    (ending : exponent (glyphs.drop (whole + part)) = .present width) :
    decimal glyphs = .verbatim .float (whole + part + width) glyphs := by
  simp only [decimal, digits, places, ending]

/-- A decimal number is its digits, its fraction and its exponent. Where it ends, none of them goes
on. -/
theorem local_decimal : Local 0 decimal := by
  intro glyphs valid
  obtain ⟨whole, digits⟩ : ∃ whole, digitRun glyphs = whole := ⟨_, rfl⟩
  obtain ⟨part, places⟩ : ∃ part, fraction (glyphs.drop whole) = part := ⟨_, rfl⟩
  have inside : whole + part ≤ glyphs.length := by
    have run := digitRun_le glyphs
    have point := fraction_le (glyphs.drop whole)
    rw [List.length_drop] at point
    omega
  have cut : ∀ count, whole + part ≤ count → digitRun (glyphs.take count) = whole ∧
      fraction ((glyphs.take count).drop whole) = part := by
    intro count enough
    refine ⟨by rw [digitRun_take (by omega), digits], ?_⟩
    rw [List.drop_take, fraction_take (by omega), places]
  cases ending : exponent (glyphs.drop (whole + part)) with
  | malformed => simp [decimal, digits, places, ending] at valid
  | absent =>
    rw [decimal_of_absent digits places ending]
    refine ⟨Nat.zero_le _, by simpa [Lexeme.verbatim] using inside, fun count enough => ?_⟩
    simp only [Lexeme.verbatim, Nat.zero_add] at enough
    obtain ⟨digits', places'⟩ := cut count enough
    have ending' : exponent ((glyphs.take count).drop (whole + part)) = .absent := by
      rw [List.drop_take, exponent_take_absent ending]
    rw [decimal_of_absent digits' places' ending', verbatim_take _ enough]
  | present width =>
    obtain ⟨short, alone⟩ := exponent_take ending
    rw [List.length_drop] at short
    rw [decimal_of_present digits places ending]
    refine ⟨Nat.zero_le _, by simp only [Lexeme.verbatim]; omega, fun count enough => ?_⟩
    simp only [Lexeme.verbatim, Nat.zero_add] at enough
    obtain ⟨digits', places'⟩ := cut count (by omega)
    have ending' : exponent ((glyphs.take count).drop (whole + part)) = .present width := by
      rw [List.drop_take, alone _ (by omega)]
    rw [decimal_of_present digits' places' ending', verbatim_take _ enough]

end Decimal

/-- A number that does not start with a zero and an x is decimal, and so is its front. -/
theorem number_take {zero mark : Glyph} (plain : ¬ (zero.is '0' && (mark.is 'x' || mark.is 'X')) =
    true)
    (rest : List Glyph) (count : Nat) :
    number ((zero :: mark :: rest).take count) = decimal ((zero :: mark :: rest).take count) := by
  rcases count with _ | _ | count
  · rfl
  · rfl
  · simp only [List.take_succ_cons, number, if_neg plain]

theorem local_number : Local 0 number := by
  intro glyphs valid
  rcases glyphs with _ | ⟨zero, _ | ⟨mark, rest⟩⟩
  · obtain ⟨low, high, alone⟩ := local_decimal [] valid
    refine ⟨low, high, fun count _ => ?_⟩
    rw [List.take_nil]
  · obtain ⟨low, high, alone⟩ := local_decimal [zero] valid
    refine ⟨low, high, fun count enough => Eq.trans ?_ (alone count enough)⟩
    rcases count with _ | count
    · rfl
    · rw [List.take_succ_cons, List.take_nil]
      rfl
  by_cases hex : (zero.is '0' && (mark.is 'x' || mark.is 'X')) = true
  · obtain ⟨run, digits⟩ : ∃ run, (rest.takeWhile Glyph.isHexDigit).length = run := ⟨_, rfl⟩
    have short : run ≤ rest.length := digits ▸ (List.takeWhile_sublist _).length_le
    by_cases none : run = 0
    · simp [number, hex, digits, none] at valid
    · have same : number (zero :: mark :: rest) =
          .verbatim .integer (run + 2) (zero :: mark :: rest) := by
        simp only [number, if_pos hex, digits, if_neg none]
      rw [same]
      refine ⟨Nat.zero_le _, by simp only [Lexeme.verbatim, List.length_cons]; omega, ?_⟩
      intro count enough
      simp only [Lexeme.verbatim, Nat.zero_add] at enough
      obtain ⟨more, rfl⟩ : ∃ more, count = more + 2 := ⟨count - 2, by omega⟩
      have digits' : ((rest.take more).takeWhile Glyph.isHexDigit).length = run := by
        rw [takeWhile_take_of_le (by omega), digits]
      rw [← verbatim_take _ enough]
      simp only [List.take_succ_cons, number, if_pos hex, digits', if_neg none]
  · have same : number (zero :: mark :: rest) = decimal (zero :: mark :: rest) := by
      simp only [number, if_neg hex]
    rw [same] at valid ⊢
    obtain ⟨low, high, alone⟩ := local_decimal (zero :: mark :: rest) valid
    exact ⟨low, high, fun count enough => by rw [number_take hex, alone count enough]⟩

/-- The inside of a string that is closed is found when less follows it. -/
theorem stringBody_take {glyphs : List Glyph} (closed : (stringBody glyphs).ending = .closed) :
    0 < (stringBody glyphs).width ∧ (stringBody glyphs).width ≤ glyphs.length ∧
      ∀ count, (stringBody glyphs).width ≤ count →
        stringBody (glyphs.take count) = stringBody glyphs := by
  fun_induction stringBody glyphs with
  | case1 | case2 | case4 | case5 | case6 | case9 => contradiction
  | case3 glyph other quote =>
    refine ⟨Nat.one_pos, Nat.le_refl _, fun count enough => ?_⟩
    rw [List.take_of_length_le enough]
    simp [stringBody, other, quote]
  | case7 glyph next rest other quote =>
    refine ⟨Nat.one_pos, by simp, fun count enough => ?_⟩
    simp only at enough
    rcases count with _ | _ | count
    · omega
    · simp [stringBody, other, quote]
    · simp [stringBody, other, quote]
  | case8 glyph next rest other quote slash code found ih =>
    obtain ⟨some, short, alone⟩ := ih closed
    refine ⟨by simp [StringBody.extend], by simpa [StringBody.extend] using short, ?_⟩
    intro count enough
    simp only [StringBody.extend] at enough
    obtain ⟨more, rfl⟩ : ∃ more, count = more + 2 := ⟨count - 2, by omega⟩
    simp only [List.take_succ_cons, stringBody, other, quote, slash, found, Bool.false_eq_true,
      ↓reduceIte]
    rw [alone more (by omega)]
  | case10 glyph next rest other quote slash ih =>
    obtain ⟨some, short, alone⟩ := ih closed
    refine ⟨by simp [StringBody.extend], by simpa [StringBody.extend] using short, ?_⟩
    intro count enough
    simp only [StringBody.extend] at enough
    obtain ⟨more, rfl⟩ : ∃ more, count = more + 2 := ⟨count - 2, by omega⟩
    have inner := alone (more + 1) (by omega)
    simp only [List.take_succ_cons] at inner
    simp only [List.take_succ_cons, stringBody, other, quote, slash, Bool.false_eq_true,
      ↓reduceIte]
    rw [inner]

theorem local_string : Local 1 string := by
  intro glyphs valid
  cases ending : (stringBody glyphs).ending with
  | unterminated | badEscape => simp [string, ending] at valid
  | closed =>
    obtain ⟨-, short, alone⟩ := stringBody_take ending
    have same : string glyphs = ⟨.string, (stringBody glyphs).value, (stringBody glyphs).width +
      1⟩ := by
      simp only [string, ending]
    rw [same]
    refine ⟨Nat.le_add_left _ _, by simp only; omega, fun count enough => ?_⟩
    simp only [Nat.add_comm _ 1, Nat.add_le_add_iff_left] at enough
    simp only [string, alone count enough, ending]

theorem local_characterEnd (code width : Nat) : Local (width + 1) (characterEnd code width) := by
  intro glyphs valid
  cases glyphs with
  | nil => simp [characterEnd] at valid
  | cons quote rest =>
    by_cases closed : quote.is '\''
    · by_cases wide : 0xFF < code
      · simp [characterEnd, closed, wide] at valid
      · have same : ∀ rest, characterEnd code width (quote :: rest) =
            ⟨.character, Glyph.encode code, width + 2⟩ := by
          intro rest
          simp only [characterEnd, if_pos closed, if_neg wide]
        rw [same]
        refine ⟨Nat.le_succ _, by simp only [List.length_cons]; omega, fun count enough => ?_⟩
        simp only at enough
        obtain ⟨more, rfl⟩ : ∃ more, count = more + 1 := ⟨count - 1, by omega⟩
        rw [List.take_succ_cons, same]
    · simp [characterEnd, closed] at valid

/-- A scanner that refuses the end of the text is local when it is from its first glyph on. -/
theorem Local.step {before : Nat} {scan : List Glyph → Lexeme} (nothing : ¬ (scan []).Valid)
    (later : ∀ glyph, Local (before + 1) fun rest => scan (glyph :: rest)) : Local before scan := by
  intro glyphs valid
  cases glyphs with
  | nil => exact absurd valid nothing
  | cons glyph rest =>
    obtain ⟨low, high, alone⟩ := later glyph rest valid
    simp only at low high alone
    rw [List.length_cons]
    refine ⟨by omega, by omega, fun count enough => ?_⟩
    obtain ⟨more, rfl⟩ : ∃ more, count = more + 1 := ⟨count - 1, by omega⟩
    rw [List.take_succ_cons, alone more (by omega)]

theorem local_character : Local 1 character := by
  refine .step (not_valid_error _ _) fun glyph => ?_
  by_cases ends : (glyph.is '\'' || glyph.is '\n') = true
  · simpa only [character, if_pos ends] using local_error _ _
  by_cases slash : glyph.is '\\'
  · refine .step (by simp [character, ends, slash]) fun letter => ?_
    cases found : escape? letter with
    | none => simpa only [character, if_neg ends, if_pos slash, found] using local_error _ _
    | some code =>
      simpa only [character, if_neg ends, if_pos slash, found] using local_characterEnd code 2
  · simpa only [character, if_neg ends, if_neg slash] using local_characterEnd glyph.code 1

/-- A lexeme found before another glyph is as wide as two glyphs, or it is found at the end of the
text, too. -/
def Lexeme.Shrinks (short long : Lexeme) : Prop :=
  long.Valid → long.width = 2 ∨ (long.width = 1 ∧ short = long)

theorem shrinks_symbol (glyph next : Glyph) (rest : List Glyph) :
    (symbol glyph []).Shrinks (symbol glyph (next :: rest)) := by
  have single : ∀ sign : Symbol, Lexeme.Shrinks ⟨.symbol sign, sign.text, 1⟩
      ⟨.symbol sign, sign.text, 1⟩ := fun _ _ => .inr ⟨rfl, rfl⟩
  have double : ∀ (test : Prop) [Decidable test] (long short : Symbol),
      Lexeme.Shrinks (if false = true then ⟨.symbol long, long.text, 2⟩
        else ⟨.symbol short, short.text, 1⟩)
        (if test then ⟨.symbol long, long.text, 2⟩ else ⟨.symbol short, short.text, 1⟩) := by
    intro test _ long short _
    by_cases longer : test
    · exact .inl (by rw [if_pos longer])
    · exact .inr ⟨by rw [if_neg longer], by rw [if_neg longer, if_neg Bool.false_ne_true]⟩
  have choice : ∀ (test : Prop) [Decidable test] {first second first' second' : Lexeme},
      first.Shrinks first' → second.Shrinks second' →
        (if test then first else second).Shrinks (if test then first' else second') := by
    intro test _ first second first' second' yes no
    split <;> assumption
  have guarded : ∀ (front next : Bool) (long : Symbol) {second second' : Lexeme},
      second.Shrinks second' →
        (if (front && false) = true then ⟨.symbol long, long.text, 2⟩ else second).Shrinks
          (if (front && next) = true then ⟨.symbol long, long.text, 2⟩ else second') := by
    intro front next long second second' no
    rw [Bool.and_false, if_neg Bool.false_ne_true]
    split
    · exact fun _ => .inl rfl
    · exact no
  unfold symbol
  simp only
  repeat' first
    | exact single _
    | exact double _ _ _
    | exact fun valid => absurd valid (not_valid_error _ _)
    | apply guarded
    | apply choice

/-- At the end of the text a symbol is one glyph. -/
theorem width_symbol_nil (glyph : Glyph) : (symbol glyph []).width = 1 := by
  have one : ∀ (test : Prop) [Decidable test] {first second : Lexeme},
      first.width = 1 → second.width = 1 → (if test then first else second).width = 1 := by
    intro test _ first second yes no
    split <;> assumption
  simp only [symbol, Bool.and_false, Bool.false_eq_true, ↓reduceIte]
  repeat' first
    | rfl
    | apply one

theorem local_symbol (glyph : Glyph) : Local 1 (symbol glyph) := by
  intro glyphs valid
  cases glyphs with
  | nil =>
    rw [width_symbol_nil]
    exact ⟨Nat.le_refl _, Nat.le_refl _, fun count _ => by rw [List.take_nil]⟩
  | cons next rest =>
    rw [List.length_cons]
    rcases shrinks_symbol glyph next rest valid with wide | ⟨narrow, same⟩
    · rw [wide]
      refine ⟨by omega, by omega, fun count enough => ?_⟩
      obtain ⟨more, rfl⟩ : ∃ more, count = more + 1 := ⟨count - 1, by omega⟩
      rfl
    · rw [narrow]
      refine ⟨by omega, by omega, fun count _ => ?_⟩
      cases count with
      | zero => exact same
      | succ => rfl

/-- A lexeme that is no error takes up the glyphs it is said to, and is found alone. -/
theorem local_lexeme (glyph : Glyph) : Local 1 (lexeme glyph) := by
  refine .either (fun letter => local_word.after fun rest => ?_) fun _ =>
    .either (fun digit => local_number.after fun rest => (sound_number digit).wide) fun _ =>
      .either (fun _ => local_string) fun _ => .either (fun _ => local_character) fun _ =>
        local_symbol glyph
  have named : isNameGlyph glyph := by simp [isNameGlyph, letter]
  rw [width_word, List.takeWhile_cons_of_pos named]
  exact Nat.succ_pos _

theorem kind_word (glyphs : List Glyph) :
    (∃ reserved, (word glyphs).kind = .keyword reserved) ∨ (word glyphs).kind = .identifier := by
  simp only [word]
  split
  · exact .inl ⟨_, rfl⟩
  · exact .inr rfl

/-- What a number can be. -/
def Lexeme.Numeric (lexeme : Lexeme) : Prop :=
  lexeme.kind = .integer ∨ lexeme.kind = .float ∨ ∃ cause, lexeme.kind = .error cause

theorem numeric_decimal (glyphs : List Glyph) : (decimal glyphs).Numeric := by
  unfold decimal
  dsimp only
  split
  · exact .inr (.inl rfl)
  · exact .inr (.inr ⟨_, rfl⟩)
  · unfold Lexeme.Numeric Lexeme.verbatim
    split
    · exact .inl rfl
    · exact .inr (.inl rfl)

theorem numeric_number (glyphs : List Glyph) : (number glyphs).Numeric := by
  unfold number
  split
  · dsimp only
    split
    · split
      · exact .inr (.inr ⟨_, rfl⟩)
      · exact .inl rfl
    · exact numeric_decimal _
  · exact numeric_decimal _

/-- What a sign can be. -/
def Lexeme.Symbolic (lexeme : Lexeme) : Prop :=
  (∃ sign, lexeme.kind = .symbol sign) ∨ ∃ cause, lexeme.kind = .error cause

theorem symbolic_symbol (glyph : Glyph) (rest : List Glyph) : (symbol glyph rest).Symbolic := by
  have choice : ∀ {first second : Lexeme} {test : Prop} [Decidable test],
      first.Symbolic → second.Symbolic → (if test then first else second).Symbolic := by
    intro first second test _ yes no
    split <;> assumption
  unfold symbol
  simp only
  repeat' first
    | exact .inl ⟨_, rfl⟩
    | exact .inr ⟨_, rfl⟩
    | apply choice

/-- A glyph of an ASCII character is written in the byte of it. -/
theorem bytes_of_is {glyph : Glyph} {character : Char} (plain : glyph.Plain)
    (same : glyph.is character) (small : character.toNat < 0x80) :
    glyph.bytes = [Text.byte character] := by
  rw [Glyph.is, beq_iff_eq] at same
  rw [plain (by omega), same]
  simp only [Glyph.encode, small, ↓reduceIte]
  rfl

/-- A lexeme that is no error and no literal in quotes has the text that it takes up. -/
def Lexeme.Literally (glyphs : List Glyph) (lexeme : Lexeme) : Prop :=
  lexeme.Valid → lexeme.kind ≠ .string → lexeme.kind ≠ .character →
    lexeme.literal = written (glyphs.take lexeme.width)

section Literally

variable {glyphs : List Glyph}

theorem literally_error (cause : LexicalError) (width : Nat) :
    (Lexeme.error cause width).Literally glyphs :=
  fun valid => absurd valid (not_valid_error cause width)

theorem Lexeme.Literally.either {test : Prop} [Decidable test] {first second : Lexeme}
    (yes : test → first.Literally glyphs) (no : second.Literally glyphs) :
    (if test then first else second).Literally glyphs := by
  by_cases chosen : test
  · simpa only [if_pos chosen] using yes chosen
  · simpa only [if_neg chosen] using no

theorem literally_word (glyphs : List Glyph) : (word glyphs).Literally glyphs := by
  intro _ _ _
  have front := List.prefix_iff_eq_take.mp (List.takeWhile_prefix (l := glyphs) isNameGlyph)
  rw [width_word, ← front]
  simp only [word]
  cases Keyword.ofWord? (written (glyphs.takeWhile isNameGlyph)) <;> rfl

theorem literally_decimal (glyphs : List Glyph) : (decimal glyphs).Literally glyphs := by
  unfold decimal
  simp only
  split
  · exact fun _ _ _ => rfl
  · exact literally_error _ _
  · exact fun _ _ _ => rfl

theorem literally_number (glyphs : List Glyph) : (number glyphs).Literally glyphs := by
  rcases glyphs with _ | ⟨zero, _ | ⟨mark, rest⟩⟩
  · exact literally_decimal _
  · exact literally_decimal _
  · exact .either (fun _ => .either (fun _ => literally_error _ _) fun _ _ _ => rfl)
      (literally_decimal _)

end Literally

theorem literally_symbol {glyph : Glyph}
    (plain : ∀ other ∈ glyph :: rest, other.Plain) :
    (symbol glyph rest).Literally (glyph :: rest) := by
  have single : ∀ {character : Char} {sign : Symbol}, glyph.is character →
      character.toNat < 0x80 → sign.text = [Text.byte character] →
        Lexeme.Literally (glyph :: rest) ⟨.symbol sign, sign.text, 1⟩ := by
    intro character sign same small text _ _ _
    simp [written, text, bytes_of_is (plain glyph (by simp)) same small]
  have long : ∀ {first second : Char} {sign : Symbol} {next : Glyph} {later : List Glyph},
      rest = next :: later → glyph.is first → next.is second → first.toNat < 0x80 →
        second.toNat < 0x80 → sign.text = [Text.byte first, Text.byte second] →
          Lexeme.Literally (glyph :: rest) ⟨.symbol sign, sign.text, 2⟩ := by
    intro first second sign next later parts same same' small small' text _ _ _
    subst parts
    simp [written, text, bytes_of_is (plain glyph (by simp)) same small,
      bytes_of_is (plain next (by simp)) same' small']
  cases rest with
  | nil =>
    simp only [symbol, Bool.and_false, Bool.false_eq_true, ↓reduceIte]
    repeat' first
      | exact literally_error _ _
      | exact single (by assumption) (by decide) rfl
      | refine .either (fun _ => ?_) ?_
  | cons next rest =>
    have both : (glyph.is '|' && next.is '|') = true →
        Lexeme.Literally (glyph :: next :: rest) ⟨.symbol .orOr, Symbol.orOr.text, 2⟩ := by
      intro test
      obtain ⟨first, second⟩ := (Bool.and_eq_true _ _).mp test
      exact long rfl first second (by decide) (by decide) rfl
    simp only [symbol]
    repeat' first
      | exact literally_error _ _
      | exact single (by assumption) (by decide) rfl
      | exact long rfl (by assumption) (by assumption) (by decide) (by decide) rfl
      | exact both (by assumption)
      | refine .either (fun _ => ?_) ?_

theorem literally_quoted {lexeme : Lexeme} (glyphs : List Glyph)
    (quoted : lexeme.Valid → lexeme.kind = .string ∨ lexeme.kind = .character) :
    lexeme.Literally glyphs := by
  intro valid string character
  rcases quoted valid with kind | kind
  · exact absurd kind string
  · exact absurd kind character

theorem quoted_string (glyphs : List Glyph) (valid : (string glyphs).Valid) :
    (string glyphs).kind = .string := by
  cases ending : (stringBody glyphs).ending with
  | closed => simp [string, ending]
  | unterminated | badEscape => simp [string, ending] at valid

theorem quoted_characterEnd (code width : Nat) (glyphs : List Glyph)
    (valid : (characterEnd code width glyphs).Valid) :
    (characterEnd code width glyphs).kind = .character := by
  unfold characterEnd at valid ⊢
  repeat' split
  all_goals simp_all

theorem quoted_character (glyphs : List Glyph) (valid : (character glyphs).Valid) :
    (character glyphs).kind = .character := by
  unfold character at valid ⊢
  repeat' split
  all_goals simp_all [quoted_characterEnd]

/-- The literal of a lexeme is the text that it takes up, unless it is an error or in quotes. -/
theorem literally_lexeme {glyph : Glyph}
    (plain : ∀ other ∈ glyph :: rest, other.Plain) :
    (lexeme glyph rest).Literally (glyph :: rest) :=
  .either (fun _ => literally_word _) (.either (fun _ => literally_number _)
    (.either (fun _ => literally_quoted _ fun valid => .inl (quoted_string rest valid))
      (.either (fun _ => literally_quoted _ fun valid => .inr (quoted_character rest valid))
        (literally_symbol plain))))

/-- No lexeme starts with a blank. -/
theorem isSpace_of_valid {glyph : Glyph} (valid : (lexeme glyph rest).Valid) :
    glyph.isSpace = false := by
  cases space : glyph.isSpace with
  | false => rfl
  | true =>
    exfalso
    have code : glyph.code < 33 ∨ 128 ≤ glyph.code := by
      simp only [Glyph.isSpace, Bool.or_eq_true, Bool.and_eq_true, decide_eq_true_eq,
        beq_iff_eq] at space
      omega
    have other : ∀ character : Char, 33 ≤ character.toNat → character.toNat < 128 →
        glyph.is character = false := by
      intro character low high
      rw [Glyph.is, beq_eq_false_iff_ne]
      omega
    have noLetter : glyph.isLetter = false := by
      simp only [Glyph.isLetter, Bool.or_eq_false_iff, Bool.and_eq_false_iff,
        decide_eq_false_iff_not, beq_eq_false_iff_ne]
      omega
    have noDigit : glyph.isDigit = false := by
      simp only [Glyph.isDigit, Bool.and_eq_false_iff, decide_eq_false_iff_not]
      omega
    simp [lexeme, noLetter, noDigit, symbol, other] at valid

/-- Only the slash itself is a lexeme that starts with a slash. -/
theorem width_of_slash {glyph : Glyph} (slash : glyph.is '/') (rest : List Glyph) :
    (lexeme glyph rest).width = 1 := by
  rw [Glyph.is, beq_iff_eq] at slash
  have code : glyph.code = 47 := slash
  simp [lexeme, symbol, Glyph.isLetter, Glyph.isDigit, Glyph.is, code]

/-- Nothing of a lexeme alone is a gap. -/
theorem gap_of_valid {glyph : Glyph} (valid : (lexeme glyph rest).Valid) :
    gap .blank (glyph :: rest.take ((lexeme glyph rest).width - 1)) = ⟨0, true⟩ := by
  have solid := isSpace_of_valid valid
  cases slash : glyph.is '/' with
  | true => simp [width_of_slash slash, gap, solid]
  | false =>
    cases rest.take ((lexeme glyph rest).width - 1) with
    | nil => simp [gap, solid]
    | cons next rest => simp [gap, solid, slash]

end Scan

end TinLang
