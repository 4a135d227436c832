import Mathlib.Data.List.Forall2
import TinLang.Proofs.Glyphs
import TinLang.Proofs.Text
import TinLang.Syntax.Print

/-!
# Scanning words

Each word of the language is read back from its text, as long as what follows does not join it to
something longer. A sequence of words with blanks between them is therefore scanned as the same
words, whatever the blanks are.
-/
namespace TinLang

variable {rest : List Glyph} {glyph : Glyph} {word : SyntaxWord} {words : List SyntaxWord}
    {text : Text}

/-- A token reads as a word: numbers by their value, all else by kind and literal. -/
def Token.Says (token : Token) : SyntaxWord → Prop
  | .integer value => token.kind = .integer ∧ Numeral.literal? token.literal = some value
  | .float bits => token.kind = .float ∧ Single.read? token.literal = some bits
  | .string value => token.kind = .string ∧ token.literal = value
  | .character value => token.kind = .character ∧ token.literal = Glyph.encode value.toNat
  | .name name => token.kind = .identifier ∧ token.literal = name
  | .keyword reserved => token.kind = .keyword reserved ∧ token.literal = reserved.word
  | .symbol sign => token.kind = .symbol sign ∧ token.literal = sign.text

/-- A byte that is an ASCII character, as a glyph. -/
def Glyph.ascii (byte : UInt8) : Glyph := ⟨byte.toNat, [byte]⟩

/-- A name of the language: letters and digits, a letter first, and no reserved word. -/
def Text.isName : Text → Bool
  | [] => false
  | first :: rest =>
    (Glyph.ascii first).isLetter && rest.all (fun byte => Scan.isNameGlyph (.ascii byte)) &&
      (Keyword.ofWord? (first :: rest)).isNone

namespace SyntaxWord

/-- A word that its text gives back: a string is UTF-8, a name is a name, and a floating-point
number may lose places. -/
def isProper : SyntaxWord → Bool
  | .float _ => false
  | .string value => value.isUtf8
  | .name spelling => spelling.isName
  | .integer _ | .character _ | .keyword _ | .symbol _ => true

/-- A glyph right after a word would be read as part of it, or start a comment with it. -/
def joins : SyntaxWord → Glyph → Bool
  | .integer _, glyph | .float _, glyph => Scan.isNameGlyph glyph || glyph.is '.'
  | .name _, glyph | .keyword _, glyph => Scan.isNameGlyph glyph
  | .symbol .plus, glyph => glyph.is '+'
  | .symbol .minus, glyph => glyph.is '-'
  | .symbol .slash, glyph => glyph.is '/' || glyph.is '*'
  | .symbol .amp, glyph => glyph.is '&'
  | .symbol .bang, glyph | .symbol .assign, glyph | .symbol .less, glyph
  | .symbol .greater, glyph => glyph.is '='
  | _, _ => false

/-- No glyph that follows joins the word. -/
def Parts (word : SyntaxWord) (rest : List Glyph) : Prop := ∀ glyph ∈ rest.head?, word.joins
    glyph = false

/-- A blank joins no word. -/
theorem parts_blank (word : SyntaxWord) (rest : List Glyph) :
    word.Parts (Glyph.ascii (Text.byte ' ') :: rest) := by
  intro glyph found
  obtain rfl := Option.some.inj found
  cases word with
  | symbol sign => cases sign <;> rfl
  | integer | float | string | character | name | keyword => rfl

end SyntaxWord

namespace Scan

/-- The scanner finds a word in some glyphs that others follow. -/
def Finds (word : SyntaxWord) (glyphs rest : List Glyph) : Prop :=
  ∃ first others, glyphs = first :: others ∧ gap .blank (glyphs ++ rest) = ⟨0, true⟩ ∧
    (lexeme first (others ++ rest)).width = glyphs.length ∧
      ∀ position, (⟨(lexeme first (others ++ rest)).kind, (lexeme first (others ++ rest)).literal,
        position⟩ : Token).Says word

/-- A glyph that is no blank and starts no comment ends a gap. -/
theorem gap_eq {first : Glyph} (solid : first.isSpace = false)
    (plain : first.is '/' = false ∨ ∀ next ∈ rest.head?, next.is '/' = false ∧
    next.is '*' = false) :
    gap .blank (first :: rest) = ⟨0, true⟩ := by
  cases rest with
  | nil => simp [gap, solid]
  | cons next rest =>
    rcases plain with plain | plain
    · simp [gap, solid, plain]
    · obtain ⟨slash, star⟩ := plain next rfl
      simp [gap, solid, slash, star]

/-- A run of glyphs ends where the next glyph is of another class. -/
theorem takeWhile_run {class? : Glyph → Bool} {run : List Glyph}
    (inside : ∀ glyph ∈ run, class? glyph) (outside : ∀ glyph ∈ rest.head?, class? glyph = false) :
    (run ++ rest).takeWhile class? = run := by
  rw [List.takeWhile_append_of_pos inside]
  cases rest with
  | nil => simp
  | cons glyph rest => simp [outside glyph rfl]

/-- The bytes of glyphs that are ASCII characters. -/
theorem written_ascii (text : Text) : written (text.map Glyph.ascii) = text := by
  induction text with
  | nil => rfl
  | cons byte text ih =>
    simp only [written, List.map_cons, List.flatMap_cons] at ih ⊢
    rw [ih]
    rfl

/-- The glyphs of a text of name characters. -/
theorem glyphs_named (named : ∀ byte ∈ text, isNameGlyph (.ascii byte)) :
    text.glyphs = text.map Glyph.ascii :=
  Text.glyphs_ascii fun byte mem => ascii_of_isNameGlyph (named byte mem)

/-- A letter is no blank. -/
theorem isSpace_of_isNameGlyph (named : isNameGlyph glyph) :
    glyph.isSpace = false ∧ glyph.is '/' = false := by
  simp only [isNameGlyph, Glyph.isLetter, Glyph.isDigit, Bool.or_eq_true, Bool.and_eq_true,
    decide_eq_true_eq, beq_iff_eq] at named
  simp only [Glyph.isSpace, Glyph.is, Bool.or_eq_false_iff, Bool.and_eq_false_iff,
    decide_eq_false_iff_not, beq_eq_false_iff_ne]
  refine ⟨by omega, ?_⟩
  have slash : '/'.toNat = 47 := rfl
  omega

/-- Name characters, a letter first, are scanned as one word. -/
theorem lexeme_named {first : UInt8} {others : Text}
    (letter : (Glyph.ascii first).isLetter) (named : ∀ byte ∈ others, isNameGlyph (.ascii byte))
    (ends : ∀ glyph ∈ rest.head?, isNameGlyph glyph = false) :
    lexeme (.ascii first) (others.map Glyph.ascii ++ rest) =
      match Keyword.ofWord? (first :: others) with
      | some keyword => ⟨.keyword keyword, first :: others, others.length + 1⟩
      | none => ⟨.identifier, first :: others, others.length + 1⟩ := by
  have inside : ∀ glyph ∈ (first :: others).map Glyph.ascii, isNameGlyph glyph := by
    intro glyph mem
    obtain ⟨byte, found, rfl⟩ := List.mem_map.mp mem
    rcases List.mem_cons.mp found with rfl | later
    · simp [isNameGlyph, letter]
    · exact named byte later
  have run := takeWhile_run inside ends
  simp only [List.map_cons, List.cons_append] at run
  simp only [lexeme, letter, ↓reduceIte, word, run]
  rw [← List.map_cons, written_ascii]
  cases Keyword.ofWord? (first :: others) <;> simp

/-- What is known of a word that starts with a letter. -/
theorem finds_named {first : UInt8} {others : Text}
    (letter : (Glyph.ascii first).isLetter) (named : ∀ byte ∈ others, isNameGlyph (.ascii byte))
    (ends : ∀ glyph ∈ rest.head?, isNameGlyph glyph = false)
    (spoken : ∀ position, match Keyword.ofWord? (first :: others) with
      | some keyword => (⟨.keyword keyword, first :: others, position⟩ : Token).Says word
      | none => (⟨.identifier, first :: others, position⟩ : Token).Says word) :
    Finds word (Text.glyphs (first :: others)) rest := by
  have whole : ∀ byte ∈ first :: others, isNameGlyph (.ascii byte) := by
    intro byte mem
    rcases List.mem_cons.mp mem with rfl | later
    · simp [isNameGlyph, letter]
    · exact named byte later
  have solid := isSpace_of_isNameGlyph (whole first (by simp))
  refine ⟨.ascii first, others.map Glyph.ascii, glyphs_named whole, ?_, ?_, ?_⟩
  · rw [glyphs_named whole]
    exact gap_eq solid.1 (.inl solid.2)
  · rw [lexeme_named letter named ends, glyphs_named whole]
    cases Keyword.ofWord? (first :: others) <;> simp
  · rw [lexeme_named letter named ends]
    intro position
    have said := spoken position
    cases found : Keyword.ofWord? (first :: others) <;> simpa [found] using said

theorem finds_name {name : Text} (proper : name.isName)
    (ends : (SyntaxWord.name name).Parts rest) : Finds (.name name) name.glyphs rest := by
  cases name with
  | nil => simp [Text.isName] at proper
  | cons first others =>
    simp only [Text.isName, Bool.and_eq_true, List.all_eq_true, Option.isNone_iff_eq_none] at proper
    refine finds_named proper.1.1 proper.1.2 ends fun position => ?_
    rw [proper.2]
    exact ⟨rfl, rfl⟩

theorem named_keyword (reserved : Keyword) : ∀ byte ∈ reserved.word, isNameGlyph (.ascii byte) := by
  have all : reserved.word.all fun byte => isNameGlyph (.ascii byte) := by cases reserved <;> rfl
  exact List.all_eq_true.mp all

theorem finds_keyword {reserved : Keyword}
    (ends : (SyntaxWord.keyword reserved).Parts rest) :
    Finds (.keyword reserved) reserved.word.glyphs rest := by
  obtain ⟨first, others, word, letter⟩ : ∃ first others, reserved.word = first :: others ∧
      (Glyph.ascii first).isLetter := by
    cases reserved <;> exact ⟨_, _, rfl, rfl⟩
  have named : ∀ byte ∈ others, isNameGlyph (.ascii byte) := fun byte mem =>
    named_keyword reserved byte (by rw [word]; exact List.mem_cons_of_mem _ mem)
  rw [word]
  refine finds_named letter named ends fun position => ?_
  rw [← word, Keyword.ofWord?_word]
  exact ⟨rfl, rfl⟩

/-- A number of several digits does not start with a zero. -/
theorem head_ofNat {number : Nat} (large : 10 ≤ number) :
    ∃ first rest, Text.ofNat number = first :: rest ∧ first ≠ Text.byte '0' := by
  induction number using Nat.strongRecOn with
  | _ number ih =>
    have split : Text.ofNat number =
        Text.ofNat (number / 10) ++ [Text.byte (Nat.digitChar (number % 10))] := by
      rw [Text.ofNat, Text.digits, Nat.toDigits_eq_if (by decide), if_neg (by omega),
        List.map_append]
      rfl
    by_cases more : 10 ≤ number / 10
    · obtain ⟨first, rest, written, nonzero⟩ := ih (number / 10) (by omega) more
      exact ⟨first, rest ++ [Text.byte (Nat.digitChar (number % 10))], by rw [split, written]; rfl,
        nonzero⟩
    · have single : Text.ofNat (number / 10) = [Text.byte (Nat.digitChar (number / 10))] := by
        rw [Text.ofNat, Text.digits, Nat.toDigits_eq_if (by decide), if_pos (by omega)]
        rfl
      refine ⟨_, _, by rw [split, single]; rfl, ?_⟩
      have nonzero : ∀ digit < 10, 0 < digit → Text.byte (Nat.digitChar digit) ≠ Text.byte '0' := by
        decide
      exact nonzero _ (by omega) (by omega)

/-- A decimal numeral is an integer literal of its number. -/
theorem literal?_ofNat (number : Nat) : Numeral.literal? (Text.ofNat number) = some number := by
  have read := Numeral.continued_ofNat number
  by_cases large : 10 ≤ number
  · obtain ⟨first, rest, written, nonzero⟩ := head_ofNat large
    rw [written] at read ⊢
    cases rest with
    | nil => exact read
    | cons second rest => simpa [Numeral.literal?, nonzero] using read
  · have single : Text.ofNat number = [Text.byte (Nat.digitChar number)] := by
      rw [Text.ofNat, Text.digits, Nat.toDigits_eq_if (by decide), if_pos (by omega)]
      rfl
    rw [single] at read ⊢
    exact read

/-- The characters of a decimal numeral. -/
theorem isDigit_of_mem_ofNat {number : Nat} {byte : UInt8} (mem : byte ∈ Text.ofNat number) :
    (Glyph.ascii byte).isDigit := by
  obtain ⟨digit, small, rfl⟩ := Text.digit_of_mem_ofNat mem
  have each : ∀ digit < 10, (Glyph.ascii (Text.byte (Nat.digitChar digit))).isDigit := by decide
  exact each digit small

/-- A run of digits that nothing continues is an integer. -/
theorem decimal_digits {run : List Glyph} (digits : ∀ glyph ∈ run, glyph.isDigit)
    (ends : ∀ glyph ∈ rest.head?, isNameGlyph glyph = false ∧ glyph.is '.' = false) :
    decimal (run ++ rest) = ⟨.integer, written run, run.length⟩ := by
  have taken : (run ++ rest).takeWhile Glyph.isDigit = run := by
    refine takeWhile_run digits fun glyph found => ?_
    have other := (ends glyph found).1
    simp only [isNameGlyph, Bool.or_eq_false_iff] at other
    exact other.2
  have noFraction : fraction rest = 0 := by
    cases rest with
    | nil => rfl
    | cons point rest => simp [fraction, (ends point rfl).2]
  have noExponent : exponent rest = .absent := by
    cases rest with
    | nil => rfl
    | cons mark rest =>
      have unnamed := (ends mark rfl).1
      have marks : mark.is 'e' = false ∧ mark.is 'E' = false := by
        simp only [isNameGlyph, Glyph.isLetter, Bool.or_eq_false_iff, Bool.and_eq_false_iff,
          decide_eq_false_iff_not, beq_eq_false_iff_ne] at unnamed
        simp only [Glyph.is, beq_eq_false_iff_ne]
        have small : 'e'.toNat = 101 := rfl
        have great : 'E'.toNat = 69 := rfl
        omega
      cases rest with
      | nil => rfl
      | cons sign rest => simp [exponent, marks]
  simp only [decimal, digitRun, taken, List.drop_left, noFraction, Nat.add_zero, noExponent,
    ↓reduceIte, Lexeme.verbatim, List.take_left]

/-- A number whose second character is a digit or no letter is decimal. -/
theorem number_eq_decimal {first : Glyph}
    (plain : ∀ glyph ∈ rest.head?, glyph.isLetter = false) :
    number (first :: rest) = decimal (first :: rest) := by
  cases rest with
  | nil => rfl
  | cons mark rest =>
    have unlettered := plain mark rfl
    have marks : mark.is 'x' = false ∧ mark.is 'X' = false := by
      simp only [Glyph.isLetter, Bool.or_eq_false_iff, Bool.and_eq_false_iff,
        decide_eq_false_iff_not, beq_eq_false_iff_ne] at unlettered
      simp only [Glyph.is, beq_eq_false_iff_ne]
      have small : 'x'.toNat = 120 := rfl
      have great : 'X'.toNat = 88 := rfl
      omega
    simp [number, marks]

theorem isLetter_of_isDigit (digit : glyph.isDigit) : glyph.isLetter = false := by
  simp only [Glyph.isDigit, Bool.and_eq_true, decide_eq_true_eq] at digit
  simp only [Glyph.isLetter, Bool.or_eq_false_iff, Bool.and_eq_false_iff, decide_eq_false_iff_not,
    beq_eq_false_iff_ne]
  omega

theorem finds_integer {number : Nat} (ends : (SyntaxWord.integer number).Parts rest) :
    Finds (.integer number) (Text.ofNat number).glyphs rest := by
  have digits : ∀ byte ∈ Text.ofNat number, (Glyph.ascii byte).isDigit :=
    fun byte => isDigit_of_mem_ofNat
  have named : ∀ byte ∈ Text.ofNat number, isNameGlyph (.ascii byte) := by
    intro byte mem
    simp [isNameGlyph, digits byte mem]
  have literal := literal?_ofNat number
  obtain ⟨first, others, written⟩ := List.exists_cons_of_ne_nil (Text.ofNat_ne_nil number)
  rw [written] at digits named literal ⊢
  have ended : ∀ glyph ∈ rest.head?, isNameGlyph glyph = false ∧ glyph.is '.' = false := by
    intro glyph found
    exact Bool.or_eq_false_iff.mp (ends glyph found)
  have solid := isSpace_of_isNameGlyph (named first (by simp))
  have run : ∀ glyph ∈ (first :: others).map Glyph.ascii, glyph.isDigit := by
    intro glyph mem
    obtain ⟨byte, found, rfl⟩ := List.mem_map.mp mem
    exact digits byte found
  have scanned : lexeme (.ascii first) (others.map Glyph.ascii ++ rest) =
      ⟨.integer, first :: others, others.length + 1⟩ := by
    have decimal := decimal_digits run ended
    have letter := isLetter_of_isDigit (digits first (by simp))
    have plain : ∀ glyph ∈ (others.map Glyph.ascii ++ rest).head?, glyph.isLetter = false := by
      intro glyph found
      cases others with
      | nil =>
        have other := (ended glyph found).1
        simp only [isNameGlyph, Bool.or_eq_false_iff] at other
        exact other.1
      | cons second others =>
        obtain rfl := Option.some.inj found
        exact isLetter_of_isDigit (digits second (by simp))
    simp only [lexeme, letter, Bool.false_eq_true, digits first (by simp), ↓reduceIte]
    rw [number_eq_decimal plain, ← List.cons_append, ← List.map_cons, decimal, written_ascii,
      List.length_map, List.length_cons]
  refine ⟨.ascii first, others.map Glyph.ascii, glyphs_named named, ?_, ?_, ?_⟩
  · rw [glyphs_named named]
    exact gap_eq solid.1 (.inl solid.2)
  · rw [scanned, glyphs_named named]
    simp
  · rw [scanned]
    exact fun position => ⟨rfl, literal⟩

/-- The glyphs inside quotes that stand for a glyph. -/
def escapedGlyphs (glyph : Glyph) : List Glyph :=
  match glyph.escapeLetter? with
  | some letter => [.ascii (Text.byte '\\'), .ascii letter]
  | none => [glyph]

theorem escapedGlyphs_some {letter : UInt8}
    (found : glyph.escapeLetter? = some letter) :
    escapedGlyphs glyph = [.ascii (Text.byte '\\'), .ascii letter] := by
  simp only [escapedGlyphs, found]

theorem escapedGlyphs_none (found : glyph.escapeLetter? = none) :
    escapedGlyphs glyph = [glyph] := by
  simp only [escapedGlyphs, found]

/-- The letters after a backslash and what they stand for. -/
theorem escape?_escapeLetter? {letter : UInt8}
    (found : glyph.escapeLetter? = some letter) :
    letter.toNat < 0x80 ∧ escape? (.ascii letter) = some glyph.code := by
  unfold Glyph.escapeLetter? at found
  split at found
  all_goals first
    | contradiction
    | next code =>
      obtain rfl := Option.some.inj found
      rw [code]
      decide

/-- A glyph that needs no backslash ends no literal. -/
theorem plain_of_escapeLetter? (found : glyph.escapeLetter? = none) :
    glyph.is '\n' = false ∧ glyph.is '"' = false ∧ glyph.is '\'' = false ∧
      glyph.is '\\' = false := by
  simp only [Glyph.is, beq_eq_false_iff_ne]
  refine ⟨?_, ?_, ?_, ?_⟩
  all_goals
    intro code
    unfold Glyph.escapeLetter? at found
    rw [code] at found
    contradiction

/-- The text inside quotes is scanned as its escaped glyphs. -/
theorem glyphs_escaped (exact : ∃ lead, Glyph.Exact (Glyph.wellFormed? lead) lead glyph)
    (rest : Text) :
    Text.glyphs (glyph.escaped ++ rest) = escapedGlyphs glyph ++ rest.glyphs := by
  unfold Glyph.escaped
  cases letter : glyph.escapeLetter? with
  | some letter =>
    have ascii := (escape?_escapeLetter? letter).1
    rw [escapedGlyphs_some letter]
    simp only [List.cons_append, List.nil_append]
    rw [Text.glyphs_cons (by decide), Text.glyphs_cons ascii]
    rfl
  | none =>
    obtain ⟨lead, tail, bytes, read⟩ := exact
    have whole : glyph = ⟨glyph.code, lead :: tail⟩ := by rw [← bytes]
    rw [escapedGlyphs_none letter]
    simp only [bytes, List.cons_append, List.nil_append]
    have found := read rest
    rw [whole] at found
    rw [← List.cons_append, Text.glyphs_cons_append found, ← whole]

/-- Text inside quotes is scanned as its escaped glyphs. -/
theorem glyphs_flatMap_escaped {glyphs : List Glyph}
    (exact : ∀ glyph ∈ glyphs, ∃ lead, Glyph.Exact (Glyph.wellFormed? lead) lead glyph)
    (rest : Text) : Text.glyphs (glyphs.flatMap Glyph.escaped ++ rest) =
      glyphs.flatMap escapedGlyphs ++ rest.glyphs := by
  induction glyphs with
  | nil => rfl
  | cons glyph glyphs ih =>
    simp only [List.flatMap_cons, List.append_assoc]
    rw [glyphs_escaped (exact glyph (by simp)),
      ih fun other mem => exact other (List.mem_cons_of_mem _ mem)]

/-- The closing quote of a string literal. -/
def stringQuote : Glyph := .ascii (Text.byte '"')

/-- Escaped glyphs up to a quote are the inside of a string literal. -/
theorem stringBody_escaped (glyphs rest : List Glyph) :
    stringBody (glyphs.flatMap escapedGlyphs ++ stringQuote :: rest) =
      ⟨glyphs.flatMap fun glyph => Glyph.encode glyph.code,
        (glyphs.flatMap escapedGlyphs).length + 1, .closed⟩ := by
  induction glyphs with
  | nil => cases rest <;> rfl
  | cons glyph glyphs ih =>
    simp only [List.flatMap_cons, List.append_assoc]
    cases letter : glyph.escapeLetter? with
    | some letter =>
      rw [escapedGlyphs_some letter]
      have read := (escape?_escapeLetter? letter).2
      have backslash : Glyph.is (.ascii (Text.byte '\\')) '\n' = false ∧
          Glyph.is (.ascii (Text.byte '\\')) '"' = false ∧
          Glyph.is (.ascii (Text.byte '\\')) '\\' = true := by decide
      simp only [List.cons_append, List.nil_append, stringBody, backslash, Bool.false_eq_true,
        ↓reduceIte, read]
      rw [ih]
      simp [StringBody.extend]
    | none =>
      rw [escapedGlyphs_none letter]
      obtain ⟨newline, quote, _, backslash⟩ := plain_of_escapeLetter? letter
      obtain ⟨next, later, shape⟩ : ∃ next later,
          glyphs.flatMap escapedGlyphs ++ stringQuote :: rest = next :: later := by
        cases front : glyphs.flatMap escapedGlyphs with
        | nil => exact ⟨_, _, rfl⟩
        | cons next later => exact ⟨_, _, rfl⟩
      have whole := ih
      rw [shape] at whole
      simp only [List.cons_append, List.nil_append, shape, stringBody, newline, quote, backslash,
        Bool.false_eq_true, ↓reduceIte]
      rw [whole]
      rfl

/-- The characters of a UTF-8 text write it. -/
theorem flatMap_encode_glyphs (valid : text.isUtf8) :
    (text.glyphs.flatMap fun glyph => Glyph.encode glyph.code) = text := by
  have each : ∀ glyph ∈ text.glyphs, Glyph.encode glyph.code = glyph.bytes := by
    intro glyph mem
    obtain ⟨lead, tail, _, read⟩ := Text.exact_of_isUtf8 valid glyph mem
    exact Glyph.encode_of_wellFormed? (read [])
  have same : text.glyphs.flatMap (fun glyph => Glyph.encode glyph.code) =
      text.glyphs.flatMap Glyph.bytes := by
    rw [List.flatMap_def, List.flatMap_def, List.map_congr_left each]
  rw [same, Text.flatMap_glyphs]

theorem finds_string {value : Text} (proper : value.isUtf8) (rest : List Glyph) :
    Finds (.string value) (SyntaxWord.string value).text.glyphs rest := by
  have glyphs : (SyntaxWord.string value).text.glyphs =
      stringQuote :: (value.glyphs.flatMap escapedGlyphs ++ [stringQuote]) := by
    rw [SyntaxWord.text, Text.glyphs_cons (by decide),
      glyphs_flatMap_escaped (Text.exact_of_isUtf8 proper)]
    rfl
  have found : lexeme stringQuote (value.glyphs.flatMap escapedGlyphs ++ [stringQuote] ++ rest) =
      ⟨.string, value, (value.glyphs.flatMap escapedGlyphs).length + 2⟩ := by
    have quote : stringQuote.isLetter = false ∧ stringQuote.isDigit = false ∧
        stringQuote.is '"' = true := by decide
    simp only [lexeme, quote, Bool.false_eq_true, ↓reduceIte, string, List.append_assoc,
      List.cons_append, List.nil_append, stringBody_escaped, flatMap_encode_glyphs proper]
  refine ⟨stringQuote, value.glyphs.flatMap escapedGlyphs ++ [stringQuote], glyphs, ?_, ?_, ?_⟩
  · rw [glyphs]
    exact gap_eq (by decide) (.inl (by decide))
  · rw [found, glyphs]
    simp
  · rw [found]
    exact fun position => ⟨rfl, rfl⟩

/-- The quote of a character literal. -/
def characterQuote : Glyph := .ascii (Text.byte '\'')

/-- An escaped byte up to a quote is the inside of a character literal. -/
theorem character_escaped (value : UInt8) (rest : List Glyph) :
    character (escapedGlyphs ⟨value.toNat, Glyph.encode value.toNat⟩ ++ characterQuote :: rest) =
      ⟨.character, Glyph.encode value.toNat,
        (escapedGlyphs ⟨value.toNat, Glyph.encode value.toNat⟩).length + 2⟩ := by
  have narrow : ¬ 0xFF < value.toNat := by
    have bound := value.toNat_lt
    omega
  have quote : characterQuote.is '\'' = true := by decide
  cases letter : Glyph.escapeLetter? ⟨value.toNat, Glyph.encode value.toNat⟩ with
  | some letter =>
    rw [escapedGlyphs_some letter]
    have read := (escape?_escapeLetter? letter).2
    have backslash : Glyph.is (.ascii (Text.byte '\\')) '\n' = false ∧
        Glyph.is (.ascii (Text.byte '\\')) '\'' = false ∧
        Glyph.is (.ascii (Text.byte '\\')) '\\' = true := by decide
    simp [character, backslash, read, characterEnd, quote, narrow]
  | none =>
    rw [escapedGlyphs_none letter]
    obtain ⟨newline, _, single, backslash⟩ := plain_of_escapeLetter? letter
    simp [character, newline, single, backslash, characterEnd, quote, narrow]

theorem finds_character (value : UInt8) (rest : List Glyph) :
    Finds (.character value) (SyntaxWord.character value).text.glyphs rest := by
  have glyphs : (SyntaxWord.character value).text.glyphs = characterQuote ::
      (escapedGlyphs ⟨value.toNat, Glyph.encode value.toNat⟩ ++ [characterQuote]) := by
    obtain ⟨lead, tail, encoded, read⟩ := Glyph.wellFormed?_encode_byte value
    rw [SyntaxWord.text, Text.glyphs_cons (by decide), glyphs_escaped ⟨lead, tail, encoded,
      fun more => ?_⟩]
    · rfl
    · rw [read more, encoded]
  have found : lexeme characterQuote
      (escapedGlyphs ⟨value.toNat, Glyph.encode value.toNat⟩ ++ [characterQuote] ++ rest) =
      ⟨.character, Glyph.encode value.toNat,
        (escapedGlyphs ⟨value.toNat, Glyph.encode value.toNat⟩).length + 2⟩ := by
    have quote : characterQuote.isLetter = false ∧ characterQuote.isDigit = false ∧
        characterQuote.is '"' = false ∧ characterQuote.is '\'' = true := by decide
    simp only [lexeme, quote, Bool.false_eq_true, ↓reduceIte, List.append_assoc, List.cons_append,
      List.nil_append, character_escaped]
  refine ⟨characterQuote, _, glyphs, ?_, ?_, ?_⟩
  · rw [glyphs]
    exact gap_eq (by decide) (.inl (by decide))
  · rw [found, glyphs]
    simp
  · rw [found]
    exact fun position => ⟨rfl, rfl⟩

theorem ascii_symbol (sign : Symbol) : ∀ byte ∈ sign.text, byte.toNat < 0x80 := by
  have all : sign.text.all fun byte => decide (byte.toNat < 0x80) := by cases sign <;> rfl
  exact fun byte mem => of_decide_eq_true (List.all_eq_true.mp all byte mem)

/-- The glyphs of a symbol. -/
theorem glyphs_symbol (sign : Symbol) : sign.text.glyphs = sign.text.map Glyph.ascii :=
  Text.glyphs_ascii (ascii_symbol sign)

/-- A symbol that the next glyph does not extend is scanned as itself. -/
theorem lexeme_symbol {sign : Symbol} (ends : (SyntaxWord.symbol sign).Parts rest) :
    lexeme (.ascii (sign.text.headD 0)) (sign.text.tail.map Glyph.ascii ++ rest) =
      ⟨.symbol sign, sign.text, sign.text.length⟩ := by
  cases rest with
  | nil => cases sign <;> rfl
  | cons next rest =>
    have joined := ends next rfl
    -- A symbol of one character that starts a longer one asks for the next glyph.
    cases sign with
    | plus | minus | amp | bang | assign | less | greater =>
      have alone : ∀ long short : Lexeme,
              (if (SyntaxWord.joins _ next) then long else short) = short :=
        fun _ _ => if_neg (Bool.eq_false_iff.mp joined)
      exact alone _ _
    | _ => rfl

theorem finds_symbol {sign : Symbol} (ends : (SyntaxWord.symbol sign).Parts rest) :
    Finds (.symbol sign) sign.text.glyphs rest := by
  have written : sign.text = sign.text.headD 0 :: sign.text.tail := by cases sign <;> rfl
  have solid : (Glyph.ascii (sign.text.headD 0)).isSpace = false := by cases sign <;> rfl
  have glyphs : sign.text.glyphs =
      .ascii (sign.text.headD 0) :: sign.text.tail.map Glyph.ascii := by
    rw [glyphs_symbol, ← List.map_cons, ← written]
  refine ⟨_, _, glyphs, ?_, ?_, ?_⟩
  · rw [glyphs, List.cons_append]
    refine gap_eq solid ?_
    by_cases slash : sign = .slash
    · subst slash
      exact .inr fun next found => Bool.or_eq_false_iff.mp (ends next found)
    · left
      cases sign <;> first | rfl | contradiction
  · rw [lexeme_symbol ends, glyphs_symbol, List.length_map]
  · rw [lexeme_symbol ends]
    exact fun position => ⟨rfl, rfl⟩

/-- Every word is found in its text when nothing joins it. -/
theorem finds_text (proper : word.isProper)
    (ends : word.Parts rest) : Finds word word.text.glyphs rest := by
  cases word with
  | integer value => exact finds_integer ends
  | float bits => contradiction
  | string value => exact finds_string proper rest
  | character value => exact finds_character value rest
  | name name => exact finds_name proper ends
  | keyword reserved => exact finds_keyword ends
  | symbol sign => exact finds_symbol ends

/-- Some glyphs are scanned as some words and the end of the text. -/
def Scans (glyphs : List Glyph) (words : List SyntaxWord) : Prop :=
  ∀ budget position, glyphs.length < budget → ∃ tokens last,
    tokensWithin budget position glyphs = tokens ++ [last] ∧
      List.Forall₂ Token.Says tokens words ∧ last.kind = .endOfText

theorem scans_nil : Scans [] [] := by
  intro budget position enough
  cases budget with
  | zero => simp at enough
  | succ budget => exact ⟨[], ⟨.endOfText, [], position⟩, rfl, .nil, rfl⟩

/-- A blank in front changes places only. -/
theorem scans_blank
    (blank : glyph.isSpace) (later : Scans rest words) : Scans (glyph :: rest) words := by
  intro budget position enough
  cases budget with
  | zero => simp at enough
  | succ budget =>
    have wider : gap .blank (glyph :: rest) = (gap .blank rest).widen 1 := by
      cases rest with
      | nil => simp [gap, blank, Gap.widen]
      | cons next rest => simp [gap, blank]
    have same : tokensWithin (budget + 1) position (glyph :: rest) =
        tokensWithin (budget + 1) (position.next glyph) rest := by
      simp only [tokensWithin, wider, Gap.widen, List.take_succ_cons, List.drop_succ_cons,
        Position.after, List.foldl_cons]
    rw [same]
    exact later (budget + 1) _ (by simp at enough; omega)

/-- A word in front is scanned as that word. -/
theorem scans_word (proper : word.isProper)
    (ends : word.Parts rest) (later : Scans rest words) :
    Scans (word.text.glyphs ++ rest) (word :: words) := by
  intro budget position enough
  obtain ⟨first, others, glyphs, solid, width, spoken⟩ := finds_text proper ends
  rw [glyphs] at solid width enough ⊢
  cases budget with
  | zero => simp at enough
  | succ budget =>
    simp only [List.cons_append] at solid enough ⊢
    obtain ⟨tokens, last, scanned, said, ended⟩ := later budget
      (position.after ((first :: (others ++ rest)).take (lexeme first (others ++ rest)).width))
      (by simp at enough; omega)
    refine ⟨⟨(lexeme first (others ++ rest)).kind, (lexeme first (others ++ rest)).literal,
      position⟩ :: tokens, last, ?_, .cons (spoken position) said, ended⟩
    have passed : (first :: (others ++ rest)).drop (lexeme first (others ++ rest)).width =
      rest := by
      rw [width, ← List.cons_append, List.drop_left]
    simp only [tokensWithin, solid, List.take_zero, List.drop_zero, Position.after, List.foldl_nil,
      passed, List.cons_append]
    rw [← scanned]
    rfl

/-- A text of ASCII characters is UTF-8. -/
theorem isUtf8_ascii (ascii : ∀ byte ∈ text, byte.toNat < 0x80) : text.isUtf8 := by
  rw [Text.isUtf8, Text.glyphs_ascii ascii, List.all_map]
  simp only [List.all_eq_true, Function.comp_apply, Glyph.isStray, Glyph.replacement,
    List.length_singleton, BEq.rfl, Bool.and_true, Bool.not_eq_true', beq_eq_false_iff_ne]
  intro byte mem
  have bound := ascii byte mem
  omega

/-- What follows a word does not change its glyphs. -/
theorem glyphs_text_append (proper : word.isProper) (rest : Text) :
    (word.text ++ rest).glyphs = word.text.glyphs ++ rest.glyphs := by
  have named : ∀ {text : Text}, (∀ byte ∈ text, isNameGlyph (.ascii byte)) →
      (text ++ rest).glyphs = text.glyphs ++ rest.glyphs := fun named =>
    Text.glyphs_append (isUtf8_ascii fun byte mem => ascii_of_isNameGlyph (named byte mem)) rest
  cases word with
  | integer value =>
    exact named fun byte mem => by simp [isNameGlyph, isDigit_of_mem_ofNat mem]
  | float bits => contradiction
  | string value =>
    simp only [SyntaxWord.text, List.cons_append, List.append_assoc]
    rw [Text.glyphs_cons (by decide), Text.glyphs_cons (by decide),
      glyphs_flatMap_escaped (Text.exact_of_isUtf8 proper),
      glyphs_flatMap_escaped (Text.exact_of_isUtf8 proper), List.cons_append, List.append_assoc]
    exact congrArg _ (congrArg _ (Text.glyphs_cons (by decide) rest))
  | character value =>
    obtain ⟨lead, tail, encoded, read⟩ := Glyph.wellFormed?_encode_byte value
    have exact : ∃ lead, Glyph.Exact (Glyph.wellFormed? lead) lead
        ⟨value.toNat, Glyph.encode value.toNat⟩ :=
      ⟨lead, tail, encoded, fun more => by rw [read more, encoded]⟩
    simp only [SyntaxWord.text, List.cons_append, List.append_assoc]
    rw [Text.glyphs_cons (by decide), Text.glyphs_cons (by decide), glyphs_escaped exact,
      glyphs_escaped exact, List.cons_append, List.append_assoc]
    exact congrArg _ (congrArg _ (Text.glyphs_cons (by decide) rest))
  | name name =>
    cases name with
    | nil => contradiction
    | cons first others =>
      simp only [SyntaxWord.isProper, Text.isName, Bool.and_eq_true, List.all_eq_true] at proper
      refine named fun byte mem => ?_
      rcases List.mem_cons.mp mem with rfl | later
      · simp [isNameGlyph, proper.1.1]
      · exact proper.1.2 byte later
  | keyword reserved => exact named (named_keyword reserved)
  | symbol sign => exact Text.glyphs_append (isUtf8_ascii (ascii_symbol sign)) rest

/-- Words with blanks between them are scanned as the same words. -/
theorem scans_join (proper : ∀ word ∈ words, word.isProper) :
    Scans (Text.glyphs (Text.join " " (words.map SyntaxWord.text))) words := by
  induction words with
  | nil => exact scans_nil
  | cons word words ih =>
    have first := proper word (by simp)
    have later := ih fun other mem => proper other (List.mem_cons_of_mem _ mem)
    cases words with
    | nil =>
      have ends : word.Parts [] := by simp [SyntaxWord.Parts]
      have last := scans_word first ends scans_nil
      rwa [List.append_nil] at last
    | cons next words =>
      have shape : Text.join " " ((word :: next :: words).map SyntaxWord.text) =
          word.text ++ Text.byte ' ' :: Text.join " " ((next :: words).map SyntaxWord.text) := by
        simp only [List.map_cons, Text.join, List.append_assoc]
        rfl
      rw [shape, glyphs_text_append first, Text.glyphs_cons (by decide)]
      exact scans_word first (word.parts_blank _) (scans_blank (by decide) later)

end Scan

end TinLang
