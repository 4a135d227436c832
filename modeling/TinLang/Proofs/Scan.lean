import TinLang.Syntax.Scan

/-!
# What the scanner reads

The tokens of every text stand at growing places and end with the end of the text, and the value
of every name and string literal is UTF-8, whatever bytes the text holds.
-/
namespace TinLang

variable {rest glyphs : List Glyph} {glyph : Glyph} {position : Position}

namespace Glyph

/-- A number below 256 is the number of its byte. -/
private theorem toNat_toUInt8 {number : Nat} (small : number < 256) :
    number.toUInt8.toNat = number := by
  rw [Nat.toUInt8, UInt8.toNat_ofNat']
  omega

/-- The bytes of a code point from the third plane of lengths on have a bounded second byte. -/
private theorem wellFormed?_triple (lead second third : UInt8) (rest : Text)
    (low : 0xE0 ≤ lead.toNat) (high : lead.toNat < 0xF0)
    (least : lead.toNat = 0xE0 → 0xA0 ≤ second.toNat)
    (most : lead.toNat = 0xED → second.toNat ≤ 0x9F)
    (continued : continues second) (ended : continues third) :
    ∃ code, wellFormed? lead (second :: third :: rest) = some ⟨code, [lead, second, third]⟩ := by
  simp only [continues, between, Bool.and_eq_true, decide_eq_true_eq] at continued ended
  have notAscii : ¬ lead.toNat < 0x80 := by omega
  have notTail : ¬ lead.toNat < 0xC2 := by omega
  have notPair : ¬ lead.toNat < 0xE0 := by omega
  refine ⟨(lead.toNat % 16 * 64 + tailBits second) * 64 + tailBits third, ?_⟩
  simp only [wellFormed?, notAscii, notTail, notPair, high, ↓reduceIte]
  by_cases first : lead.toNat = 0xE0
  · have bound := least first
    simp [first, triple, between, continues, bound, continued, ended]
  by_cases surrogate : lead.toNat = 0xED
  · have bound := most surrogate
    simp [surrogate, triple, between, continues, bound, continued, ended]
  · simp [first, surrogate, triple, between, continues, continued, ended]

private theorem wellFormed?_quadruple (lead second third fourth : UInt8)
    (rest : Text)
    (low : 0xF0 ≤ lead.toNat) (high : lead.toNat ≤ 0xF4)
    (least : lead.toNat = 0xF0 → 0x90 ≤ second.toNat)
    (most : lead.toNat = 0xF4 → second.toNat ≤ 0x8F)
    (continued : continues second) (further : continues third) (ended : continues fourth) :
    ∃ code, wellFormed? lead (second :: third :: fourth :: rest) =
      some ⟨code, [lead, second, third, fourth]⟩ := by
  simp only [continues, between, Bool.and_eq_true, decide_eq_true_eq] at continued further ended
  have notAscii : ¬ lead.toNat < 0x80 := by omega
  have notTail : ¬ lead.toNat < 0xC2 := by omega
  have notPair : ¬ lead.toNat < 0xE0 := by omega
  have notTriple : ¬ lead.toNat < 0xF0 := by omega
  have notFirst : ¬ lead.toNat = 0xE0 := by omega
  have notSurrogate : ¬ lead.toNat = 0xED := by omega
  refine ⟨((lead.toNat % 8 * 64 + tailBits second) * 64 + tailBits third) * 64 + tailBits fourth,
    ?_⟩
  simp only [wellFormed?, notAscii, notTail, notPair, notFirst, notSurrogate, notTriple,
    ↓reduceIte]
  by_cases first : lead.toNat = 0xF0
  · have bound := least first
    simp [first, quadruple, between, continues, bound, continued, further, ended]
  by_cases last : lead.toNat = 0xF4
  · have bound := most last
    simp [last, quadruple, between, continues, bound, continued, further, ended]
  · have below : lead.toNat < 0xF4 := by omega
    simp [first, below, quadruple, between, continues, continued, further, ended]

private theorem wellFormed?_pair (lead second : UInt8) (rest : Text)
    (low : 0xC2 ≤ lead.toNat) (high : lead.toNat < 0xE0) (continued : continues second) :
    ∃ code, wellFormed? lead (second :: rest) = some ⟨code, [lead, second]⟩ := by
  have notAscii : ¬ lead.toNat < 0x80 := by omega
  have notTail : ¬ lead.toNat < 0xC2 := by omega
  exact ⟨lead.toNat % 32 * 64 + tailBits second, by
    simp [wellFormed?, notAscii, notTail, high, pair, continued]⟩

private theorem continues_toUInt8 (bits : Nat) : continues (0x80 + bits % 64).toUInt8 := by
  have value := toNat_toUInt8 (show 0x80 + bits % 64 < 256 by omega)
  simp only [continues, between, value, Bool.and_eq_true, decide_eq_true_eq]
  omega

/-- The bytes of a code point start with one well-formed sequence that holds all of them. -/
theorem wellFormed?_encode (code : Nat) (rest : Text) :
    ∃ lead tail found, encode code = lead :: tail ∧
      wellFormed? lead (tail ++ rest) = some ⟨found, lead :: tail⟩ ∧
      (tail = [] → found < 0x80) := by
  by_cases ascii : code < 0x80
  · have value := toNat_toUInt8 (show code < 256 by omega)
    refine ⟨code.toUInt8, [], code, by simp [encode, ascii], ?_, fun _ => ascii⟩
    simp only [wellFormed?, value, ascii, ↓reduceIte]
  by_cases two : code < 0x800
  · have value := toNat_toUInt8 (show 0xC0 + code / 64 < 256 by omega)
    obtain ⟨found, read⟩ := wellFormed?_pair (0xC0 + code / 64).toUInt8 (0x80 + code % 64).toUInt8
      rest (by omega) (by omega) (continues_toUInt8 code)
    refine ⟨(0xC0 + code / 64).toUInt8, [(0x80 + code % 64).toUInt8], found, ?_, read, by simp⟩
    simp only [encode, ascii, two, ↓reduceIte]
  by_cases invalid : (0xD800 ≤ code ∧ code < 0xE000) ∨ 0x110000 ≤ code
  · obtain ⟨found, read⟩ := wellFormed?_triple 0xEF 0xBF 0xBD rest (by decide) (by decide)
      (by decide) (by decide) (by decide) (by decide)
    refine ⟨0xEF, [0xBF, 0xBD], found, ?_, read, by simp⟩
    simp only [encode, ascii, two, invalid, ↓reduceIte]
  by_cases three : code < 0x10000
  · have value := toNat_toUInt8 (show 0xE0 + code / 4096 < 256 by omega)
    have next := toNat_toUInt8 (show 0x80 + code / 64 % 64 < 256 by omega)
    obtain ⟨found, read⟩ := wellFormed?_triple (0xE0 + code / 4096).toUInt8
      (0x80 + code / 64 % 64).toUInt8 (0x80 + code % 64).toUInt8 rest (by omega) (by omega)
      (by omega) (by omega) (continues_toUInt8 (code / 64)) (continues_toUInt8 code)
    refine ⟨(0xE0 + code / 4096).toUInt8,
      [(0x80 + code / 64 % 64).toUInt8, (0x80 + code % 64).toUInt8], found, ?_, read, by simp⟩
    simp only [encode, ascii, two, invalid, three, ↓reduceIte]
  · have value := toNat_toUInt8 (show 0xF0 + code / 262144 < 256 by omega)
    have next := toNat_toUInt8 (show 0x80 + code / 4096 % 64 < 256 by omega)
    obtain ⟨found, read⟩ := wellFormed?_quadruple (0xF0 + code / 262144).toUInt8
      (0x80 + code / 4096 % 64).toUInt8 (0x80 + code / 64 % 64).toUInt8
      (0x80 + code % 64).toUInt8 rest (by omega) (by omega) (by omega) (by omega)
      (continues_toUInt8 (code / 4096)) (continues_toUInt8 (code / 64)) (continues_toUInt8 code)
    refine ⟨(0xF0 + code / 262144).toUInt8, [(0x80 + code / 4096 % 64).toUInt8,
      (0x80 + code / 64 % 64).toUInt8, (0x80 + code % 64).toUInt8], found, ?_, read, by simp⟩
    simp only [encode, ascii, two, invalid, three, ↓reduceIte]

end Glyph

namespace Text

/-- The first glyph of a text that starts with a whole character. -/
theorem isUtf8_encode_append (code : Nat) (rest : Text) :
    (Glyph.encode code ++ rest).isUtf8 = rest.isUtf8 := by
  obtain ⟨lead, tail, found, bytes, read, single⟩ := Glyph.wellFormed?_encode code rest
  have whole : (⟨found, lead :: tail⟩ : Glyph).isStray = false := by
    cases tail with
    | cons second tail => simp [Glyph.isStray]
    | nil =>
      have ascii := single rfl
      have differs : found ≠ Glyph.replacement := by
        unfold Glyph.replacement
        omega
      simp [Glyph.isStray, differs]
  rw [bytes, isUtf8, glyphs_cons_append read, isUtf8, List.all_cons, whole]
  rfl

end Text

namespace Glyph

/-- A glyph of an ASCII character is written in the one byte of that character. -/
def Plain (glyph : Glyph) : Prop := glyph.code < 0x80 → glyph.bytes = encode glyph.code

private theorem not_ascii_of_pair {lead : UInt8} {rest : Text} {glyph : Glyph}
    (found : pair lead rest = some glyph) (low : 0xC2 ≤ lead.toNat) (high : lead.toNat < 0xE0) :
    ¬ glyph.code < 0x80 := by
  unfold pair at found
  split at found
  · split at found
    · rw [← Option.some.inj found]
      simp only
      omega
    · contradiction
  · contradiction

private theorem not_ascii_of_triple {low high : Nat} {lead : UInt8} {rest : Text} {glyph : Glyph}
    (found : triple low high lead rest = some glyph)
    (large : 1 ≤ lead.toNat % 16 ∨ (0xA0 ≤ low ∧ high ≤ 0xBF)) : ¬ glyph.code < 0x80 := by
  unfold triple at found
  split at found
  · split at found
    next bounds =>
      rw [← Option.some.inj found]
      simp only [between, continues, Bool.and_eq_true, decide_eq_true_eq] at bounds
      simp only [tailBits]
      omega
    · contradiction
  · contradiction

private theorem not_ascii_of_quadruple {low high : Nat} {lead : UInt8} {rest : Text}
    {glyph : Glyph} (found : quadruple low high lead rest = some glyph)
    (large : 1 ≤ lead.toNat % 8 ∨ (0x90 ≤ low ∧ high ≤ 0xBF)) : ¬ glyph.code < 0x80 := by
  unfold quadruple at found
  split at found
  · split at found
    next bounds =>
      rw [← Option.some.inj found]
      simp only [between, continues, Bool.and_eq_true, decide_eq_true_eq] at bounds
      simp only [tailBits]
      omega
    · contradiction
  · contradiction

private theorem plain_of_wellFormed? {lead : UInt8} {rest : Text} {glyph : Glyph}
    (found : wellFormed? lead rest = some glyph) : glyph.Plain := by
  intro ascii
  unfold wellFormed? at found
  simp only at found
  by_cases single : lead.toNat < 0x80
  · simp only [single, ↓reduceIte, Option.some.injEq] at found
    simp [← found, encode, single]
  · simp only [single, ↓reduceIte] at found
    exfalso
    revert ascii
    repeat' split at found
    all_goals first
      | contradiction
      | exact not_ascii_of_pair found (by omega) (by omega)
      | exact not_ascii_of_triple found (by omega)
      | exact not_ascii_of_quadruple found (by omega)

/-- Every glyph of a text that is an ASCII character is written in the byte of that character. -/
theorem plain_first (lead : UInt8) (rest : Text) : (first lead rest).Plain := by
  unfold first
  cases found : wellFormed? lead rest with
  | none => simp [Plain, stray, replacement]
  | some glyph => exact plain_of_wellFormed? found

end Glyph

namespace Text

/-- Every glyph of a text has bytes, and one of an ASCII character has the byte of it. -/
theorem glyphs_sound (text : Text) : ∀ glyph ∈ text.glyphs, glyph.Plain ∧ glyph.bytes ≠ [] := by
  have after : ∀ skipped, ∀ glyph ∈ glyphsAfter skipped text, glyph.Plain ∧ glyph.bytes ≠ [] := by
    induction text with
    | nil => simp [glyphsAfter]
    | cons lead text ih =>
      intro skipped glyph mem
      cases skipped with
      | succ skipped => exact ih skipped glyph mem
      | zero =>
        rcases List.mem_cons.mp mem with rfl | later
        · obtain ⟨tail, bytes, _⟩ := Glyph.startsAt_first lead text
          exact ⟨Glyph.plain_first lead text, by simp [bytes]⟩
        · exact ih _ glyph later
  exact after 0

end Text

namespace Scan

/-- The bytes of ASCII characters are UTF-8. -/
theorem isUtf8_written (plain : ∀ glyph ∈ glyphs, glyph.Plain)
    (ascii : ∀ glyph ∈ glyphs, glyph.code < 0x80) : (written glyphs).isUtf8 := by
  induction glyphs with
  | nil => rfl
  | cons glyph glyphs ih =>
    have bytes := plain glyph (by simp) (ascii glyph (by simp))
    have others := ih (fun other mem => plain other (by simp [mem]))
      fun other mem => ascii other (by simp [mem])
    rw [written, List.flatMap_cons, bytes, Text.isUtf8_encode_append]
    exact others

/-- The glyphs of a name are ASCII characters. -/
theorem ascii_of_isNameGlyph (named : isNameGlyph glyph) : glyph.code < 0x80 := by
  simp only [isNameGlyph, Glyph.isLetter, Glyph.isDigit, Bool.or_eq_true, Bool.and_eq_true,
    decide_eq_true_eq, beq_iff_eq] at named
  omega

/-- The value of a string literal is UTF-8. -/
theorem isUtf8_stringBody (glyphs : List Glyph) : (stringBody glyphs).value.isUtf8 := by
  fun_induction stringBody glyphs with
  | case5 glyph =>
    have whole := Text.isUtf8_encode_append glyph.code []
    rw [List.append_nil] at whole
    exact whole
  | case8 _ _ _ _ _ _ _ _ ih | case10 _ _ _ _ _ _ ih =>
    rw [StringBody.extend, Text.isUtf8_encode_append]
    exact ih
  | _ => rfl

/-- What holds of every lexeme: it covers a glyph, is not the end of the text, and the value of a
name or string is UTF-8. -/
structure Lexeme.Sound (lexeme : Lexeme) : Prop where
  /-- It covers a glyph. -/
  wide : 0 < lexeme.width
  /-- It is not the end of the text. -/
  inside : lexeme.kind ≠ .endOfText
  /-- A name or string is UTF-8. -/
  utf8 : lexeme.kind = .identifier ∨ lexeme.kind = .string → lexeme.literal.isUtf8

theorem sound_error (cause : LexicalError) {width : Nat} (wide : 0 < width) :
    (Lexeme.error cause width).Sound :=
  ⟨wide, by simp [Lexeme.error], by simp [Lexeme.error]⟩

theorem sound_verbatim {kind : TokenKind} {width : Nat} (glyphs : List Glyph)
    (number : kind = .integer ∨ kind = .float) (wide : 0 < width) :
    (Lexeme.verbatim kind width glyphs).Sound := by
  rcases number with rfl | rfl <;>
      exact ⟨wide, by simp [Lexeme.verbatim], by simp [Lexeme.verbatim]⟩

/-- A word is a sound lexeme. -/
theorem sound_word (letter : glyph.isLetter)
    (plain : ∀ other ∈ glyph :: rest, other.Plain) : (word (glyph :: rest)).Sound := by
  have named : isNameGlyph glyph := by simp [isNameGlyph, letter]
  have wide : 0 < ((glyph :: rest).takeWhile isNameGlyph).length := by
    simp [named]
  have utf8 : (written ((glyph :: rest).takeWhile isNameGlyph)).isUtf8 := by
    refine isUtf8_written (fun other mem => plain other ?_) fun other mem => ?_
    · exact (List.takeWhile_sublist _).subset mem
    · have all := List.all_eq_true.mp (List.all_takeWhile (l := glyph :: rest) (p := isNameGlyph))
      exact ascii_of_isNameGlyph (all other mem)
  unfold word
  simp only
  split
  · exact ⟨wide, by simp, by simp⟩
  · exact ⟨wide, by simp, fun _ => utf8⟩

/-- A number is a sound lexeme. -/
theorem sound_decimal (digit : glyph.isDigit) :
    (decimal (glyph :: rest)).Sound := by
  have wide : 0 < digitRun (glyph :: rest) := by simp [digitRun, digit]
  unfold decimal
  simp only
  split
  · exact sound_verbatim _ (.inr rfl) (by omega)
  · exact sound_error _ (by omega)
  · refine sound_verbatim _ ?_ (by omega)
    split <;> simp

theorem sound_number (digit : glyph.isDigit) :
    (number (glyph :: rest)).Sound := by
  cases rest with
  | nil => exact sound_decimal digit
  | cons mark rest =>
    simp only [number]
    split
    · split
      · exact sound_error _ (by omega)
      · exact sound_verbatim _ (.inl rfl) (by omega)
    · exact sound_decimal digit

theorem sound_string (rest : List Glyph) : (string rest).Sound := by
  unfold string
  simp only
  split
  · exact ⟨by simp, by simp, fun _ => isUtf8_stringBody rest⟩
  · exact sound_error _ (by omega)
  · exact sound_error _ (by omega)

theorem sound_characterEnd (code width : Nat) (rest : List Glyph) :
    (characterEnd code width rest).Sound := by
  unfold characterEnd
  repeat' split
  all_goals first
    | exact sound_error _ (by omega)
    | exact ⟨by simp, by simp, by simp⟩

theorem sound_character (rest : List Glyph) : (character rest).Sound := by
  unfold character
  repeat' split
  all_goals first
    | exact sound_error _ (by omega)
    | exact sound_characterEnd _ _ _

theorem sound_symbol (glyph : Glyph) (rest : List Glyph) : (symbol glyph rest).Sound := by
  have sign : ∀ (sign : Symbol) (text : Text) (width : Nat),
      (⟨.symbol sign, text, width + 1⟩ : Lexeme).Sound :=
    fun _ _ _ => ⟨by simp, by simp, by simp⟩
  have choice : ∀ {first second : Lexeme} {test : Prop} [Decidable test],
      first.Sound → second.Sound → (if test then first else second).Sound := by
    intro first second test _ yes no
    split <;> assumption
  unfold symbol
  simp only
  repeat' first
    | exact sign _ _ _
    | exact sound_error _ (by omega)
    | apply choice

/-- Every lexeme is sound. -/
theorem sound_lexeme
    (plain : ∀ other ∈ glyph :: rest, other.Plain) : (lexeme glyph rest).Sound := by
  unfold lexeme
  split
  next letter => exact sound_word letter plain
  split
  next digit => exact sound_number digit
  split
  · exact sound_string rest
  split
  · exact sound_character rest
  · exact sound_symbol glyph rest

end Scan

namespace Position

/-- A place stands before another: on an earlier line, or on the same line in an earlier
column. -/
def Before (left right : Position) : Prop :=
  left.line < right.line ∨ (left.line = right.line ∧ left.column < right.column)

/-- A place stands before another or is on the same line in the same column. -/
def UpTo (left right : Position) : Prop :=
  left.line < right.line ∨ (left.line = right.line ∧ left.column ≤ right.column)

variable {first second third : Position}

theorem UpTo.refl (position : Position) : position.UpTo position := .inr ⟨rfl, Nat.le_refl _⟩

theorem Before.upTo (before : first.Before second) : first.UpTo second := by
  unfold Before at before
  unfold UpTo
  omega

theorem UpTo.trans (left : first.UpTo second) (right : second.UpTo third) : first.UpTo third := by
  unfold UpTo at *
  omega

theorem Before.before (left : first.Before second) (right : second.UpTo third) :
    first.Before third := by
  unfold UpTo Before at *
  omega

/-- Every glyph passed moves the place on. -/
theorem before_next (position : Position) (glyph : Glyph) :
    position.Before (position.next glyph) := by
  unfold next Before
  split
  · exact .inl (Nat.lt_succ_self _)
  · exact .inr ⟨rfl, Nat.lt_succ_self _⟩

/-- Passing glyphs does not move the place back. -/
theorem upTo_after (position : Position) (glyphs : List Glyph) :
    position.UpTo (position.after glyphs) := by
  induction glyphs generalizing position with
  | nil => exact .refl position
  | cons glyph glyphs ih => exact (before_next position glyph).upTo.trans (ih _)

/-- Passing some glyphs moves the place on. -/
theorem before_after (position : Position) (some : glyphs ≠ []) :
    position.Before (position.after glyphs) := by
  cases glyphs with
  | nil => contradiction
  | cons glyph glyphs => exact (before_next position glyph).before (upTo_after _ glyphs)

end Position

/-- The value of a name or string token is UTF-8. -/
def Token.Utf8 (token : Token) : Prop :=
  token.kind = .identifier ∨ token.kind = .string → token.literal.isUtf8

/-- A token that is no error stands before another, and only the last ends the text. -/
def Token.Ahead (earlier later : Token) : Prop :=
  earlier.kind ≠ .endOfText ∧
    ((∀ cause, earlier.kind ≠ .error cause) → earlier.position.Before later.position)

namespace Scan

/-- What holds of the tokens from a place on. -/
structure Complete (position : Position) (tokens : List Token) : Prop where
  /-- The tokens stand at growing places, and only the last ends the text. -/
  ordered : tokens.Pairwise Token.Ahead
  /-- The last token ends the text. -/
  ended : ∃ last, tokens.getLast? = some last ∧ last.kind = .endOfText
  /-- No token stands before the place. -/
  after : ∀ token ∈ tokens, position.UpTo token.position
  /-- The values of names and strings are UTF-8. -/
  utf8 : ∀ token ∈ tokens, token.Utf8

/-- The end of the text alone is complete. -/
theorem complete_end {last : Token} (ended : last.kind = .endOfText)
    (place : position.UpTo last.position) : Complete position [last] where
  ordered := List.pairwise_singleton _ _
  ended := ⟨last, rfl, ended⟩
  after := by simpa using place
  utf8 := by simp [Token.Utf8, ended]

/-- Tokens are complete with one more before them. -/
theorem Complete.cons {next : Position} {token : Token} {tokens : List Token}
    (complete : Complete next tokens) (place : position.UpTo token.position)
    (ordered : token.position.UpTo next)
    (strict : (∀ cause, token.kind ≠ .error cause) → token.position.Before next)
    (inside : token.kind ≠ .endOfText) (utf8 : token.Utf8) : Complete position
    (token :: tokens) where
  ordered := List.pairwise_cons.mpr ⟨fun later mem =>
    ⟨inside, fun valid => (strict valid).before (complete.after later mem)⟩, complete.ordered⟩
  ended := by
    obtain ⟨last, found, ended⟩ := complete.ended
    refine ⟨last, ?_, ended⟩
    rw [List.getLast?_cons, found]
    rfl
  after := by
    intro other mem
    rcases List.mem_cons.mp mem with rfl | later
    · exact place
    · exact place.trans (ordered.trans (complete.after other later))
  utf8 := by
    intro other mem
    rcases List.mem_cons.mp mem with rfl | later
    · exact utf8
    · exact complete.utf8 other later

/-- The tokens from a place on are complete when the budget exceeds the glyphs. -/
theorem complete_tokensWithin {budget : Nat}
    (enough : glyphs.length < budget) (plain : ∀ glyph ∈ glyphs, glyph.Plain) :
    Complete position (tokensWithin budget position glyphs) := by
  induction budget generalizing position glyphs with
  | zero => omega
  | succ budget ih =>
    rw [tokensWithin]
    simp only
    have place := Position.upTo_after position (glyphs.take (gap .blank glyphs).width)
    split
    · split
      · exact complete_end rfl place
      · exact (complete_end rfl (.refl _)).cons place (.refl _) (by simp) (by simp)
          (by simp [Token.Utf8])
    · next glyph rest remaining =>
      have shorter : rest.length + 1 ≤ glyphs.length := by
        rw [← List.length_cons, ← remaining, List.length_drop]
        omega
      have restPlain : ∀ other ∈ glyph :: rest, other.Plain := by
        intro other mem
        rw [← remaining] at mem
        exact plain other (List.mem_of_mem_drop mem)
      have sound := sound_lexeme restPlain
      have wide := sound.wide
      have taken : (glyph :: rest).take (lexeme glyph rest).width ≠ [] := by
        simp
        omega
      have moved := Position.before_after
        (position.after (glyphs.take (gap .blank glyphs).width)) taken
      refine (ih ?_ ?_).cons place moved.upTo (fun _ => moved) sound.inside sound.utf8
      · rw [List.length_drop, List.length_cons]
        omega
      · exact fun other mem => restPlain other (List.mem_of_mem_drop mem)

/-- The tokens of every text are complete. -/
theorem complete_tokens (source : Text) : Complete .start (tokens source) :=
  complete_tokensWithin (Nat.lt_succ_self _) fun glyph mem =>
    (Text.glyphs_sound source glyph mem).1

end Scan

end TinLang
