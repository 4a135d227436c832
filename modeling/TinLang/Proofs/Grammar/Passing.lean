import TinLang.Proofs.Grammar.Words
import TinLang.Proofs.Cursor

/-!
# Accounting for tokens

A reading step passes tokens and reports errors. `Parse.Accounts` says that a step that yields
nothing has reported an error, and that a step that yields a value and reports nothing has passed
tokens that agree with what it yields. It has one rule for every way steps are put together, and
counts the tokens that are left, so that the depth given to the grammar can be seen to suffice.
-/
namespace TinLang

namespace SyntaxWord

/-- A word other than a parenthesis, a comma or a semicolon. -/
def isSignificant : SyntaxWord → Bool
  | .symbol .leftParen | .symbol .rightParen | .symbol .comma | .symbol .semicolon => false
  | _ => true

/-- Words without parentheses, commas and semicolons. -/
def significant (words : List SyntaxWord) : List SyntaxWord := words.filter isSignificant

variable {words others : List SyntaxWord}

@[simp] theorem significant_nil : significant [] = [] := rfl

@[simp] theorem significant_append :
    significant (words ++ others) = significant words ++ significant others :=
  List.filter_append ..

@[simp] theorem significant_cons (word : SyntaxWord) (words : List SyntaxWord) :
    significant (word :: words) =
      (if word.isSignificant then [word] else []) ++ significant words := by
  rw [significant, List.filter_cons]
  split <;> rfl

@[simp] theorem significant_parens : significant (parens words) = significant words := by
  simp [parens, isSignificant]

@[simp] theorem significant_operand (least tightness : Nat) :
    significant (operand least tightness words) = significant words := by
  unfold operand
  split <;> simp

@[simp] theorem significant_commas (parts : List (List SyntaxWord)) :
    significant (commas parts) = significant parts.flatten := by
  induction parts with
  | nil => rfl
  | cons first parts ih =>
    cases parts with
    | nil => simp [commas]
    | cons second parts =>
      change significant (first ++ .symbol .comma :: commas (second :: parts)) = _
      rw [significant_append, significant_cons, ih]
      simp [isSignificant]

end SyntaxWord

/-- A token other than a parenthesis, a comma or a semicolon. -/
def Token.isSignificant (token : Token) : Bool :=
  token.kind ∉ [.symbol .leftParen, .symbol .rightParen, .symbol .comma, .symbol .semicolon]

/-- Tokens read as words, up to parentheses, commas and semicolons. -/
def Agrees (tokens : List Token) (words : List SyntaxWord) : Prop :=
  ∃ spoken, List.Forall₂ Token.Says tokens spoken ∧
    SyntaxWord.significant spoken = SyntaxWord.significant words

namespace Agrees

variable {tokens later : List Token} {words others : List SyntaxWord}

theorem nil : Agrees [] [] := ⟨[], .nil, rfl⟩

theorem one {token : Token} {word : SyntaxWord} (said : token.Says word) : Agrees [token] [word] :=
  ⟨[word], .cons said .nil, rfl⟩

theorem append (first : Agrees tokens words) (second : Agrees later others) :
    Agrees (tokens ++ later) (words ++ others) := by
  obtain ⟨spoken, said, same⟩ := first
  obtain ⟨more, saidLater, sameLater⟩ := second
  refine ⟨spoken ++ more, List.rel_append said saidLater, ?_⟩
  rw [SyntaxWord.significant_append, SyntaxWord.significant_append, same, sameLater]

theorem congr (agrees : Agrees tokens words)
    (same : SyntaxWord.significant words = SyntaxWord.significant others) : Agrees tokens others :=
  agrees.imp fun _ found => ⟨found.1, found.2.trans same⟩

/-- A significant word is said by one of the tokens. -/
theorem spoken {word : SyntaxWord} (agrees : Agrees tokens words) (mem : word ∈ words)
    (significant : word.isSignificant) : ∃ token ∈ tokens, token.Says word := by
  obtain ⟨spoken, all, same⟩ := agrees
  have inside : word ∈ SyntaxWord.significant words := List.mem_filter.mpr ⟨mem, significant⟩
  rw [← same] at inside
  replace inside := List.mem_of_mem_filter inside
  clear same
  induction all with
  | nil => cases inside
  | cons first _ ih =>
    rcases List.mem_cons.mp inside with rfl | later
    · exact ⟨_, List.mem_cons_self .., first⟩
    · obtain ⟨token, found, said⟩ := ih later
      exact ⟨token, List.mem_cons_of_mem _ found, said⟩

/-- With parentheses, commas and semicolons erased from both, tokens read as words one by one. -/
theorem erased (agrees : Agrees tokens words) :
    List.Forall₂ Token.Says (tokens.filter Token.isSignificant)
      (SyntaxWord.significant words) := by
  obtain ⟨spoken, said, same⟩ := agrees
  rw [← same]
  clear same
  induction said with
  | nil => exact .nil
  | @cons token word tokens words first _ ih =>
    have alike : token.isSignificant = word.isSignificant := by
      cases word with
      | symbol sign => cases sign <;> simp [Token.isSignificant, SyntaxWord.isSignificant, first.1]
      | integer | float | string | character | name | keyword =>
        simp [Token.isSignificant, SyntaxWord.isSignificant, first.1]
    rw [SyntaxWord.significant, List.filter_cons, List.filter_cons, alike]
    split
    · exact .cons first ih
    · exact ih

end Agrees

/-- The text of a reserved word or symbol is its spelling, and that of a character literal is one
character that fits a byte. -/
def TokenKind.Genuine (literal : Text) : TokenKind → Prop
  | .keyword reserved => literal = reserved.word
  | .symbol sign => literal = sign.text
  | .character => ∃ value : UInt8, literal = Glyph.encode value.toNat
  | _ => True

/-- The text of the token goes with its kind. -/
def Token.Genuine (token : Token) : Prop := token.kind.Genuine token.literal

namespace Token

variable {token : Token}

theorem says_symbol (genuine : token.Genuine) {sign : Symbol} (kind : token.kind = .symbol sign) :
    token.Says (.symbol sign) := by
  rw [Genuine, kind] at genuine
  exact ⟨kind, genuine⟩

theorem says_keyword (genuine : token.Genuine) {reserved : Keyword}
    (kind : token.kind = .keyword reserved) : token.Says (.keyword reserved) := by
  rw [Genuine, kind] at genuine
  exact ⟨kind, genuine⟩

end Token

namespace Scan

theorem genuine_word (glyphs : List Glyph) : (word glyphs).kind.Genuine (word glyphs).literal := by
  unfold word
  simp only
  split
  · next found => exact (Keyword.word_of_ofWord? found).symm
  · trivial

theorem genuine_number (glyphs : List Glyph) :
    (number glyphs).kind.Genuine (number glyphs).literal := by
  have decimal : ∀ glyphs, (decimal glyphs).kind.Genuine (decimal glyphs).literal := by
    intro glyphs
    unfold decimal
    simp only
    split
    · trivial
    · trivial
    · simp only [Lexeme.verbatim]
      split <;> trivial
  unfold number
  split
  · split
    · simp only
      split <;> trivial
    · exact decimal _
  · exact decimal _

theorem genuine_string (glyphs : List Glyph) :
    (string glyphs).kind.Genuine (string glyphs).literal := by
  unfold string
  simp only
  split <;> trivial

theorem genuine_character (glyphs : List Glyph) :
    (character glyphs).kind.Genuine (character glyphs).literal := by
  have ended : ∀ code width rest, (characterEnd code width rest).kind.Genuine
      (characterEnd code width rest).literal := by
    intro code width rest
    unfold characterEnd
    split
    · split
      · split
        · trivial
        · next small =>
          have fits : code % 2 ^ 8 = code := by omega
          exact ⟨code.toUInt8, by rw [Nat.toUInt8, UInt8.toNat_ofNat', fits]⟩
      · trivial
    · trivial
  unfold character
  split
  · trivial
  · split
    · trivial
    · split
      · split
        · split
          · exact ended ..
          · trivial
        · trivial
      · exact ended ..

theorem genuine_symbol (glyph : Glyph) (rest : List Glyph) :
    (symbol glyph rest).kind.Genuine (symbol glyph rest).literal := by
  have choice : ∀ {first second : Lexeme} {test : Prop} [Decidable test],
      first.kind.Genuine first.literal → second.kind.Genuine second.literal →
        (if test then first else second).kind.Genuine (if test then first else second).literal := by
    intro first second test _ yes no
    split <;> assumption
  unfold symbol
  simp only
  repeat' first
    | exact rfl
    | trivial
    | apply choice

theorem genuine_lexeme (glyph : Glyph) (rest : List Glyph) :
    (lexeme glyph rest).kind.Genuine (lexeme glyph rest).literal := by
  unfold lexeme
  split
  · exact genuine_word _
  split
  · exact genuine_number _
  split
  · exact genuine_string _
  split
  · exact genuine_character _
  · exact genuine_symbol _ _

theorem genuine_tokensWithin (budget : Nat) (position : Position) (glyphs : List Glyph) :
    ∀ token ∈ tokensWithin budget position glyphs, token.Genuine := by
  induction budget generalizing position glyphs with
  | zero => simp [tokensWithin]
  | succ budget ih =>
    rw [tokensWithin]
    simp only
    split
    · split
      · simp [Token.Genuine, TokenKind.Genuine]
      · simp [Token.Genuine, TokenKind.Genuine]
    · next glyph rest _ =>
      intro token mem
      rcases List.mem_cons.mp mem with rfl | later
      · exact genuine_lexeme glyph rest
      · exact ih _ _ token later

end Scan

namespace Cursor

/-- A sound cursor over genuine tokens. -/
def Fit (cursor : Cursor) : Prop :=
  cursor.Sound ∧ ∀ token ∈ cursor.current :: cursor.following :: cursor.rest, token.Genuine

/-- A bound on the tokens before the end of the text. -/
def pending (cursor : Cursor) : Nat :=
  if cursor.current.kind = .endOfText then 0 else cursor.rest.length + 1

/-- A cursor gets to another by passing tokens before the end of the text and reporting errors. -/
inductive Passes : Cursor → List Token → Cursor → Prop
  | stay {cursor} : Passes cursor [] cursor
  | report {cursor tokens after} (error : SyntaxError)
    (later : Passes (cursor.report error) tokens after) : Passes cursor tokens after
  | next {cursor tokens after} (inside : cursor.current.kind ≠ .endOfText)
    (later : Passes cursor.next tokens after) : Passes cursor (cursor.current :: tokens) after

variable {cursor middle after : Cursor} {tokens later : List Token}

theorem Passes.trans (first : Passes cursor tokens middle) (second : Passes middle later after) :
    Passes cursor (tokens ++ later) after := by
  induction first with
  | stay => exact second
  | report error _ ih => exact .report error (ih second)
  | next inside _ ih => exact .next inside (ih second)

/-- What `settle` leaves is the end of what it is given, and it only adds errors. -/
theorem settle_suffix (ending : Token) (tokens : List Token) (problems : Array SyntaxProblem) :
    (settle ending tokens problems).2.1 <:+ tokens ∧
      ((settle ending tokens problems).1 = ending ∨ (settle ending tokens problems).1 ∈ tokens) ∧
        problems.size ≤ (settle ending tokens problems).2.2.size := by
  induction tokens generalizing problems with
  | nil => exact ⟨List.suffix_refl _, .inl rfl, Nat.le_refl _⟩
  | cons token tokens ih =>
    unfold settle
    split
    · obtain ⟨suffix, found, rose⟩ := ih (problems.push ⟨token.position, .lexical _⟩)
      refine ⟨suffix.trans (List.suffix_cons ..), found.imp_right (List.mem_cons_of_mem _), ?_⟩
      rw [Array.size_push] at rose
      omega
    · exact ⟨List.suffix_cons .., .inr (List.mem_cons_self ..), Nat.le_refl _⟩

/-- The first token is what `settle` leaves where it adds no errors. -/
theorem settle_clean {ending token : Token} {tokens : List Token} {problems : Array SyntaxProblem}
    (clean : (settle ending (token :: tokens) problems).2.2.size = problems.size) :
    settle ending (token :: tokens) problems = (token, tokens, problems) := by
  rw [settle]
  split
  · next cause kind =>
    simp only [settle, kind] at clean
    have rose := (settle_suffix ending tokens (problems.push ⟨token.position, .lexical cause⟩)).2.2
    rw [Array.size_push] at rose
    omega
  · rfl

theorem problems_next_le (cursor : Cursor) : cursor.problems.size ≤ cursor.next.problems.size :=
  (settle_suffix ..).2.2

theorem Fit.next (fit : cursor.Fit) : cursor.next.Fit := by
  refine ⟨fit.1.next, ?_⟩
  obtain ⟨suffix, found, -⟩ := settle_suffix cursor.following cursor.rest cursor.problems
  intro token mem
  refine fit.2 token ?_
  simp only [List.mem_cons] at mem ⊢
  rcases mem with rfl | rfl | later
  · exact .inr (.inl rfl)
  · exact .inr found
  · exact .inr (.inr (suffix.subset later))

theorem Fit.report (fit : cursor.Fit) (error : SyntaxError) : (cursor.report error).Fit :=
  ⟨fit.1.report error, fit.2⟩

theorem Passes.fit (passes : Passes cursor tokens after) (fit : cursor.Fit) : after.Fit := by
  induction passes with
  | stay => exact fit
  | report error _ ih => exact ih (fit.report error)
  | next _ _ ih => exact ih fit.next

theorem Passes.rose (passes : Passes cursor tokens after) :
    cursor.problems.size ≤ after.problems.size := by
  induction passes with
  | stay => exact Nat.le_refl _
  | @report cursor _ _ error _ ih =>
    have pushed : (cursor.report error).problems.size = cursor.problems.size + 1 :=
      Array.size_push ..
    omega
  | @next cursor _ _ _ _ ih => exact Nat.le_trans cursor.problems_next_le ih

/-- Passing a token leaves fewer of them. -/
theorem pending_next (sound : cursor.Sound) (inside : cursor.current.kind ≠ .endOfText) :
    cursor.next.pending < cursor.pending := by
  rw [pending, pending, if_neg inside]
  cases rest : cursor.rest with
  | nil =>
    have ended : cursor.next.current.kind = .endOfText := by
      cases sound with
      | atEnd ended => contradiction
      | inside _ _ _ ended =>
        obtain ⟨last, found, ended⟩ := ended
        rw [rest, List.getLast?_singleton] at found
        rwa [← Option.some.inj found] at ended
    rw [if_pos ended]
    exact Nat.succ_pos _
  | cons token others =>
    have shorter : cursor.next.rest.length ≤ others.length := by
      change (settle cursor.following cursor.rest cursor.problems).2.1.length ≤ _
      rw [rest, settle]
      split
      · exact (settle_suffix ..).1.length_le
      · exact Nat.le_refl _
    rw [List.length_cons]
    split <;> omega

theorem Passes.pending (passes : Passes cursor tokens after) (sound : cursor.Sound) :
    tokens.length + after.pending ≤ cursor.pending := by
  induction passes with
  | stay => simp
  | report error _ ih => exact ih (sound.report error)
  | next inside _ ih =>
    have fewer := pending_next sound inside
    have later := ih sound.next
    rw [List.length_cons]
    omega

/-- A cursor that passes nothing stays where it is. -/
theorem Passes.stays (passes : Passes cursor [] after) :
    after.current = cursor.current ∧ after.rest = cursor.rest := by
  generalize nothing : ([] : List Token) = tokens at passes
  induction passes with
  | stay => exact ⟨rfl, rfl⟩
  | report error _ ih => exact ih nothing
  | next => cases nothing

theorem Passes.pending_of_nil (passes : Passes cursor [] after) :
    after.pending = cursor.pending := by
  rw [Cursor.pending, Cursor.pending, passes.stays.1, passes.stays.2]

/-- The tokens from the current one to the end of the text. -/
def ahead (cursor : Cursor) : List Token :=
  if cursor.current.kind = .endOfText then [cursor.current]
  else cursor.current :: cursor.following :: cursor.rest

/-- What passing a token without an error leaves ahead. -/
theorem ahead_next (sound : cursor.Sound) (inside : cursor.current.kind ≠ .endOfText)
    (clean : cursor.next.problems.size = cursor.problems.size) :
    cursor.ahead = cursor.current :: cursor.next.ahead := by
  rw [ahead, if_neg inside, ahead]
  congr 1
  cases sound with
  | atEnd ended => contradiction
  | inside _ _ ordered ended =>
    obtain ⟨last, found, ended⟩ := ended
    have later := (List.pairwise_cons.mp ordered).2
    cases rest : cursor.rest with
    | nil =>
      rw [if_pos (kind_next_of_last found ended rest)]
      rfl
    | cons token others =>
      have further : cursor.next.current.kind ≠ .endOfText :=
        ((List.pairwise_cons.mp later).1 token (by simp [rest])).1
      rw [if_neg further]
      have settled : settle cursor.following cursor.rest cursor.problems =
          (token, others, cursor.problems) := by
        rw [rest]
        refine settle_clean ?_
        rw [← rest]
        exact clean
      simp only [Cursor.next, settled]

/-- Where nothing is reported, the tokens passed and those still ahead are those that were ahead. -/
theorem Passes.ahead (passes : Passes cursor tokens after) (sound : cursor.Sound)
    (clean : after.problems.size = cursor.problems.size) :
    cursor.ahead = tokens ++ after.ahead := by
  induction passes with
  | stay => rfl
  | @report cursor _ _ error later ih =>
    have rose := later.rose
    have pushed : (cursor.report error).problems.size = cursor.problems.size + 1 :=
      Array.size_push ..
    omega
  | @next cursor _ _ inside later ih =>
    have first := cursor.problems_next_le
    have second := later.rose
    rw [ahead_next sound inside (by omega), ih sound.next (by omega), List.cons_append]

theorem Passes.valid (passes : Passes cursor tokens after) (sound : cursor.Sound) :
    ∀ token ∈ tokens, token.Valid := by
  induction passes with
  | stay => simp
  | report error _ ih => exact ih (sound.report error)
  | next inside _ ih =>
    intro token mem
    rcases List.mem_cons.mp mem with rfl | later
    · cases sound with
      | atEnd ended => contradiction
      | inside valid => exact valid
    · exact ih sound.next token later

end Cursor

namespace Parse

open Cursor (Passes Fit)

variable {α β : Type} {cursor : Cursor}

/-- A step that yields nothing has reported an error; a step that yields a value has passed at least
a number of tokens, and when it has reported nothing they are good for the value. -/
def Accounts (cursor : Cursor) (step : Parse α) (least : Nat) (good : α → List Token → Prop) :
    Prop :=
  cursor.Fit → ∃ result tokens after, step.run.run cursor = (result, after) ∧
    Passes cursor tokens after ∧
      match result with
      | none => cursor.problems.size < after.problems.size
      | some value => least ≤ tokens.length ∧
        (after.problems.size = cursor.problems.size → good value tokens)

namespace Accounts

variable {least further : Nat} {good : β → List Token → Prop}

theorem intro {step : Parse β} (accounts : cursor.Fit → Accounts cursor step least good) :
    Accounts cursor step least good :=
  fun fit => accounts fit fit

theorem pure {value : β} (holds : good value []) : Accounts cursor (pure value) 0 good :=
  fun _ => ⟨some value, [], cursor, rfl, .stay, Nat.le_refl 0, fun _ => holds⟩

theorem mono {step : Parse β} {wanted : β → List Token → Prop}
    (accounts : Accounts cursor step least good) (fewer : further ≤ least)
    (weaker : ∀ value tokens, good value tokens → wanted value tokens) :
    Accounts cursor step further wanted := by
  intro fit
  obtain ⟨result, tokens, after, run, passes, found⟩ := accounts fit
  refine ⟨result, tokens, after, run, passes, ?_⟩
  cases result with
  | none => exact found
  | some value =>
    exact ⟨Nat.le_trans fewer found.1, fun clean => weaker value tokens (found.2 clean)⟩

/-- One step after another, with all that is known where the second starts. -/
theorem bindPassing {step : Parse α} {next : α → Parse β} {between : α → List Token → Prop}
    (first : Accounts cursor step least between)
    (later : ∀ value tokens after, Passes cursor tokens after → least ≤ tokens.length →
      (after.problems.size = cursor.problems.size → between value tokens) →
        Accounts after (next value) 0 fun result others =>
          after.problems.size = cursor.problems.size → between value tokens →
            good result (tokens ++ others)) :
    Accounts cursor (step >>= next) least good := by
  intro fit
  obtain ⟨result, tokens, middle, run, passes, found⟩ := first fit
  cases result with
  | none => exact ⟨none, tokens, middle, run_bind_none run, passes, found⟩
  | some value =>
    obtain ⟨result, others, after, runLater, passesLater, foundLater⟩ :=
      later value tokens middle passes found.1 found.2 (passes.fit fit)
    refine ⟨result, tokens ++ others, after, (run_bind_some run).trans runLater,
      passes.trans passesLater, ?_⟩
    have rose := passes.rose
    have roseLater := passesLater.rose
    cases result with
    | none => exact Nat.lt_of_le_of_lt rose foundLater
    | some result =>
      rw [List.length_append]
      refine ⟨Nat.le_trans found.1 (Nat.le_add_right ..), fun clean => ?_⟩
      exact foundLater.2 (by omega) (by omega) (found.2 (by omega))

/-- One step after another. The tokens left after the first are fewer, and what holds of its value
is known where the value of the second has to be good. -/
theorem bind {step : Parse α} {next : α → Parse β} {between : α → List Token → Prop}
    (first : Accounts cursor step least between)
    (later : ∀ value tokens after, after.pending + least ≤ cursor.pending →
      Accounts after (next value) 0 fun result others =>
        between value tokens → good result (tokens ++ others)) :
    Accounts cursor (step >>= next) least good := by
  refine .intro fun fit => first.bindPassing fun value tokens after passes passed _ => ?_
  have fewer := passes.pending fit.1
  exact (later value tokens after (by omega)).mono (Nat.le_refl 0) fun _ _ holds _ => holds

/-- One step after another where it does not matter that the first passes tokens. -/
theorem andThen {step : Parse α} {next : α → Parse β} {between : α → List Token → Prop}
    (first : Accounts cursor step least between)
    (later : ∀ value tokens after, after.pending + least ≤ cursor.pending →
      Accounts after (next value) 0 fun result others =>
        between value tokens → good result (tokens ++ others)) :
    Accounts cursor (step >>= next) 0 good :=
  (first.bind later).mono (Nat.zero_le _) fun _ _ holds => holds

theorem get {next : Cursor → Parse β} (later : Accounts cursor (next cursor) least good) :
    Accounts cursor (MonadState.get >>= next) least good := later

theorem current {next : Token → Parse β}
    (later : Accounts cursor (next cursor.current) least good) :
    Accounts cursor (Parse.current >>= next) least good := later

theorem isAt {kind : TokenKind} {next : Bool → Parse β}
    (later : Accounts cursor (next (decide (cursor.current.kind = kind))) least good) :
    Accounts cursor (Parse.isAt kind >>= next) least good := later

theorem spanFrom {start : Position} {next : Span → Parse β}
    (later : Accounts cursor (next ⟨start, cursor.lastStop⟩) least good) :
    Accounts cursor (Parse.spanFrom start >>= next) least good := later

theorem problemCount {next : Nat → Parse β}
    (later : Accounts cursor (next cursor.problems.size) least good) :
    Accounts cursor (Parse.problemCount >>= next) least good := later

theorem value {value : α} {next : α → Parse β} (later : Accounts cursor (next value) least good) :
    Accounts cursor (Pure.pure value >>= next) least good := by
  rw [pure_bind]
  exact later

theorem map {step : Parse α} {function : α → β} {between : α → List Token → Prop}
    (accounts : Accounts cursor step least between)
    (holds : ∀ value tokens, between value tokens → good (function value) tokens) :
    Accounts cursor (function <$> step) least good := by
  rw [map_eq_pure_bind]
  refine accounts.bind fun value tokens after _ => .pure fun found => ?_
  rw [List.append_nil]
  exact holds value tokens found

/-- The number of tokens passed is known of any value. -/
theorem counted {step : Parse β} (accounts : Accounts cursor step least good) :
    Accounts cursor step least fun value tokens => least ≤ tokens.length ∧ good value tokens := by
  intro fit
  obtain ⟨result, tokens, after, run, passes, found⟩ := accounts fit
  refine ⟨result, tokens, after, run, passes, ?_⟩
  cases result with
  | none => exact found
  | some value => exact ⟨found.1, fun clean => ⟨found.1, found.2 clean⟩⟩

theorem fail {error : SyntaxError} : Accounts cursor (Parse.fail error) least good := by
  refine fun _ => ⟨none, [], cursor.report error, rfl, .report error .stay, ?_⟩
  change _ < (cursor.report error).problems.size
  rw [Cursor.report, Array.size_push]
  exact Nat.lt_succ_self _

/-- After a report the value does not have to be good. -/
theorem report {error : SyntaxError} {next : Unit → Parse β}
    (later : Accounts (cursor.report error) (next ()) least fun _ _ => True) :
    Accounts cursor (modify (·.report error) >>= next) least good := by
  intro fit
  obtain ⟨result, tokens, after, run, passes, found⟩ := later (fit.report error)
  have rose := passes.rose
  have pushed : (cursor.report error).problems.size = cursor.problems.size + 1 := Array.size_push ..
  refine ⟨result, tokens, after, run, .report error passes, ?_⟩
  cases result with
  | none => exact Nat.lt_of_succ_lt (Nat.lt_of_le_of_lt (Nat.le_of_eq pushed.symm) found)
  | some value => exact ⟨found.1, fun clean => by omega⟩

/-- Passing a token that does not end the text. -/
theorem advance (inside : cursor.current.kind ≠ .endOfText) :
    Accounts cursor Parse.advance 1 fun _ tokens => tokens = [cursor.current] :=
  fun _ => ⟨some (), [cursor.current], cursor.next, rfl, .next inside .stay, Nat.le_refl 1,
    fun _ => rfl⟩

/-- Passing a symbol that stands there. -/
theorem advanceSymbol {sign : Symbol} (kind : cursor.current.kind = .symbol sign) :
    Accounts cursor Parse.advance 1 fun _ tokens => Agrees tokens [.symbol sign] :=
  .intro fun fit => (advance (by rw [kind]; simp)).mono (Nat.le_refl 1) fun _ _ passed => passed ▸
    .one (Token.says_symbol (fit.2 _ (List.mem_cons_self ..)) kind)

/-- Passing a reserved word that stands there. -/
theorem advanceKeyword {reserved : Keyword} (kind : cursor.current.kind = .keyword reserved) :
    Accounts cursor Parse.advance 1 fun _ tokens => Agrees tokens [.keyword reserved] :=
  .intro fun fit => (advance (by rw [kind]; simp)).mono (Nat.le_refl 1) fun _ _ passed => passed ▸
    .one (Token.says_keyword (fit.2 _ (List.mem_cons_self ..)) kind)

theorem expect {kind : TokenKind} (inside : kind ≠ .endOfText) :
    Accounts cursor (Parse.expect kind) 1 fun _ tokens =>
      tokens = [cursor.current] ∧ cursor.current.kind = kind := by
  refine .current ?_
  split
  · next same =>
    rw [← same] at inside
    exact (advance inside).mono (Nat.le_refl 1) fun _ _ passed => ⟨passed, same⟩
  · exact .fail

theorem expectSymbol (sign : Symbol) :
    Accounts cursor (Parse.expectSymbol sign) 1 fun _ tokens => Agrees tokens [.symbol sign] :=
  .intro fun fit => (expect (by simp)).mono (Nat.le_refl 1) fun _ _ passed => passed.1 ▸
    .one (Token.says_symbol (fit.2 _ (List.mem_cons_self ..)) passed.2)

theorem expectName :
    Accounts cursor Parse.expectName 1 fun name tokens => Agrees tokens [.name name] := by
  refine .current ((expect (by simp)).bind fun _ tokens after _ => .pure fun passed => ?_)
  rw [passed.1]
  exact .one ⟨passed.2, rfl⟩

/-- An attempted step yields a value wherever nothing is reported. -/
theorem attempt {step : Parse α} {good : α → List Token → Prop}
    (accounts : Accounts cursor step least good) :
    Accounts cursor (Parse.attempt step) 0 fun result tokens =>
      ∃ value, result = some value ∧ good value tokens := by
  intro fit
  obtain ⟨result, tokens, after, run, passes, found⟩ := accounts fit
  have whole : (Parse.attempt step).run.run cursor = (some result, after) := by
    simp only [Parse.attempt, OptionT.run_mk, StateT.run_map, run]
    rfl
  refine ⟨some result, tokens, after, whole, passes, Nat.zero_le _, fun clean => ?_⟩
  cases result with
  | none => omega
  | some value => exact ⟨value, rfl, found.2 clean⟩

end Accounts

/-- A step that yields nothing has reported an error. -/
def Reports (cursor : Cursor) (step : Parse α) : Prop :=
  (step.run.run cursor).1 = none → cursor.problems.size < (step.run.run cursor).2.problems.size

theorem Accounts.reports {step : Parse α} {least : Nat} {good : α → List Token → Prop}
    (accounts : Accounts cursor step least good) (fit : cursor.Fit) : Reports cursor step := by
  obtain ⟨result, tokens, after, run, -, found⟩ := accounts fit
  unfold Reports
  rw [run]
  rintro rfl
  exact found

/-- A step that accounts for its tokens and passes at least one, even if it yields nothing. -/
def Advances (cursor : Cursor) (step : Parse α) (good : α → List Token → Prop) : Prop :=
  Accounts cursor step 1 good ∧
    (cursor.Fit → (step.run.run cursor).2.pending < cursor.pending)

namespace Advances

theorem current {next : Token → Parse β} {good : β → List Token → Prop}
    (later : Advances cursor (next cursor.current) good) :
    Advances cursor (Parse.current >>= next) good := later

theorem get {next : Cursor → Parse β} {good : β → List Token → Prop}
    (later : Advances cursor (next cursor) good) :
    Advances cursor (MonadState.get >>= next) good := later

/-- Passing a token that does not end the text. -/
theorem one (inside : cursor.current.kind ≠ .endOfText) :
    Advances cursor Parse.advance fun _ tokens => tokens = [cursor.current] :=
  ⟨.advance inside, fun fit => Cursor.pending_next fit.1 inside⟩

/-- A step that starts by passing a token. -/
theorem advance {next : Unit → Parse β} {good : β → List Token → Prop}
    (inside : cursor.current.kind ≠ .endOfText)
    (later : cursor.current.Genuine → cursor.next.pending + 1 ≤ cursor.pending →
      Accounts cursor.next (next ()) 0 fun result others =>
        good result (cursor.current :: others)) :
    Advances cursor (Parse.advance >>= next) good := by
  refine ⟨fun fit => ?_, fun fit => ?_⟩ <;>
    obtain ⟨result, tokens, after, run, passes, found⟩ :=
      later (fit.2 _ (List.mem_cons_self ..)) (Cursor.pending_next fit.1 inside) fit.next
  · refine ⟨result, cursor.current :: tokens, after, run, .next inside passes, ?_⟩
    have rose := cursor.problems_next_le
    have roseLater := passes.rose
    cases result with
    | none => exact Nat.lt_of_le_of_lt rose found
    | some value =>
      exact ⟨Nat.succ_le_succ (Nat.zero_le _), fun clean => found.2 (by omega)⟩
  · have fewer := Cursor.pending_next fit.1 inside
    have left := passes.pending fit.next.1
    change (((next ()).run.run cursor.next).2).pending < _
    rw [run]
    change after.pending < _
    omega

/-- A step that starts by passing a symbol that stands there. -/
theorem expectSymbol {sign : Symbol} {next : Unit → Parse β} {good : β → List Token → Prop}
    (kind : cursor.current.kind = .symbol sign)
    (later : cursor.current.Genuine → cursor.next.pending + 1 ≤ cursor.pending →
      Accounts cursor.next (next ()) 0 fun result others =>
        good result (cursor.current :: others)) :
    Advances cursor (Parse.expectSymbol sign >>= next) good := by
  have same : (Parse.expectSymbol sign >>= next).run.run cursor =
      (Parse.advance >>= next).run.run cursor := by
    have passed : (Parse.expectSymbol sign).run.run cursor = (some (), cursor.next) := by
      change ((if cursor.current.kind = .symbol sign then Parse.advance
        else Parse.fail (.expected _ cursor.current)) : Parse Unit).run.run cursor = _
      rw [if_pos kind]
      rfl
    exact run_bind_some passed
  unfold Advances Accounts
  rw [same]
  exact advance (by rw [kind]; simp) later

/-- A step whose value is made of what an advancing step yields. -/
theorem bind {step : Parse α} {next : α → Parse β} {between : α → List Token → Prop}
    {good : β → List Token → Prop} (first : Advances cursor step between)
    (later : ∀ value tokens after, after.pending + 1 ≤ cursor.pending →
      Accounts after (next value) 0 fun result others =>
        between value tokens → good result (tokens ++ others)) :
    Advances cursor (step >>= next) good := by
  refine ⟨first.1.bind later, fun fit => ?_⟩
  have fewer := first.2 fit
  obtain ⟨result, tokens, middle, run, passes, found⟩ := first.1 fit
  rw [run] at fewer
  cases result with
  | none => rwa [run_bind_none run]
  | some value =>
    rw [run_bind_some run]
    obtain ⟨result, others, after, runLater, passesLater, -⟩ :=
      later value tokens middle fewer (passes.fit fit)
    have left := passesLater.pending (passes.fit fit).1
    rw [runLater]
    change middle.pending < _ at fewer
    change after.pending < _
    omega

theorem mono {step : Parse α} {good wanted : α → List Token → Prop}
    (advances : Advances cursor step good)
    (weaker : ∀ value tokens, good value tokens → wanted value tokens) :
    Advances cursor step wanted :=
  ⟨advances.1.mono (Nat.le_refl 1) weaker, advances.2⟩

theorem attempt {step : Parse α} {good : α → List Token → Prop}
    (advances : Advances cursor step good) :
    Accounts cursor (Parse.attempt step) 1 fun result tokens =>
      ∃ value, result = some value ∧ good value tokens := by
  intro fit
  obtain ⟨result, tokens, after, run, passes, found⟩ := advances.1.attempt fit
  have moved : after.pending < cursor.pending := by
    have same : ((Parse.attempt step).run.run cursor).2 = (step.run.run cursor).2 := rfl
    have fewer := advances.2 fit
    rwa [← same, run] at fewer
  refine ⟨result, tokens, after, run, passes, ?_⟩
  cases result with
  | none => exact found
  | some value =>
    refine ⟨?_, found.2⟩
    cases tokens with
    | nil =>
      rw [passes.pending_of_nil] at moved
      omega
    | cons token tokens => exact Nat.succ_le_succ (Nat.zero_le _)

end Advances

end Parse

end TinLang
