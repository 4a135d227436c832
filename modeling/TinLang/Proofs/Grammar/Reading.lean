import TinLang.Proofs.Cursor
import TinLang.Proofs.Grammar.Words
import TinLang.Syntax.Parse

/-!
# Reading expected words

A cursor that stands before known words passes them one by one and reports nothing. A step of the
grammar that yields a value there is followed through its parts: `Parse.Yields` says where the step
ends and what it yields, and has one rule for every way steps are put together.
-/
namespace TinLang

namespace Cursor

/-- The cursor stands before tokens that read as some words and then end the text. Passing them
reports no errors. -/
def Stands : Cursor → List SyntaxWord → Prop
  | cursor, [] => cursor.current.kind = .endOfText
  | cursor, word :: words =>
    cursor.current.Says word ∧ words.length + 1 < cursor.remaining ∧
      cursor.next.problems = cursor.problems ∧ cursor.next.Stands words

/-- The cursor a number of tokens further. -/
def skip : Cursor → (count : Nat) → Cursor
  | cursor, 0 => cursor
  | cursor, count + 1 => cursor.next.skip count

variable {cursor : Cursor} {words rest : List SyntaxWord} {word : SyntaxWord}

theorem Stands.heard (stands : cursor.Stands (word :: words)) : cursor.current.Says word := stands.1

theorem Stands.next (stands : cursor.Stands (word :: words)) : cursor.next.Stands words :=
  stands.2.2.2

theorem Stands.enough (stands : cursor.Stands words) : words.length < cursor.remaining := by
  cases words with
  | nil => exact Nat.succ_pos _
  | cons word words => exact stands.2.1

theorem Stands.skip (stands : cursor.Stands (words ++ rest)) :
    (cursor.skip words.length).Stands rest := by
  induction words generalizing cursor with
  | nil => exact stands
  | cons word words ih => exact ih stands.next

theorem Stands.problems_skip (stands : cursor.Stands (words ++ rest)) :
    (cursor.skip words.length).problems = cursor.problems := by
  induction words generalizing cursor with
  | nil => rfl
  | cons word words ih => exact (ih stands.next).trans stands.2.2.1

@[simp] theorem skip_zero : cursor.skip 0 = cursor := rfl

@[simp] theorem skip_next (count : Nat) : cursor.next.skip count = cursor.skip (count + 1) := rfl

theorem skip_add (first second : Nat) :
    cursor.skip (first + second) = (cursor.skip first).skip second := by
  induction first generalizing cursor with
  | zero => rw [Nat.zero_add]; rfl
  | succ first ih => rw [Nat.succ_add]; exact ih

@[simp] theorem next_skip (count : Nat) : (cursor.skip count).next = cursor.skip (count + 1) :=
  (skip_add count 1).symm

@[simp] theorem skip_skip (first second : Nat) :
    (cursor.skip first).skip second = cursor.skip (first + second) :=
  (skip_add first second).symm

/-- A token that is a word is no error. -/
theorem settle_of_word {token : Token} {word : SyntaxWord} (spoken : token.Says word)
    (ending : Token) (tokens : List Token) (problems : Array SyntaxProblem) :
    settle ending (token :: tokens) problems = (token, tokens, problems) := by
  unfold settle
  split
  · next cause kind => cases word <;> simp_all [Token.Says]
  · rfl

theorem settle_of_end {token : Token} (ended : token.kind = .endOfText) (ending : Token)
    (tokens : List Token) (problems : Array SyntaxProblem) :
    settle ending (token :: tokens) problems = (token, tokens, problems) := by
  unfold settle
  split
  · next cause kind =>
    rw [ended] at kind
    contradiction
  · rfl

/-- Tokens that read as words or end the text are passed without errors. -/
theorem stands_of_tokens {tokens : List Token} {last : Token} (ended : last.kind = .endOfText)
    (spoken : List.Forall₂ Token.Says tokens words)
    (ahead : (tokens = [] ∧ cursor.current = last ∧ cursor.following = last ∧ cursor.rest = []) ∨
      cursor.current :: cursor.following :: cursor.rest = tokens ++ [last]) :
    cursor.Stands words := by
  induction spoken generalizing cursor with
  | nil =>
    rcases ahead with ahead | ahead
    · rw [Stands, ahead.2.1, ended]
    · simp at ahead
  | cons word said ih =>
    next token word tokens words =>
    rcases ahead with ahead | ahead
    · simp at ahead
    · simp only [List.cons_append, List.cons.injEq] at ahead
      obtain ⟨current, later⟩ := ahead
      have long : cursor.rest.length + 1 = words.length + 1 := by
        rw [← said.length_eq]
        simpa using congrArg List.length later
      refine ⟨by rw [current]; exact word, by rw [remaining]; omega, ?_⟩
      cases tokens with
      | nil =>
        simp only [List.nil_append, List.cons.injEq] at later
        have same : cursor.next = ⟨cursor.following, cursor.following, [], cursor.current.stop,
            cursor.problems⟩ := by rw [Cursor.next, later.2]; rfl
        refine ⟨by rw [same], ih (.inl ⟨rfl, ?_, ?_, ?_⟩)⟩ <;> rw [same]
        · exact later.1
        · exact later.1
      | cons second tokens =>
        simp only [List.cons_append, List.cons.injEq] at later
        cases said with
        | cons spoken others =>
          cases tokens with
          | nil =>
            have same : cursor.next = ⟨cursor.following, last, [], cursor.current.stop,
                cursor.problems⟩ := by
              rw [Cursor.next, later.2, List.nil_append, settle_of_end ended]
            exact ⟨by rw [same], ih (.inr (by rw [same, later.1]; rfl))⟩
          | cons third tokens =>
            cases others with
            | cons spoken others =>
              have same : cursor.next = ⟨cursor.following, third, tokens ++ [last],
                  cursor.current.stop, cursor.problems⟩ := by
                rw [Cursor.next, later.2, List.cons_append, settle_of_word spoken]
              exact ⟨by rw [same], ih (.inr (by rw [same, later.1]; rfl))⟩

/-- The cursor at the front of tokens that read as words. -/
theorem stands_ofTokens {tokens : List Token} {last : Token} (ended : last.kind = .endOfText)
    (spoken : List.Forall₂ Token.Says tokens words) :
    (ofTokens (tokens ++ [last])).Stands words ∧ (ofTokens (tokens ++ [last])).problems = #[] := by
  cases spoken with
  | nil =>
    have same : ofTokens ([] ++ [last]) = ⟨last, last, [], ⟨0, 0, 0⟩, #[]⟩ := by
      rw [List.nil_append, ofTokens, settle_of_end ended]
      rfl
    rw [same]
    exact ⟨ended, rfl⟩
  | cons first others =>
    next token word tokens words =>
    cases others with
    | nil =>
      have same : ofTokens ([token] ++ [last]) = ⟨token, last, [], ⟨0, 0, 0⟩, #[]⟩ := by
        rw [List.cons_append, List.nil_append, ofTokens, settle_of_word first]
        simp only [settle_of_end ended]
      rw [same]
      exact ⟨stands_of_tokens ended (.cons first .nil) (.inr rfl), rfl⟩
    | cons second others =>
      next next word' tokens words =>
      have same : ofTokens (token :: next :: tokens ++ [last]) =
          ⟨token, next, tokens ++ [last], ⟨0, 0, 0⟩, #[]⟩ := by
        rw [List.cons_append, List.cons_append, ofTokens, settle_of_word first]
        simp only [settle_of_word second]
      rw [same]
      exact ⟨stands_of_tokens ended (.cons first (.cons second others)) (.inr rfl), rfl⟩

end Cursor

namespace Parse

variable {α β : Type} {cursor middle after : Cursor}

/-- A step leads from one cursor to another and yields a value that satisfies a condition. -/
def Yields (cursor : Cursor) (step : Parse α) (after : Cursor) (good : α → Prop) : Prop :=
  ∃ value, good value ∧ step.run.run cursor = (some value, after)

namespace Yields

variable {good : β → Prop}

theorem pure {value : β} (holds : good value) : Yields cursor (pure value) cursor good :=
  ⟨value, holds, rfl⟩

/-- A value is yielded as many tokens on as there are words. -/
theorem pure_skip {value : β} {passed count : Nat} (same : passed = count) (holds : good value) :
    Yields (cursor.skip passed) (Pure.pure value) (cursor.skip count) good :=
  same ▸ pure holds

/-- One step after another. -/
theorem bind {step : Parse α} {next : α → Parse β} {between : α → Prop}
    (first : Yields cursor step middle between)
    (later : ∀ value, between value → Yields middle (next value) after good) :
    Yields cursor (step >>= next) after good := by
  obtain ⟨value, holds, found⟩ := first
  obtain ⟨result, sound, finished⟩ := later value holds
  exact ⟨result, sound, (run_bind_some found).trans finished⟩

theorem mono {step : Parse α} {first second : α → Prop} (yields : Yields cursor step after first)
    (weaker : ∀ value, first value → second value) : Yields cursor step after second := by
  obtain ⟨value, holds, found⟩ := yields
  exact ⟨value, weaker value holds, found⟩

theorem map {step : Parse α} {function : α → β} (yields : Yields cursor step after
    (good ∘ function)) :
    Yields cursor (function <$> step) after good := by
  rw [map_eq_pure_bind]
  exact yields.bind fun _ holds => .pure holds

theorem attempt {step : Parse α} {good : α → Prop} (yields : Yields cursor step after good) :
    Yields cursor (Parse.attempt step) after fun result =>
      ∃ value, result = some value ∧ good value := by
  obtain ⟨value, holds, found⟩ := yields
  refine ⟨some value, ⟨value, rfl, holds⟩, ?_⟩
  simp only [Parse.attempt, OptionT.run_mk, StateT.run_map, found]
  rfl

theorem value {value : α} {next : α → Parse β} (later : Yields cursor (next value) after good) :
    Yields cursor (Pure.pure value >>= next) after good := by
  rw [pure_bind]
  exact later

theorem current {next : Token → Parse β} (later : Yields cursor (next cursor.current) after good) :
    Yields cursor (Parse.current >>= next) after good := later

theorem get {next : Cursor → Parse β} (later : Yields cursor (next cursor) after good) :
    Yields cursor (MonadState.get >>= next) after good := later

theorem isAt {kind : TokenKind} {next : Bool → Parse β}
    (later : Yields cursor (next (decide (cursor.current.kind = kind))) after good) :
    Yields cursor (Parse.isAt kind >>= next) after good := later

theorem spanFrom {start : Position} {next : Span → Parse β}
    (later : Yields cursor (next ⟨start, cursor.lastStop⟩) after good) :
    Yields cursor (Parse.spanFrom start >>= next) after good := later

theorem problemCount {next : Nat → Parse β}
    (later : Yields cursor (next cursor.problems.size) after good) :
    Yields cursor (Parse.problemCount >>= next) after good := later

theorem advance {next : Unit → Parse β} (later : Yields cursor.next (next ()) after good) :
    Yields cursor (Parse.advance >>= next) after good := later

theorem expect {kind : TokenKind} {next : Unit → Parse β} (same : cursor.current.kind = kind)
    (later : Yields cursor.next (next ()) after good) :
    Yields cursor (Parse.expect kind >>= next) after good := by
  have passed : (Parse.expect kind).run.run cursor = (some (), cursor.next) := by
    change ((if cursor.current.kind = kind then Parse.advance
      else Parse.fail (.expected kind cursor.current)) : Parse Unit).run.run cursor = _
    rw [if_pos same]
    rfl
  have first : Yields cursor (Parse.expect kind) cursor.next fun _ => True := ⟨(), trivial, passed⟩
  exact first.bind fun _ _ => later

theorem expectName {next : Text → Parse β} (same : cursor.current.kind = .identifier)
    (later : Yields cursor.next (next cursor.current.literal) after good) :
    Yields cursor (Parse.expectName >>= next) after good := by
  have first : Yields cursor Parse.expectName cursor.next (· = cursor.current.literal) :=
    current (expect same (pure rfl))
  exact first.bind fun _ name => name ▸ later

end Yields

end Parse

end TinLang
