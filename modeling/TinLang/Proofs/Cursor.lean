import TinLang.Proofs.Scan
import TinLang.Syntax.Cursor

/-!
# Reading forward

A cursor over the tokens of a text never moves back, and every token that does not end the text
moves it on.
-/
namespace TinLang

/-- A token is not a lexical error. -/
def Token.Valid (token : Token) : Prop := ∀ cause, token.kind ≠ .error cause

namespace Cursor

/-- The first token that is no error, in tokens of which the last ends the text. -/
theorem settle_sound (ending : Token) {tokens : List Token} (problems : Array SyntaxProblem)
    {last : Token} (found : tokens.getLast? = some last) (ended : last.kind = .endOfText) :
    ∃ token rest, (settle ending tokens problems).1 = token ∧
      (settle ending tokens problems).2.1 = rest ∧ token.Valid ∧ (token :: rest) <:+ tokens := by
  induction tokens generalizing problems with
  | nil => simp at found
  | cons token tokens ih =>
    unfold settle
    split
    · next cause kind =>
      have later : tokens.getLast? = some last := by
        cases tokens with
        | nil =>
          simp only [List.getLast?_singleton, Option.some.injEq] at found
          rw [found, ended] at kind
          contradiction
        | cons second tokens => simpa [List.getLast?_cons_cons] using found
      obtain ⟨next, rest, first, second, valid, suffix⟩ := ih _ later
      exact ⟨next, rest, first, second, valid, suffix.trans (List.suffix_cons _ _)⟩
    · next valid => exact ⟨token, tokens, rfl, rfl, valid, List.suffix_refl _⟩

/-- The place of the token to read next. -/
def place (cursor : Cursor) : Position := cursor.current.position

/-- A cursor stands at the end of the text, or before tokens that lead to it. -/
inductive Sound (cursor : Cursor) : Prop where
  | atEnd (ended : cursor.current.kind = .endOfText) (same : cursor.following = cursor.current)
    (nothing : cursor.rest = [])
  | inside (valid : cursor.current.Valid) (validNext : cursor.following.Valid)
    (ordered : (cursor.current :: cursor.following :: cursor.rest).Pairwise Token.Ahead)
    (ended : ∃ last, (cursor.following :: cursor.rest).getLast? = some last ∧
      last.kind = .endOfText)

/-- When the next token is the last one, it is the end of the text. -/
theorem kind_next_of_last {cursor : Cursor} {last : Token}
    (found : (cursor.following :: cursor.rest).getLast? = some last)
    (ended : last.kind = .endOfText) (rest : cursor.rest = []) :
    cursor.next.current.kind = .endOfText := by
  rw [rest, List.getLast?_singleton] at found
  rw [show cursor.next.current = cursor.following from rfl, Option.some.inj found, ended]

/-- Before the end the next token stands further on. -/
theorem Sound.before_next {cursor : Cursor} (sound : cursor.Sound)
    (inside : cursor.current.kind ≠ .endOfText) : cursor.place.Before cursor.next.place := by
  cases sound with
  | atEnd ended => contradiction
  | inside valid _ ordered =>
    exact ((List.pairwise_cons.mp ordered).1 cursor.following (by simp)).2 valid

/-- The cursor never moves back. -/
theorem Sound.upTo_next {cursor : Cursor} (sound : cursor.Sound) :
    cursor.place.UpTo cursor.next.place := by
  by_cases ended : cursor.current.kind = .endOfText
  · cases sound with
    | atEnd _ same =>
      have unmoved : cursor.next.place = cursor.place := congrArg Token.position same
      rw [unmoved]
      exact .refl _
    | inside _ _ ordered =>
      have ahead := (List.pairwise_cons.mp ordered).1 cursor.following (by simp)
      exact absurd ended ahead.1
  · exact (sound.before_next ended).upTo

/-- A sound cursor stays sound when it moves on. -/
theorem Sound.next {cursor : Cursor} (sound : cursor.Sound) : cursor.next.Sound := by
  cases sound with
  | atEnd ended same nothing =>
    refine .atEnd ?_ ?_ ?_
    · rw [show cursor.next.current = cursor.following from rfl, same, ended]
    · simp [Cursor.next, nothing, settle]
    · simp [Cursor.next, nothing, settle]
  | inside _ valid ordered ended =>
    obtain ⟨last, found, ended⟩ := ended
    have later := (List.pairwise_cons.mp ordered).2
    cases rest : cursor.rest with
    | nil =>
      have lastToken : last = cursor.following := by simpa [rest] using found.symm
      refine .atEnd ?_ ?_ ?_
      · rw [show cursor.next.current = cursor.following from rfl, ← lastToken, ended]
      · simp [Cursor.next, rest, settle]
      · simp [Cursor.next, rest, settle]
    | cons token tokens =>
      have lastFound : cursor.rest.getLast? = some last := by
        rw [rest] at found ⊢
        simpa [List.getLast?_cons_cons] using found
      obtain ⟨next, others, first, second, nextValid, suffix⟩ :=
        settle_sound cursor.following cursor.problems lastFound ended
      have tokens : cursor.next.following :: cursor.next.rest = next :: others := by
        rw [← first, ← second]
        rfl
      have part : (next :: others).Sublist cursor.rest := suffix.sublist
      refine .inside valid ?_ ?_ ?_
      · rw [show cursor.next.following = next from first]
        exact nextValid
      · rw [show cursor.next.current = cursor.following from rfl, tokens]
        exact later.sublist (part.cons_cons _)
      · rw [tokens]
        obtain ⟨front, whole⟩ := suffix
        rw [← whole, List.getLast?_append] at lastFound
        exact ⟨last, by simpa using lastFound, ended⟩

/-- Reporting an error does not move the cursor. -/
theorem Sound.report {cursor : Cursor} (sound : cursor.Sound) (error : SyntaxError) :
    (cursor.report error).Sound := by
  cases sound with
  | atEnd ended same nothing => exact .atEnd ended same nothing
  | inside valid validNext ordered ended => exact .inside valid validNext ordered ended

/-- The cursor before the first token of a text is sound. -/
theorem sound_ofTokens {position : Position} {tokens : List Token}
    (complete : Scan.Complete position tokens) : (ofTokens tokens).Sound := by
  obtain ⟨last, found, ended⟩ := complete.ended
  obtain ⟨current, others, first, second, valid, suffix⟩ :=
    settle_sound ⟨.endOfText, [], .start⟩ #[] found ended
  have ordered := complete.ordered.sublist suffix.sublist
  have currentToken : (ofTokens tokens).current = current := first
  have later : ∃ problems, (ofTokens tokens).following = (settle current others problems).1 ∧
      (ofTokens tokens).rest = (settle current others problems).2.1 := by
    refine ⟨(settle ⟨.endOfText, [], .start⟩ tokens #[]).2.2, ?_, ?_⟩ <;>
      rw [← first, ← second] <;> rfl
  obtain ⟨problems, following, rest⟩ := later
  have lastFound : (current :: others).getLast? = some last := by
    obtain ⟨front, whole⟩ := suffix
    rw [← whole, List.getLast?_append] at found
    simpa using found
  cases others with
  | nil =>
    have lastToken : last = current := by simpa using lastFound.symm
    refine .atEnd ?_ ?_ ?_
    · rw [currentToken, ← lastToken, ended]
    · rw [following, currentToken]
      rfl
    · rw [rest]
      rfl
  | cons token tokens =>
    obtain ⟨next, remaining, nextFound, restFound, nextValid, nextSuffix⟩ :=
      settle_sound current problems (by simpa [List.getLast?_cons_cons] using lastFound) ended
    have part : (current :: next :: remaining).Sublist (current :: token :: tokens) :=
      nextSuffix.sublist.cons_cons _
    rw [nextFound] at following
    rw [restFound] at rest
    refine .inside ?_ ?_ ?_ ?_
    · rw [currentToken]
      exact valid
    · rw [following]
      exact nextValid
    · rw [currentToken, following, rest]
      exact ordered.sublist part
    · rw [following, rest]
      obtain ⟨front, whole⟩ := nextSuffix
      rw [List.getLast?_cons_cons, ← whole, List.getLast?_append] at lastFound
      exact ⟨last, by simpa using lastFound, ended⟩

end Cursor

namespace Parse

variable {α β : Type} {cursor : Cursor}

/-- A step that yields a value hands it to the next. -/
theorem run_bind_some {after : Cursor} {step : Parse α} {next : α → Parse β} {value : α}
    (found : step.run.run cursor = (some value, after)) :
    (step >>= next).run.run cursor = (next value).run.run after := by
  simp [OptionT.run_bind, Option.elimM, found]
  rfl

/-- A step that yields nothing ends the sequence. -/
theorem run_bind_none {after : Cursor} {step : Parse α} {next : α → Parse β}
    (found : step.run.run cursor = (none, after)) :
    (step >>= next).run.run cursor = (none, after) := by
  simp [OptionT.run_bind, Option.elimM, found]
  rfl

end Parse

end TinLang
