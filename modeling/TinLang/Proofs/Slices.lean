import Mathlib.Data.List.Forall2
import TinLang.Proofs.Cursor
import TinLang.Proofs.Lengths

/-!
# Stretches of a text

The scanner reads a stretch of a text that runs from one token to the end of another as it reads
the whole text: the gaps and lexemes in it do not depend on what follows them, so its tokens are
those of the text (`Scan.tokens_stretch`). Where a token is said to stop is computed from its
literal, which is the end of its text unless escapes or stray bytes of a literal in quotes are in
the way (`Scan.stop_eq_finish_iff`).
-/
namespace TinLang

variable {rest : List Glyph} {glyph : Glyph}

/-- A token is like another one, and as far behind one place as the other is behind another. -/
structure Token.Moved (left right : Nat) (token copy : Token) : Prop where
  kind : copy.kind = token.kind
  literal : copy.literal = token.literal
  offset : copy.position.offset + left = token.position.offset + right

namespace Scan

variable {budget : Nat} {position : Position} {glyphs front : List Glyph} {token : Token}
  {before middle after : List Token}

/-- What follows a gap starts with none. -/
theorem gap_drop (mode : GapMode) (glyphs : List Glyph) :
    (gap .blank (glyphs.drop (gap mode glyphs).width)).width = 0 := by
  fun_induction gap mode glyphs with
  | case1 _ _ _ _ ih | case2 _ _ _ _ _ ih | case3 _ _ _ _ _ _ ih | case8 _ _ _ ih | case9 _ _ _ ih
  | case11 _ _ _ _ ih | case12 _ _ _ _ ih => exact ih
  | case4 glyph next rest solid noLine noBlock => simp [gap, solid, noLine, noBlock]
  | case6 glyph solid => simp [gap, solid]
  | case5 | case7 | case10 | case13 | case14 => rfl

/-- A gap is found when less follows it, at least a glyph. -/
theorem gap_take {mode : GapMode} {glyphs : List Glyph} {count : Nat}
    (enough : (gap mode glyphs).width < count) :
    gap mode (glyphs.take count) = gap mode glyphs := by
  fun_induction gap mode glyphs generalizing count with
  | case1 glyph next rest space ih =>
    simp only [Gap.widen] at enough
    obtain ⟨more, rfl⟩ : ∃ more, count = more + 2 := ⟨count - 2, by omega⟩
    have inner := ih (show _ < more + 1 by omega)
    rw [List.take_succ_cons] at inner
    rw [List.take_succ_cons, List.take_succ_cons, gap, if_pos space, inner]
  | case2 glyph next rest solid opens ih =>
    simp only [Gap.widen] at enough
    obtain ⟨more, rfl⟩ : ∃ more, count = more + 2 := ⟨count - 2, by omega⟩
    rw [List.take_succ_cons, List.take_succ_cons, gap, if_neg solid, if_pos opens,
      ih (by omega)]
  | case3 glyph next rest solid noLine opens ih =>
    simp only [Gap.widen] at enough
    obtain ⟨more, rfl⟩ : ∃ more, count = more + 2 := ⟨count - 2, by omega⟩
    rw [List.take_succ_cons, List.take_succ_cons, gap, if_neg solid, if_neg noLine, if_pos opens,
      ih (by omega)]
  | case4 glyph next rest solid noLine noBlock =>
    rcases count with _ | _ | count
    · simp at enough
    · simp [gap, solid]
    · simp [gap, solid, noLine, noBlock]
  | case5 glyph space =>
    rw [List.take_of_length_le (by simp only at enough; simp; omega), gap, if_pos space]
  | case6 glyph solid =>
    rw [List.take_of_length_le (by simp only at enough; simp; omega), gap, if_neg solid]
  | case7 | case10 | case14 => rw [List.take_nil, gap]
  | case8 glyph rest ends ih =>
    simp only [Gap.widen] at enough
    obtain ⟨more, rfl⟩ : ∃ more, count = more + 1 := ⟨count - 1, by omega⟩
    rw [List.take_succ_cons, gap, if_pos ends, ih (by omega)]
  | case9 glyph rest other ih =>
    simp only [Gap.widen] at enough
    obtain ⟨more, rfl⟩ : ∃ more, count = more + 1 := ⟨count - 1, by omega⟩
    rw [List.take_succ_cons, gap, if_neg other, ih (by omega)]
  | case11 glyph next rest closes ih =>
    simp only [Gap.widen] at enough
    obtain ⟨more, rfl⟩ : ∃ more, count = more + 2 := ⟨count - 2, by omega⟩
    rw [List.take_succ_cons, List.take_succ_cons, gap, if_pos closes, ih (by omega)]
  | case12 glyph next rest open_ ih =>
    simp only [Gap.widen] at enough
    obtain ⟨more, rfl⟩ : ∃ more, count = more + 2 := ⟨count - 2, by omega⟩
    have inner := ih (show _ < more + 1 by omega)
    rw [List.take_succ_cons] at inner
    rw [List.take_succ_cons, List.take_succ_cons, gap, if_neg open_, inner]
  | case13 glyph =>
    rw [List.take_of_length_le (by simp only at enough; simp; omega), gap]

/-- A token that is neither the end of the text nor an error is a lexeme after a gap. -/
theorem tokensWithin_eq_cons (parts : tokensWithin budget position glyphs = token :: after)
    (inside : token.kind ≠ .endOfText) (valid : token.Valid) : ∃ less glyph rest,
      budget = less + 1 ∧ glyphs.drop (gap .blank glyphs).width = glyph :: rest ∧
      token = ⟨(lexeme glyph rest).kind, (lexeme glyph rest).literal,
        position.after (glyphs.take (gap .blank glyphs).width)⟩ ∧
      after = tokensWithin less ((position.after (glyphs.take (gap .blank glyphs).width)).after
        ((glyph :: rest).take (lexeme glyph rest).width))
        ((glyph :: rest).drop (lexeme glyph rest).width) := by
  cases budget with
  | zero => simp [tokensWithin] at parts
  | succ budget =>
    cases ends : glyphs.drop (gap .blank glyphs).width with
    | nil =>
      rw [tokensWithin_last ends] at parts
      exfalso
      split at parts
      · exact inside ((List.cons.inj parts).1 ▸ rfl)
      · exact valid _ (congrArg Token.kind (List.cons.inj parts).1).symm
    | cons glyph rest =>
      rw [tokensWithin_next ends] at parts
      obtain ⟨first, later⟩ := List.cons.inj parts
      exact ⟨budget, glyph, rest, rfl, rfl, first.symm, later.symm⟩

/-- The tokens from a token on are those of the text from its place on. -/
theorem tokensWithin_eq_append
    (parts : tokensWithin budget (Position.start.after front) glyphs = before ++ token :: after)
    (inside : token.kind ≠ .endOfText) (valid : token.Valid) : ∃ left glyph rest more,
      front ++ glyphs = left ++ glyph :: rest ∧
      token = ⟨(lexeme glyph rest).kind, (lexeme glyph rest).literal, Position.start.after left⟩ ∧
      tokensWithin more (Position.start.after left) (glyph :: rest) = token :: after := by
  induction before generalizing budget front glyphs with
  | nil =>
    obtain ⟨less, glyph, rest, rfl, ends, found, later⟩ := tokensWithin_eq_cons parts inside valid
    have none := gap_drop .blank glyphs
    rw [ends] at none
    have split : front ++ glyphs =
        front ++ glyphs.take (gap .blank glyphs).width ++ glyph :: rest := by
      rw [List.append_assoc, ← ends, List.take_append_drop]
    have more : (glyph :: rest).drop (gap .blank (glyph :: rest)).width = glyph :: rest := by
      rw [none, List.drop_zero]
    refine ⟨_, glyph, rest, less + 1, split, by rw [found, Position.after_append], ?_⟩
    rw [tokensWithin_next more, none, List.take_zero, later, found, Position.after_append]
    rfl
  | cons other before ih =>
    cases budget with
    | zero => simp [tokensWithin] at parts
    | succ budget =>
      cases ends : glyphs.drop (gap .blank glyphs).width with
      | nil =>
        rw [tokensWithin_last ends] at parts
        exfalso
        split at parts
        · have last := (List.cons.inj parts).2
          simp at last
        · have last := (List.cons.inj parts).2
          rcases before with _ | ⟨other, before⟩
          · exact inside ((List.cons.inj last).1 ▸ rfl)
          · have none := (List.cons.inj last).2
            simp at none
      | cons glyph rest =>
        rw [tokensWithin_next ends, ← Position.after_append, ← Position.after_append] at parts
        obtain ⟨left, first, others, more, same, found, later⟩ := ih (List.cons.inj parts).2
        refine ⟨left, first, others, more, ?_, found, later⟩
        rw [← same, List.append_assoc, List.take_append_drop, List.append_assoc, ← ends,
          List.take_append_drop]

/-- What stands up to the end of a lexeme and some glyphs further. -/
theorem take_lexeme {width : Nat}
    (more : glyphs.drop width = glyph :: rest) (taken further : Nat) :
    glyphs.take (width + taken + further) =
      glyphs.take width ++ (glyph :: rest).take taken ++
        ((glyph :: rest).drop taken).take further := by
  rw [Nat.add_assoc, List.take_add, more, List.take_add, List.append_assoc]

/-- A lexeme that is no error is read as well when less follows it. -/
theorem tokensWithin_next_take
    (more : glyphs.drop (gap .blank glyphs).width = glyph :: rest)
    (valid : (lexeme glyph rest).Valid) (further budget : Nat) (position : Position) :
    tokensWithin (budget + 1) position
        (glyphs.take ((gap .blank glyphs).width + (lexeme glyph rest).width + further)) =
      ⟨(lexeme glyph rest).kind, (lexeme glyph rest).literal,
        position.after (glyphs.take (gap .blank glyphs).width)⟩ ::
      tokensWithin budget ((position.after (glyphs.take (gap .blank glyphs).width)).after
        ((glyph :: rest).take (lexeme glyph rest).width))
        (((glyph :: rest).drop (lexeme glyph rest).width).take further) := by
  obtain ⟨wide, -, alone⟩ := local_lexeme glyph rest valid
  obtain ⟨width, extent⟩ : ∃ width, (gap .blank glyphs).width = width := ⟨_, rfl⟩
  obtain ⟨taken, size⟩ : ∃ taken, (lexeme glyph rest).width = taken := ⟨_, rfl⟩
  rw [size] at wide alone ⊢
  have same : gap .blank (glyphs.take (width + taken + further)) = gap .blank glyphs :=
    gap_take (by omega)
  have cut : lexeme glyph (rest.take (taken + further - 1)) = lexeme glyph rest :=
    alone _ (by omega)
  have front : (glyphs.take (width + taken + further)).take width = glyphs.take width := by
    rw [List.take_take, Nat.min_eq_left (by omega)]
  have drop : (glyphs.take (width + taken + further)).drop
      (gap .blank (glyphs.take (width + taken + further))).width =
        glyph :: rest.take (taken + further - 1) := by
    rw [same, List.drop_take, more, extent, Nat.add_assoc, Nat.add_sub_cancel_left,
      List.take_cons (by omega)]
  have parts : glyph :: rest.take (taken + further - 1) =
      (glyph :: rest).take (taken + further) := by
    rw [List.take_cons (by omega)]
  rw [extent, tokensWithin_next drop, same, extent, front, cut, size, parts, List.take_take,
    Nat.min_eq_left (by omega), List.drop_take, Nat.add_sub_cancel_left]

/-- Of the first glyphs of a text just some tokens are read, wherever these glyphs stand. -/
def Copied (front glyphs : List Glyph) (middle : List Token) (count : Nat) : Prop :=
  ∀ back more, count < more → ∃ copies stop,
    tokensWithin more (Position.start.after back) (glyphs.take count) =
      copies ++ [⟨.endOfText, [], stop⟩] ∧
    List.Forall₂ (Token.Moved (written front).length (written back).length) middle copies

/-- Copying nothing leaves nothing. -/
theorem copied_nil : Copied front glyphs [] 0 := by
  intro back more enough
  obtain ⟨more, rfl⟩ : ∃ less, more = less + 1 := ⟨more - 1, by omega⟩
  exact ⟨[], _, rfl, .nil⟩

/-- A lexeme that is no error comes before what is read after it. -/
theorem Copied.cons {count : Nat}
    (more : glyphs.drop (gap .blank glyphs).width = glyph :: rest)
    (valid : (lexeme glyph rest).Valid)
    (found : token = ⟨(lexeme glyph rest).kind, (lexeme glyph rest).literal,
      (Position.start.after front).after (glyphs.take (gap .blank glyphs).width)⟩)
    (copied : Copied (front ++ (glyphs.take (gap .blank glyphs).width ++
        (glyph :: rest).take (lexeme glyph rest).width))
      ((glyph :: rest).drop (lexeme glyph rest).width) middle count) :
    Copied front glyphs (token :: middle)
      ((gap .blank glyphs).width + (lexeme glyph rest).width + count) := by
  intro back budget enough
  obtain ⟨wide, -, -⟩ := local_lexeme glyph rest valid
  obtain ⟨budget, rfl⟩ : ∃ less, budget = less + 1 := ⟨budget - 1, by omega⟩
  have moved : Token.Moved (written front).length (written back).length token
      ⟨(lexeme glyph rest).kind, (lexeme glyph rest).literal,
        (Position.start.after back).after (glyphs.take (gap .blank glyphs).width)⟩ := by
    refine ⟨by rw [found], by rw [found], ?_⟩
    rw [found, ← Position.after_append, ← Position.after_append, offset_after_append,
      offset_after_append]
    omega
  obtain ⟨copies, stop, run, each⟩ := copied (back ++ (glyphs.take (gap .blank glyphs).width ++
    (glyph :: rest).take (lexeme glyph rest).width)) budget (by omega)
  refine ⟨_ :: copies, stop, ?_, .cons moved (each.imp fun other copy alike => ?_)⟩
  · rw [tokensWithin_next_take more valid count budget, List.cons_append, ← run]
    simp only [Position.after_append]
  · have offset := alike.offset
    simp only [written_append, List.length_append] at offset
    exact ⟨alike.kind, alike.literal, by omega⟩

/-- Where some tokens are read, they are read of the text up to the end of the last, too. -/
theorem tokensWithin_take
    (parts : tokensWithin budget (Position.start.after front) glyphs = middle ++ after)
    (some : middle ≠ []) (genuine : ∀ token ∈ middle, token.kind ≠ .endOfText ∧ token.Valid) :
    ∃ count left glyph rest, 0 < count ∧ count ≤ glyphs.length ∧
      front ++ glyphs = left ++ glyph :: rest ∧
      middle.getLast? = Option.some ⟨(lexeme glyph rest).kind, (lexeme glyph rest).literal,
        Position.start.after left⟩ ∧
      front ++ glyphs.take count = left ++ (glyph :: rest).take (lexeme glyph rest).width ∧
      Copied front glyphs middle count := by
  induction middle generalizing budget front glyphs with
  | nil => exact absurd rfl some
  | cons token middle ih =>
    obtain ⟨inside, valid⟩ := genuine token List.mem_cons_self
    obtain ⟨less, glyph, rest, rfl, ends, found, later⟩ := tokensWithin_eq_cons parts inside valid
    have valid : (lexeme glyph rest).Valid := by
      rw [found] at valid
      exact valid
    obtain ⟨wide, short, -⟩ := local_lexeme glyph rest valid
    have length := congrArg List.length ends
    rw [List.length_drop, List.length_cons] at length
    have cut := take_lexeme ends (lexeme glyph rest).width
    have whole : front ++ glyphs =
        front ++ glyphs.take (gap .blank glyphs).width ++ glyph :: rest := by
      rw [List.append_assoc, ← ends, List.take_append_drop]
    by_cases last : middle = []
    · subst last
      refine ⟨(gap .blank glyphs).width + (lexeme glyph rest).width + 0, _, glyph, rest, by omega,
        by omega, whole, by rw [found, Position.after_append]; rfl, ?_,
        .cons ends valid found copied_nil⟩
      rw [cut 0, List.take_zero, List.append_nil, ← List.append_assoc]
    · rw [← Position.after_append, ← Position.after_append] at later
      obtain ⟨count, left, glyph', rest', -, few, same, final, stretch, copied⟩ :=
        ih later.symm last fun other mem => genuine other (List.mem_cons_of_mem _ mem)
      refine ⟨(gap .blank glyphs).width + (lexeme glyph rest).width + count, left, glyph', rest',
        by omega, ?_, ?_, ?_, ?_, .cons ends valid found copied⟩
      · rw [List.length_drop, List.length_cons] at few
        omega
      · rw [← same, whole]
        simp only [List.append_assoc, List.take_append_drop]
      · rw [List.getLast?_cons, final]
        rfl
      · rw [cut count, ← stretch]
        simp only [List.append_assoc]

end Scan

namespace Token

/-- The text that a token takes up in a source: that of the lexeme at its place. -/
def raw (source : Text) (token : Token) : Text :=
  match Text.glyphs (source.drop token.position.offset) with
  | [] => []
  | glyph :: rest => Scan.written ((glyph :: rest).take (Scan.lexeme glyph rest).width)

/-- The byte offset just past the text of a token. -/
def finish (source : Text) (token : Token) : Nat :=
  token.position.offset + (token.raw source).length

/-- The literal of a token is as long as its text without quotes: in quotes there are twice as many
escapes as stray bytes. -/
def TrueLength (source : Text) (token : Token) : Prop :=
  token.kind = .string ∨ token.kind = .character →
    Scan.escapes (token.raw source).glyphs = 2 * Scan.strays (token.raw source).glyphs

end Token

namespace Scan

variable {source : Text} {first last token : Token} {before middle after : List Token}

/-- A token that is neither the end of the text nor an error is the lexeme at its place. -/
theorem lexeme_of_mem (mem : token ∈ tokens source) (inside : token.kind ≠ .endOfText)
    (valid : token.Valid) : ∃ left glyph rest, source.glyphs = left ++ glyph :: rest ∧
      token = ⟨(lexeme glyph rest).kind, (lexeme glyph rest).literal,
        Position.start.after left⟩ := by
  obtain ⟨before, after, parts⟩ := List.append_of_mem mem
  have scanned : tokensWithin (source.glyphs.length + 1) (Position.start.after []) source.glyphs =
      before ++ token :: after := parts
  obtain ⟨left, glyph, rest, -, split, found, -⟩ := tokensWithin_eq_append scanned inside valid
  exact ⟨left, glyph, rest, split, found⟩

/-- The text of a token is the one of the lexeme at its place. -/
theorem raw_eq {left : List Glyph} (legible : Legible (left ++ glyph :: rest))
    (kind : TokenKind) (literal : Text) :
    Token.raw (written (left ++ glyph :: rest)) ⟨kind, literal, Position.start.after left⟩ =
      written ((glyph :: rest).take (lexeme glyph rest).width) := by
  have own : Text.glyphs (written (glyph :: rest)) = glyph :: rest := legible.of_append.2
  simp only [Token.raw, offset_after_start]
  rw [written_append, List.drop_left, own]

/-- The text of a token has the glyphs of its lexeme. -/
theorem glyphs_raw {left : List Glyph}
    (legible : Legible (left ++ glyph :: rest)) (kind : TokenKind) (literal : Text) :
    Text.glyphs (Token.raw (written (left ++ glyph :: rest))
        ⟨kind, literal, Position.start.after left⟩) =
      (glyph :: rest).take (lexeme glyph rest).width := by
  rw [raw_eq legible]
  exact legible.of_append.2.take _

/-- A token stops where its text ends exactly if its literal has the length of its text. -/
theorem stop_eq_finish_iff (mem : token ∈ tokens source) (inside : token.kind ≠ .endOfText)
    (valid : token.Valid) :
    token.stop.offset = token.finish source ↔ token.TrueLength source := by
  obtain ⟨left, glyph, rest, split, rfl⟩ := lexeme_of_mem mem inside valid
  have legible := legible_glyphs source
  have whole : written source.glyphs = source := Text.flatMap_glyphs source
  rw [split] at legible whole
  have measured := measured_lexeme legible.of_append.2 valid
  rw [Token.finish, Token.TrueLength, ← whole, glyphs_raw legible, raw_eq legible]
  split at measured
  next quoted =>
    have stop : Token.stop ⟨(lexeme glyph rest).kind, (lexeme glyph rest).literal,
        Position.start.after left⟩ =
          (Position.start.after left).shift ((lexeme glyph rest).literal.length + 2) := by
      rcases quoted with kind | kind <;> rw [Token.stop, kind]
    rw [stop, Position.shift]
    simp only [quoted, true_imp_iff]
    omega
  next unquoted =>
    have stop : Token.stop ⟨(lexeme glyph rest).kind, (lexeme glyph rest).literal,
        Position.start.after left⟩ =
          (Position.start.after left).shift (lexeme glyph rest).literal.length := by
      unfold Token.stop
      split
      · next kind => exact absurd (.inl kind) unquoted
      · next kind => exact absurd (.inr kind) unquoted
      · rfl
    rw [stop, Position.shift]
    simp only [unquoted, false_imp_iff, iff_true]
    omega

/-- The stretch of a source from the place of a token to the end of the text of one at or after it
is read as just the tokens from the one to the other. -/
theorem tokens_stretch (parts : tokens source = before ++ middle ++ after)
    (head : middle.head? = some first) (final : middle.getLast? = some last)
    (genuine : ∀ token ∈ middle, token.kind ≠ .endOfText ∧ token.Valid) :
    first.position.offset < last.finish source ∧ last.finish source ≤ source.length ∧
      ∃ copies stop, tokens ((source.drop first.position.offset).take
          (last.finish source - first.position.offset)) = copies ++ [⟨.endOfText, [], stop⟩] ∧
        List.Forall₂ (Token.Moved first.position.offset 0) middle copies := by
  obtain ⟨others, rfl⟩ := List.head?_eq_some_iff.mp head
  have legible := legible_glyphs source
  have whole : written source.glyphs = source := Text.flatMap_glyphs source
  obtain ⟨inside, valid⟩ := genuine first List.mem_cons_self
  rw [List.append_assoc, List.cons_append] at parts
  have scanned : tokensWithin (source.glyphs.length + 1) (Position.start.after []) source.glyphs =
      before ++ first :: (others ++ after) := parts
  obtain ⟨left, glyph, rest, more, split, found, onwards⟩ :=
    tokensWithin_eq_append scanned inside valid
  rw [List.nil_append] at split
  obtain ⟨count, back, glyph', rest', wide, few, same, ends, stretch, copied⟩ :=
    tokensWithin_take onwards (List.cons_ne_nil _ _) genuine
  rw [split] at legible whole
  obtain rfl := Option.some.inj (final.symm.trans ends)
  have place : first.position.offset = (written left).length := by
    rw [found]
    exact offset_after_start left
  have finish : Token.finish source ⟨(lexeme glyph' rest').kind, (lexeme glyph' rest').literal,
      Position.start.after back⟩ =
        (written left).length + (written ((glyph :: rest).take count)).length := by
    rw [Token.finish, ← whole, same, raw_eq (same ▸ legible), offset_after_start,
      ← List.length_append, ← List.length_append, ← written_append, ← written_append, stretch]
  have both : written (glyph :: rest) =
      written ((glyph :: rest).take count) ++ written ((glyph :: rest).drop count) := by
    rw [← written_append, List.take_append_drop]
  have cut : (source.drop (written left).length).take
      (written ((glyph :: rest).take count)).length = written ((glyph :: rest).take count) := by
    rw [← whole, written_append, List.drop_left, both, List.take_left]
  obtain ⟨copies, stop, run, each⟩ :=
    copied [] (((glyph :: rest).take count).length + 1) (by rw [List.length_take]; omega)
  have own := legible.of_append.2.take count
  rw [finish, place]
  refine ⟨?_, ?_, copies, stop, ?_, each⟩
  · have bytes := length_le_written own
    rw [List.length_take] at bytes
    omega
  · rw [← whole, written_append, both, List.length_append, List.length_append]
    omega
  · rw [Nat.add_sub_cancel_left, cut, tokens, own]
    exact run

end Scan

end TinLang
