import Mathlib.Data.List.DropRight
import TinLang.Proofs.Lexemes

/-!
# Tokens and the text they are written in

A text is gaps and lexemes in turn. Every token says the line and the column of its place, counted
from the bytes before it, and when no token is an error nothing of the text is lost: `Laid` puts
the gaps and the texts of the tokens together again, where a gap is blanks and whole comments and
the text of a token is scanned alone as that token (`Scan.exact_tokens`).
-/
namespace TinLang

namespace Text

/-- The line of a place: one more than the line ends before it. -/
def lineAt (text : Text) (offset : Nat) : Nat := 1 + (text.take offset).count (byte '\n')

/-- The column of a place: one more than the glyphs since the last line end before it. -/
def columnAt (text : Text) (offset : Nat) : Nat :=
  1 + width ((text.take offset).rtakeWhile (· != byte '\n'))

end Text

namespace Glyph

/-- The bytes of a code point hold a line end only when it is one. -/
theorem code_of_newline {code : Nat} (mem : Text.byte '\n' ∈ encode code) : code = 10 := by
  have newline : (Text.byte '\n').toNat = 10 := rfl
  have high : ∀ number, 128 ≤ number → number < 256 → Text.byte '\n' ≠ number.toUInt8 := by
    intro number low high same
    have value := congrArg UInt8.toNat same
    rw [Nat.toUInt8, UInt8.toNat_ofNat'] at value
    omega
  unfold encode at mem
  split at mem
  next ascii =>
    have value := congrArg UInt8.toNat (List.mem_singleton.mp mem)
    rw [Nat.toUInt8, UInt8.toNat_ofNat'] at value
    omega
  exfalso
  split at mem
  · rcases List.mem_pair.mp mem with same | same <;>
      exact high _ (by omega) (by omega) same
  split at mem
  · exact absurd mem (by decide)
  simp only [List.mem_cons, List.not_mem_nil, or_false, apply_ite (Text.byte '\n' ∈ ·)] at mem
  split at mem
  · rcases mem with same | same | same <;> exact high _ (by omega) (by omega) same
  · rcases mem with same | same | same | same <;> exact high _ (by omega) (by omega) same

/-- A front glyph is a line end or holds none. -/
theorem newline_first (lead : UInt8) (rest : Text) :
    if (first lead rest).is '\n' then (first lead rest).bytes = [Text.byte '\n']
    else ∀ byte ∈ (first lead rest).bytes, byte ≠ Text.byte '\n' := by
  split
  next newline =>
    have code : (first lead rest).code = 10 := by simpa [Glyph.is] using newline
    rw [plain_first lead rest (by omega), code]
    rfl
  next other =>
    intro byte mem same
    subst same
    apply other
    cases found : wellFormed? lead rest with
    | some glyph =>
      have same : first lead rest = glyph := by rw [first, found, Option.getD_some]
      rw [same, ← encode_of_wellFormed? found] at mem
      rw [same, Glyph.is, code_of_newline mem]
      rfl
    | none =>
      have stray : first lead rest = stray lead := by rw [first, found, Option.getD_none]
      rw [stray] at mem
      obtain rfl := List.mem_singleton.mp mem
      simp [wellFormed?, Text.byte] at found

end Glyph

namespace Scan

variable {glyph : Glyph} {glyphs : List Glyph}

/-- A legible glyph is a line end or holds none. -/
theorem Legible.newline (legible : Legible glyphs) (mem : glyph ∈ glyphs) :
    if glyph.is '\n' then glyph.bytes = [Text.byte '\n']
    else ∀ byte ∈ glyph.bytes, byte ≠ Text.byte '\n' := by
  obtain ⟨before, after, rfl⟩ := List.append_of_mem mem
  obtain ⟨-, lead, tail, -, front⟩ := legible.of_append.2.of_cons
  rw [← front]
  exact Glyph.newline_first _ _

/-- Bytes without a line end continue the last line. -/
theorem rtakeWhile_append {bytes : Text} (before : Text)
    (free : ∀ byte ∈ bytes, byte ≠ Text.byte '\n') :
    (before ++ bytes).rtakeWhile (· != Text.byte '\n') =
      before.rtakeWhile (· != Text.byte '\n') ++ bytes := by
  induction bytes using List.reverseRecOn with
  | nil => simp
  | append_singleton bytes last ih =>
    have other : (last != Text.byte '\n') = true := by
      simpa using free last (List.mem_append_right _ (List.mem_singleton_self last))
    rw [← List.append_assoc, List.rtakeWhile_concat_pos (· != Text.byte '\n') _ _ other,
      ih fun byte mem => free byte (List.mem_append_left _ mem), List.append_assoc]

/-- The line and the column after legible glyphs, and the bytes of the last line. -/
theorem Legible.after_line (legible : Legible glyphs) :
    (Position.start.after glyphs).line = 1 + (written glyphs).count (Text.byte '\n') ∧
      (Position.start.after glyphs).column = 1 + (glyphs.rtakeWhile (fun other : Glyph =>
        !other.is '\n')).length ∧
      (written glyphs).rtakeWhile (· != Text.byte '\n') =
        written (glyphs.rtakeWhile (fun other : Glyph => !other.is '\n')) := by
  induction glyphs using List.reverseRecOn with
  | nil => simp [written, Position.after, Position.start]
  | append_singleton glyphs glyph ih =>
    obtain ⟨line, column, tail⟩ := ih legible.of_append.1
    have newline := legible.newline (List.mem_append_right _ (List.mem_singleton_self glyph))
    have whole : written (glyphs ++ [glyph]) = written glyphs ++ glyph.bytes := by
      simp [written]
    have next : Position.start.after (glyphs ++ [glyph]) =
        (Position.start.after glyphs).next glyph := Position.after_append _ _ _
    rw [whole, next, List.count_append]
    by_cases ends : glyph.is '\n'
    · rw [if_pos ends] at newline
      rw [newline, List.rtakeWhile_concat_neg (· != Text.byte '\n') _ _ (by simp),
        List.rtakeWhile_concat_neg (fun other : Glyph => !other.is '\n') _ _ (by simp [ends])]
      simp only [Position.next, ends, ↓reduceIte, line]
      exact ⟨by simp; omega, rfl, rfl⟩
    · rw [if_neg ends] at newline
      have none : glyph.bytes.count (Text.byte '\n') = 0 :=
        List.count_eq_zero.mpr fun mem => newline _ mem rfl
      rw [rtakeWhile_append _ newline, tail, none,
        List.rtakeWhile_concat_pos (fun other : Glyph => !other.is '\n') _ _ (by simp [ends])]
      simp only [Position.next, ends, Bool.false_eq_true, ↓reduceIte, line, column]
      exact ⟨rfl, by simp; omega, by simp [written]⟩

/-- The place after legible glyphs at the start of a text, from the bytes of these glyphs. -/
theorem Legible.after (legible : Legible glyphs) : Position.start.after glyphs =
    ⟨(written glyphs).length, 1 + (written glyphs).count (Text.byte '\n'),
      1 + Text.width ((written glyphs).rtakeWhile (· != Text.byte '\n'))⟩ := by
  have offset : (Position.start.after glyphs).offset = (written glyphs).length := by
    rw [Position.offset_after, Position.start, Nat.zero_add]
    rfl
  obtain ⟨line, column, tail⟩ := legible.after_line
  obtain ⟨before, whole⟩ := List.rtakeWhile_suffix (fun other : Glyph => !other.is '\n') glyphs
  have last : Legible (glyphs.rtakeWhile (fun other : Glyph => !other.is '\n')) := by
    rw [← whole] at legible
    exact legible.of_append.2
  rw [tail, Text.width, last, ← offset, ← line, ← column]

/-- Blanks and whole comments. A line comment ends with its line, or with the text where the gap
does so (`ends`); a block comment ends with the first star before a slash. -/
inductive Blank (ends : Bool) : List Glyph → Prop where
  | nothing : Blank ends []
  | space {glyph : Glyph} {rest : List Glyph} (space : glyph.isSpace) (later : Blank ends rest) :
    Blank ends (glyph :: rest)
  | line {first second last : Glyph} {body rest : List Glyph} (first_is : first.is '/')
    (second_is : second.is '/') (body_is : ∀ glyph ∈ body, glyph.is '\n' = false)
    (last_is : last.is '\n') (later : Blank ends rest) :
    Blank ends (first :: second :: (body ++ last :: rest))
  | block {first second star slash : Glyph} {body rest : List Glyph} (first_is : first.is '/')
    (second_is : second.is '*')
    (body_is : body.IsChain fun star slash => (star.is '*' && slash.is '/') = false)
    (star_is : star.is '*') (slash_is : slash.is '/') (later : Blank ends rest) :
    Blank ends (first :: second :: (body ++ star :: slash :: rest))
  | lastLine {first second : Glyph} {body : List Glyph} (last : ends = true)
    (first_is : first.is '/') (second_is : second.is '/')
    (body_is : ∀ glyph ∈ body, glyph.is '\n' = false) : Blank ends (first :: second :: body)

/-- What a gap holds from some place on, when it is in the middle of blanks or of a comment. -/
def Fills (ends : Bool) : GapMode → List Glyph → Prop
  | .blank, glyphs => Blank ends glyphs
  | .lineComment, glyphs => ∃ body, (∀ glyph ∈ body, glyph.is '\n' = false) ∧
    ((∃ last rest, glyphs = body ++ last :: rest ∧ last.is '\n' ∧ Blank ends rest) ∨
      (glyphs = body ∧ ends = true))
  | .blockComment, glyphs => ∃ body star slash rest, glyphs = body ++ star :: slash :: rest ∧
    body.IsChain (fun star slash => (star.is '*' && slash.is '/') = false) ∧ star.is '*' ∧
      slash.is '/' ∧ Blank ends rest

/-- The glyphs of a gap whose comments are closed are blanks and whole comments. -/
theorem fills_gap {mode : GapMode} {glyphs : List Glyph} {ends : Bool}
    (closed : (gap mode glyphs).closed)
    (last : glyphs.drop (gap mode glyphs).width = [] → ends = true) :
    Fills ends mode (glyphs.take (gap mode glyphs).width) := by
  fun_induction gap mode glyphs with
  | case1 glyph next rest space ih => exact .space space (ih closed last)
  | case2 glyph next rest solid opens ih =>
    obtain ⟨first_is, second_is⟩ := (Bool.and_eq_true _ _).mp opens
    obtain ⟨body, body_is, ⟨ending, later, whole, last_is, blank⟩ | ⟨whole, last⟩⟩ := ih closed last
    · have found := Blank.line first_is second_is body_is last_is blank
      rw [← whole] at found
      exact found
    · exact .lastLine last first_is second_is (by rwa [whole])
  | case3 glyph next rest solid noLine opens ih =>
    obtain ⟨first_is, second_is⟩ := (Bool.and_eq_true _ _).mp opens
    obtain ⟨body, star, slash, later, whole, body_is, star_is, slash_is, blank⟩ := ih closed last
    have found := Blank.block first_is second_is body_is star_is slash_is blank
    rw [← whole] at found
    exact found
  | case4 | case6 | case7 => exact .nothing
  | case5 glyph space => exact .space space .nothing
  | case8 glyph rest ends_is ih =>
    exact ⟨[], by simp, .inl ⟨glyph, _, rfl, ends_is, ih closed last⟩⟩
  | case9 glyph rest other ih =>
    obtain ⟨body, body_is, found⟩ := ih closed last
    refine ⟨glyph :: body, List.forall_mem_cons.mpr ⟨by simpa using other, body_is⟩, ?_⟩
    rcases found with ⟨ending, later, whole, last_is, blank⟩ | ⟨whole, last⟩
    · exact .inl ⟨ending, later, congrArg (glyph :: ·) whole, last_is, blank⟩
    · exact .inr ⟨congrArg (glyph :: ·) whole, last⟩
  | case10 => exact ⟨[], by simp, .inr ⟨rfl, last rfl⟩⟩
  | case11 glyph next rest closes ih =>
    obtain ⟨star_is, slash_is⟩ := (Bool.and_eq_true _ _).mp closes
    exact ⟨[], glyph, next, _, rfl, .nil, star_is, slash_is, ih closed last⟩
  | case12 glyph next rest open_ ih =>
    obtain ⟨body, star, slash, later, whole, body_is, star_is, slash_is, blank⟩ := ih closed last
    refine ⟨glyph :: body, star, slash, later, congrArg (glyph :: ·) whole, ?_, star_is, slash_is,
      blank⟩
    cases body with
    | nil => exact .singleton _
    | cons first body =>
      have same : first = next := by
        cases width : (gap .blockComment (next :: rest)).width with
        | zero => simp [width] at whole
        | succ count =>
          rw [width, List.take_succ_cons] at whole
          exact (List.cons.inj whole).1.symm
      exact .cons_cons (by simpa [same] using open_) body_is
  | case13 | case14 => contradiction

/-- Only at the end of the text a gap is open. -/
theorem closed_gap {mode : GapMode} {glyphs : List Glyph}
    (more : glyphs.drop (gap mode glyphs).width ≠ []) : (gap mode glyphs).closed := by
  fun_induction gap mode glyphs with
  | case1 _ _ _ _ ih | case2 _ _ _ _ _ ih | case3 _ _ _ _ _ _ ih | case8 _ _ _ ih | case9 _ _ _ ih
  | case11 _ _ _ _ ih | case12 _ _ _ _ ih => exact ih more
  | case4 | case5 | case6 | case7 | case10 => rfl
  | case13 | case14 => exact absurd rfl more

/-- A text is scanned alone as a token, and is its literal unless that is the value of a literal in
quotes. -/
structure Spells (raw : Text) (token : Token) : Prop where
  alone : ∃ stop, tokens raw = [⟨token.kind, token.literal, .start⟩, ⟨.endOfText, [], stop⟩]
  literal : token.kind ≠ .string → token.kind ≠ .character → token.literal = raw

/-- Tokens are laid out in a text, some way into a source: a gap before each, the end of the text
after the last gap. -/
inductive Laid : (offset : Nat) → Text → List Token → Prop where
  | last {offset : Nat} {gap : Text} {token : Token} (blank : Blank true gap.glyphs)
    (kind : token.kind = .endOfText) (literal : token.literal = [])
    (place : token.position.offset = offset + gap.length) : Laid offset gap [token]
  | next {offset : Nat} {gap raw rest : Text} {token : Token} {tokens : List Token}
    (blank : Blank false gap.glyphs) (spells : Spells raw token)
    (place : token.position.offset = offset + gap.length)
    (later : Laid (offset + gap.length + raw.length) rest tokens) :
    Laid offset (gap ++ raw ++ rest) (token :: tokens)

/-- What the tokens of a source say about it. -/
structure Exact (source : Text) (tokens : List Token) : Prop where
  /-- One token ends the text, at its end, and is the last. -/
  ended : ∃ before last, tokens = before ++ [last] ∧ last.kind = .endOfText ∧
    last.position.offset = source.length ∧ ∀ token ∈ before, token.kind ≠ .endOfText
  few : tokens.length ≤ source.length + 1
  /-- Every token is on the line and in the column of its offset. -/
  placed : ∀ token ∈ tokens, token.position.line = source.lineAt token.position.offset ∧
    token.position.column = source.columnAt token.position.offset
  /-- Offsets do not decrease, and grow up to the token before the last. -/
  ordered : tokens.Pairwise fun earlier later => earlier.position.offset ≤ later.position.offset
  strictly : tokens.dropLast.Pairwise fun earlier later =>
    earlier.position.offset < later.position.offset
  /-- Without an error the source is its gaps and its tokens. -/
  laid : (∀ token ∈ tokens, ∀ cause, token.kind ≠ .error cause) → Laid 0 source tokens

section Steps

variable {budget : Nat} {position : Position}

/-- Where a gap takes up all that is left, the text ends, after an error if the gap is open. -/
theorem tokensWithin_last (ends : glyphs.drop (gap .blank glyphs).width = []) :
    tokensWithin (budget + 1) position glyphs =
      if (gap .blank glyphs).closed then [⟨.endOfText, [], position.after glyphs⟩]
      else [⟨.error .unterminatedComment, LexicalError.unterminatedComment.message,
        position.after glyphs⟩, ⟨.endOfText, [], position.after glyphs⟩] := by
  have whole : glyphs.take (gap .blank glyphs).width = glyphs :=
    List.take_of_length_le (List.drop_eq_nil_iff.mp ends)
  simp only [tokensWithin, ends, whole]

/-- Otherwise a lexeme follows the gap. -/
theorem tokensWithin_next {rest : List Glyph}
    (more : glyphs.drop (gap .blank glyphs).width = glyph :: rest) :
    tokensWithin (budget + 1) position glyphs =
      ⟨(lexeme glyph rest).kind, (lexeme glyph rest).literal,
        position.after (glyphs.take (gap .blank glyphs).width)⟩ ::
      tokensWithin budget ((position.after (glyphs.take (gap .blank glyphs).width)).after
        ((glyph :: rest).take (lexeme glyph rest).width))
        ((glyph :: rest).drop (lexeme glyph rest).width) := by
  simp only [tokensWithin, more]

end Steps

/-- A lexeme that is no error is spelled by the bytes that it takes up. -/
theorem spells_lexeme {rest : List Glyph} (legible : Legible (glyph :: rest))
    (valid : (lexeme glyph rest).Valid) (position : Position) :
    Spells (written ((glyph :: rest).take (lexeme glyph rest).width))
      ⟨(lexeme glyph rest).kind, (lexeme glyph rest).literal, position⟩ := by
  constructor
  case literal => exact literally_lexeme (fun other mem => (legible.sound other mem).1) valid
  case alone =>
    obtain ⟨wide, short, alone⟩ := local_lexeme glyph rest valid
    have solid := gap_of_valid valid
    obtain ⟨width, same⟩ : ∃ width, (lexeme glyph rest).width = width + 1 :=
      ⟨_, (Nat.sub_add_cancel wide).symm⟩
    have cut := legible.take (width + 1)
    have alone := alone width (by omega)
    rw [same, Nat.add_sub_cancel] at solid
    rw [List.take_succ_cons] at cut
    have count : (glyph :: rest.take width).length = width + 1 := by
      rw [List.length_cons, List.length_take]
      omega
    have more : (glyph :: rest.take width).drop (gap .blank (glyph :: rest.take width)).width =
        glyph :: rest.take width := by rw [solid, List.drop_zero]
    have done : (glyph :: rest.take width).drop (width + 1) = [] :=
      List.drop_eq_nil_iff.mpr (Nat.le_of_eq count)
    refine ⟨Position.start.after (glyph :: rest.take width), ?_⟩
    rw [same, List.take_succ_cons, tokens, cut, count, tokensWithin_next more, alone, same, done,
      tokensWithin_last (by simp), solid, List.take_of_length_le (Nat.le_of_eq count)]
    rfl

/-- What the tokens from a place on say about the glyphs before and after it. -/
structure Course (front glyphs : List Glyph) (tokens : List Token) : Prop where
  ended : ∃ before last, tokens = before ++ [last] ∧ last.kind = .endOfText ∧
    last.position.offset = (written (front ++ glyphs)).length ∧
    ∀ token ∈ before, token.kind ≠ .endOfText
  few : tokens.length ≤ glyphs.length + 1
  placed : ∀ token ∈ tokens, ∃ count,
    token.position = Position.start.after ((front ++ glyphs).take count)
  after : ∀ token ∈ tokens, (written front).length ≤ token.position.offset
  ordered : tokens.Pairwise fun earlier later => earlier.position.offset ≤ later.position.offset
  strictly : tokens.dropLast.Pairwise fun earlier later =>
    earlier.position.offset < later.position.offset
  laid : (∀ token ∈ tokens, ∀ cause, token.kind ≠ .error cause) →
    Laid (written front).length (written glyphs) tokens

variable {front : List Glyph}

/-- Every legible glyph has a byte. -/
theorem length_le_written (legible : Legible glyphs) :
    glyphs.length ≤ (written glyphs).length := by
  have solid : ∀ glyph ∈ glyphs, 1 ≤ glyph.bytes.length := fun glyph mem =>
    List.length_pos_iff.mpr (legible.sound glyph mem).2
  clear legible
  induction glyphs with
  | nil => exact Nat.le_refl 0
  | cons glyph glyphs ih =>
    have first := solid glyph List.mem_cons_self
    have others := ih fun other mem => solid other (List.mem_cons_of_mem _ mem)
    rw [written, List.flatMap_cons, List.length_append, List.length_cons, ← written]
    omega

/-- Glyphs from the start move the offset by their bytes. -/
theorem offset_after_start (glyphs : List Glyph) :
    (Position.start.after glyphs).offset = (written glyphs).length := by
  rw [Position.offset_after, Position.start, Nat.zero_add]
  rfl

/-- Offsets add up along a source. -/
theorem offset_after_append (left right : List Glyph) :
    (Position.start.after (left ++ right)).offset =
      (written left).length + (written right).length := by
  rw [offset_after_start, written_append, List.length_append]

/-- The place after all glyphs is the place after some of them. -/
theorem placed_last (glyphs : List Glyph) :
    ∃ count, Position.start.after glyphs = Position.start.after (glyphs.take count) :=
  ⟨glyphs.length, by rw [List.take_length]⟩

/-- At the end of the text, after a gap. -/
theorem course_last (legible : Legible glyphs) (blank : Blank true glyphs) :
    Course front glyphs [⟨.endOfText, [], Position.start.after (front ++ glyphs)⟩] where
  ended := ⟨[], _, rfl, rfl, offset_after_start _, fun _ mem => absurd mem List.not_mem_nil⟩
  few := Nat.le_add_left _ _
  placed := List.forall_mem_singleton.mpr (placed_last _)
  after := List.forall_mem_singleton.mpr (offset_after_append _ _ ▸ Nat.le_add_right _ _)
  ordered := List.pairwise_singleton _ _
  strictly := List.Pairwise.nil
  laid _ := .last (by rwa [legible]) rfl rfl (offset_after_append _ _)

/-- At the end of the text, in the middle of a comment. -/
theorem course_open {message : Text} (some : glyphs ≠ []) : Course front glyphs
    [⟨.error .unterminatedComment, message, Position.start.after (front ++ glyphs)⟩,
      ⟨.endOfText, [], Position.start.after (front ++ glyphs)⟩] where
  ended := ⟨[_], _, rfl, rfl, offset_after_start _, List.forall_mem_singleton.mpr nofun⟩
  few := Nat.succ_le_succ (List.length_pos_iff.mpr some)
  placed := List.forall_mem_cons.mpr
    ⟨placed_last _, List.forall_mem_singleton.mpr (placed_last _)⟩
  after := by
    have past := Nat.le_add_right (written front).length (written glyphs).length
    rw [← offset_after_append] at past
    exact List.forall_mem_cons.mpr ⟨past, List.forall_mem_singleton.mpr past⟩
  ordered := List.pairwise_pair.mpr (Nat.le_refl _)
  strictly := List.pairwise_singleton _ _
  laid valid := absurd rfl (valid _ List.mem_cons_self _)

/-- A gap and a lexeme in front of other tokens. -/
theorem Course.cons {gap taken rest : List Glyph} {token : Token} {tokens : List Token}
    (split : glyphs = gap ++ (taken ++ rest)) (legible : Legible (front ++ glyphs))
    (some : taken ≠ [])
    (place : token.position = Position.start.after (front ++ gap)) (kind : token.kind ≠ .endOfText)
    (blank : Blank false gap)
    (spells : (∀ cause, token.kind ≠ .error cause) → Spells (written taken) token)
    (later : Course (front ++ gap ++ taken) rest tokens) :
    Course front glyphs (token :: tokens) := by
  subst split
  have parts : front ++ (gap ++ (taken ++ rest)) = front ++ gap ++ taken ++ rest := by simp
  have offset : token.position.offset = (written front).length + (written gap).length := by
    rw [place, offset_after_append]
  have wide := List.length_pos_iff.mpr some
  have solid := length_le_written legible.of_append.2.of_append.2.of_append.1
  have before : ∀ other ∈ tokens, token.position.offset < other.position.offset := by
    intro other mem
    have past := later.after other mem
    simp only [written_append, List.length_append] at past
    omega
  obtain ⟨others, last, split, ends, at_, inside⟩ := later.ended
  constructor
  case ended =>
    exact ⟨token :: others, last, by rw [split, List.cons_append], ends, by rw [parts, at_],
      List.forall_mem_cons.mpr ⟨kind, inside⟩⟩
  case few =>
    have few := later.few
    simp only [List.length_cons, List.length_append]
    omega
  case placed =>
    refine List.forall_mem_cons.mpr ⟨⟨(front ++ gap).length, ?_⟩, ?_⟩
    · rw [← List.append_assoc, List.take_left]
      exact place
    · rw [parts]
      exact later.placed
  case after =>
    refine List.forall_mem_cons.mpr ⟨by omega, fun other mem => ?_⟩
    have past := before other mem
    omega
  case ordered =>
    exact List.pairwise_cons.mpr ⟨fun other mem => (before other mem).le, later.ordered⟩
  case strictly =>
    rw [List.dropLast_cons_of_ne_nil (by rw [split]; simp)]
    exact List.pairwise_cons.mpr ⟨fun other mem => before other (List.dropLast_subset _ mem),
      later.strictly⟩
  case laid =>
    intro valid
    obtain ⟨first, others⟩ := List.forall_mem_cons.mp valid
    have rest := later.laid others
    rw [written_append, written_append, ← List.append_assoc]
    refine .next ?_ (spells first) offset ?_
    · rw [legible.of_append.2.of_append.1]
      exact blank
    · simpa only [written_append, List.length_append] using rest

/-- The tokens from a place on are as they should be when the budget exceeds the glyphs. -/
theorem course_tokensWithin {budget : Nat} (enough : glyphs.length < budget)
    (legible : Legible (front ++ glyphs)) :
    Course front glyphs (tokensWithin budget (Position.start.after front) glyphs) := by
  induction budget generalizing front glyphs with
  | zero => omega
  | succ budget ih =>
    have own := legible.of_append.2
    cases ends : glyphs.drop (gap .blank glyphs).width with
    | nil =>
      rw [tokensWithin_last ends, ← Position.after_append]
      split
      next closed =>
        have blank : Blank true (glyphs.take (gap .blank glyphs).width) :=
          fills_gap closed fun _ => rfl
        rw [List.take_of_length_le (List.drop_eq_nil_iff.mp ends)] at blank
        exact course_last own blank
      next closed =>
        refine course_open ?_
        rintro rfl
        exact closed rfl
    | cons glyph rest =>
      obtain ⟨width, extent⟩ : ∃ width, width = (gap .blank glyphs).width := ⟨_, rfl⟩
      obtain ⟨taken, found⟩ : ∃ taken, taken = (lexeme glyph rest).width := ⟨_, rfl⟩
      have later : Legible (glyph :: rest) := ends ▸ own.drop _
      have sound := sound_lexeme fun other mem => (later.sound other mem).1
      have wide := sound.wide
      have more : glyphs.drop (gap .blank glyphs).width ≠ [] := by simp [ends]
      have blank : Blank false (glyphs.take width) :=
        extent ▸ fills_gap (closed_gap more) fun nothing => absurd nothing more
      have split : glyphs =
          glyphs.take width ++ ((glyph :: rest).take taken ++ (glyph :: rest).drop taken) := by
        rw [List.take_append_drop, ← ends, extent, List.take_append_drop]
      have shorter : rest.length + 1 ≤ glyphs.length := by
        rw [← List.length_cons, ← ends, List.length_drop]
        omega
      rw [tokensWithin_next ends, ← extent, ← found, ← Position.after_append,
        ← Position.after_append]
      have rest_legible : Legible (front ++ glyphs.take width ++ (glyph :: rest).take taken ++
          (glyph :: rest).drop taken) := by
        rw [List.append_assoc, List.append_assoc, ← split]
        exact legible
      have course := ih (by rw [List.length_drop, List.length_cons]; omega) rest_legible
      have some : (glyph :: rest).take taken ≠ [] := by
        rw [Ne, List.take_eq_nil_iff]
        simp
        omega
      exact .cons split legible some rfl sound.inside blank
        (fun valid => found ▸ spells_lexeme later valid _) course

/-- The tokens of a text are exact. -/
theorem exact_tokens (source : Text) : Exact source (tokens source) := by
  have legible := legible_glyphs source
  have whole : written source.glyphs = source := Text.flatMap_glyphs source
  have course : Course [] source.glyphs (tokens source) :=
    course_tokensWithin (Nat.lt_succ_self _) legible
  constructor
  case ended =>
    obtain ⟨before, last, split, kind, place, inside⟩ := course.ended
    exact ⟨before, last, split, kind, by rw [place, List.nil_append, whole], inside⟩
  case few =>
    have bytes := length_le_written legible
    rw [whole] at bytes
    exact course.few.trans (Nat.succ_le_succ bytes)
  case placed =>
    intro token mem
    obtain ⟨count, place⟩ := course.placed token mem
    rw [List.nil_append] at place
    have front : source.take (written (source.glyphs.take count)).length =
        written (source.glyphs.take count) := by
      have parts : source =
          written (source.glyphs.take count) ++ written (source.glyphs.drop count) := by
        rw [← written_append, List.take_append_drop, whole]
      exact (List.prefix_iff_eq_take.mp ⟨_, parts.symm⟩).symm
    rw [place, (legible.take count).after, Text.lineAt, Text.columnAt, front]
    exact ⟨rfl, rfl⟩
  case ordered => exact course.ordered
  case strictly => exact course.strictly
  case laid =>
    intro valid
    have laid := course.laid valid
    rw [whole] at laid
    exact laid

end Scan

end TinLang
