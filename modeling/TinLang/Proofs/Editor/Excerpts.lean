import TinLang.Editor.Workspace
import TinLang.Proofs.Grammar.Extents
import TinLang.Proofs.Slices

/-!
# Excerpts of nodes

A node of a text that was read without errors starts at a token and is said to stop where a token
stops. If the literal of that token is as long as its text, the excerpt of the node is scanned as
just the tokens of the node, and the excerpt of a literal is the text of it
(`SourceFile.excerpts_parse`). An escape in a string or character literal at the end of a node cuts
its excerpt short.
-/
namespace TinLang

variable {source : Text}

/-- The text of a token stands at its place. -/
theorem Token.raw_prefix (source : Text) (token : Token) :
    token.raw source <+: source.drop token.position.offset := by
  have whole := Text.flatMap_glyphs (source.drop token.position.offset)
  unfold raw
  split
  · exact List.nil_prefix
  · next glyph rest glyphs =>
    rw [glyphs] at whole
    refine ⟨Scan.written ((glyph :: rest).drop (Scan.lexeme glyph rest).width), ?_⟩
    rw [← Scan.written_append, List.take_append_drop]
    exact whole

/-- The excerpt of a stretch that stops where a token ends. -/
theorem NamedSymbol.excerpt_eq {span : Span} (some : span.start.offset < span.stop.offset)
    (inside : span.stop.offset ≤ source.length) : excerpt source span =
      (source.drop span.start.offset).take (span.stop.offset - span.start.offset) :=
  if_pos ⟨some, inside⟩

/-- The excerpt of a name that is one token is the text of the token. -/
theorem NamedSymbol.excerpt_single {span : Span} {token : Token}
    (start : span.start = token.position) (stop : span.stop.offset = token.finish source)
    (some : token.position.offset < token.finish source)
    (inside : token.finish source ≤ source.length) : excerpt source span = token.raw source := by
  rw [excerpt_eq (by rw [start, stop]; exact some) (stop ▸ inside), start, stop, Token.finish,
    Nat.add_sub_cancel_left]
  exact (List.prefix_iff_eq_take.mp (token.raw_prefix source)).symm

namespace SourceFile

/-- Every node of a text that was read without errors runs from the first to the last of some tokens
that follow one another. It is said to stop where the text of the last ends exactly if the literal
of the last is as long as its text without quotes, and then the excerpt of the node is scanned as
just these tokens, and is the text of the token if it is one. -/
theorem excerpts_parse {name source : Text} (clean : (parse name source).2 = []) {node : Extent}
    (mem : node ∈ (parse name source).1.extents) :
    ∃ middle first last, node.Takes (Scan.tokens source) middle first last ∧
      (node.span.stop.offset = last.finish source ↔ last.TrueLength source) ∧
      (node.span.stop.offset = last.finish source → ∃ copies stop,
        Scan.tokens (NamedSymbol.excerpt source node.span) = copies ++ [⟨.endOfText, [], stop⟩] ∧
        List.Forall₂ (Token.Moved first.position.offset 0) middle copies ∧
        (node.single → NamedSymbol.excerpt source node.span = first.raw source)) := by
  have valid := valid_of_clean clean
  obtain ⟨middle, first, last, takes⟩ := covered_parse name source node mem
  rw [Token.wellFormed_of_valid valid] at takes
  obtain ⟨before, after, parts⟩ := takes.part
  have genuine : ∀ token ∈ middle, token.kind ≠ .endOfText ∧ token.Valid :=
    fun token found => ⟨takes.inside token found, valid token (takes.part.subset found)⟩
  have ends := List.mem_of_getLast? takes.final
  have stop : node.span.stop.offset = last.stop.offset := by rw [takes.span]
  have start : node.span.start = first.position := by rw [takes.span]
  refine ⟨middle, first, last, takes, ?_, fun reaches => ?_⟩
  · obtain ⟨within, sound⟩ := genuine last ends
    rw [stop]
    exact Scan.stop_eq_finish_iff (takes.part.subset ends) within sound
  · obtain ⟨some, inside, copies, ending, scanned, moved⟩ :=
      Scan.tokens_stretch parts.symm takes.head takes.final genuine
    have cut : NamedSymbol.excerpt source node.span =
        (source.drop first.position.offset).take (last.finish source - first.position.offset) := by
      rw [NamedSymbol.excerpt_eq (by rw [start, reaches]; exact some) (reaches ▸ inside), start,
        reaches]
    refine ⟨copies, ending, by rw [cut]; exact scanned, moved, fun single => ?_⟩
    have same : first = last := by
      have final := takes.final
      rw [takes.single single] at final
      exact Option.some.inj final
    subst same
    exact NamedSymbol.excerpt_single start reaches some inside

/-- A constant with a letter of two bytes. -/
def accentConstant : Text := "const C = \"é\";"

/-- The string of `accentConstant`. -/
def accentLiteral : Extent := ⟨⟨⟨10, 1, 11⟩, ⟨14, 1, 15⟩⟩, true⟩

/-- A string with a letter of two bytes is excerpted whole. -/
theorem excerpts_parse_accent :
    (parse "c.tin" accentConstant).2 = [] ∧
      accentLiteral ∈ (parse "c.tin" accentConstant).1.extents ∧
      ∃ middle first last, accentLiteral.Takes (Scan.tokens accentConstant) middle first last ∧
        (accentLiteral.span.stop.offset = last.finish accentConstant ↔
          last.TrueLength accentConstant) ∧
        (accentLiteral.span.stop.offset = last.finish accentConstant → ∃ copies stop,
          Scan.tokens (NamedSymbol.excerpt accentConstant accentLiteral.span) =
            copies ++ [⟨.endOfText, [], stop⟩] ∧
          List.Forall₂ (Token.Moved first.position.offset 0) middle copies ∧
          (accentLiteral.single →
            NamedSymbol.excerpt accentConstant accentLiteral.span = first.raw accentConstant)) := by
  have clean : (parse "c.tin" accentConstant).2 = [] := by decide
  have mem : accentLiteral ∈ (parse "c.tin" accentConstant).1.extents := by decide
  exact ⟨clean, mem, excerpts_parse clean mem⟩

/-- A constant with an escape. -/
def escapeConstant : Text := "const C = \"a\\n\";"

/-- The string of `escapeConstant`. -/
def escapeLiteral : Extent := ⟨⟨⟨10, 1, 11⟩, ⟨14, 1, 15⟩⟩, true⟩

/-- The excerpt of a string with an escape lacks the closing quote: no token stops where the string
is said to stop, and the excerpt is scanned as an unterminated string. -/
theorem cut_escape :
    (parse "c.tin" escapeConstant).2 = [] ∧
      escapeLiteral ∈ (parse "c.tin" escapeConstant).1.extents ∧
      (∀ token ∈ Scan.tokens escapeConstant,
        token.finish escapeConstant ≠ escapeLiteral.span.stop.offset) ∧
      NamedSymbol.excerpt escapeConstant escapeLiteral.span = "\"a\\n" ∧
      (Scan.tokens (NamedSymbol.excerpt escapeConstant escapeLiteral.span)).map Token.kind =
        [.error .unterminatedString, .endOfText] := by
  decide

end SourceFile

end TinLang
