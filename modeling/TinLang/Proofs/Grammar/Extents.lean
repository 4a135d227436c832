import TinLang.Proofs.Grammar.Descent

/-!
# Nodes cover tokens

Every node of a file that was read runs over tokens of its text that follow one another: it starts
where the first of them starts and stops where the last is said to stop. The nodes in what a rule
yields run over the tokens that the rule passes (`Rule.covered`), so those of different declarations
start at different places. Every syntax error is reported at a token.
-/
namespace TinLang

namespace Token

/-- A token is a lexical error. -/
def isError (token : Token) : Bool :=
  match token.kind with
  | .error _ => true
  | _ => false

/-- The tokens that are no errors. -/
def wellFormed (tokens : List Token) : List Token := tokens.filter fun token => !token.isError

end Token

/-- A node runs from the first to the last of some tokens that follow one another before the end of
the text. -/
structure Extent.Takes (tokens : List Token) (extent : Extent) (middle : List Token)
    (first last : Token) : Prop where
  part : middle <:+: tokens
  head : middle.head? = some first
  final : middle.getLast? = some last
  inside : ∀ token ∈ middle, token.kind ≠ .endOfText
  span : extent.span = ⟨first.position, last.stop⟩
  single : extent.single → middle = [first]

/-- A node runs over tokens. -/
def Extent.Covers (tokens : List Token) (extent : Extent) : Prop :=
  ∃ middle first last, extent.Takes tokens middle first last

/-- All of some extents run over tokens. -/
def Covered (tokens : List Token) (extents : List Extent) : Prop :=
  ∀ extent ∈ extents, extent.Covers tokens

namespace Covered

variable {tokens : List Token} {extents : List Extent}

/-- What covers tokens starts at a token. -/
theorem places_subset (covered : Covered tokens extents) :
    Extent.places extents ⊆ Token.places tokens := by
  intro place mem
  obtain ⟨extent, listed, rfl⟩ := List.mem_map.mp mem
  obtain ⟨middle, first, last, takes⟩ := covered extent listed
  rw [takes.span]
  exact List.mem_map_of_mem (takes.part.subset (List.mem_of_head? takes.head))

end Covered

namespace Cursor

variable {tokens taken : List Token} {cursor after : Cursor}

/-- The tokens from the current one to the end of the text, without errors. -/
def stream (cursor : Cursor) : List Token :=
  if cursor.current.kind = .endOfText then [cursor.current]
  else cursor.current :: cursor.following :: Token.wellFormed cursor.rest

/-- What `settle` finds are the first token that is no error, and those after it. -/
theorem settle_wellFormed (ending : Token) {tokens : List Token} (problems : Array SyntaxProblem)
    {last : Token} (found : tokens.getLast? = some last) (ended : last.kind = .endOfText) :
    Token.wellFormed tokens = (settle ending tokens problems).1 ::
      Token.wellFormed (settle ending tokens problems).2.1 := by
  induction tokens generalizing problems with
  | nil => simp at found
  | cons token tokens ih =>
    unfold settle
    split
    · next cause kind =>
      have wrong : token.isError = true := by rw [Token.isError, kind]
      have later : tokens.getLast? = some last := by
        cases tokens with
        | nil =>
          rw [List.getLast?_singleton, Option.some.injEq] at found
          rw [found, ended] at kind
          contradiction
        | cons second tokens => rwa [List.getLast?_cons_cons] at found
      rw [← ih _ later, Token.wellFormed, List.filter_cons_of_neg (by simp [wrong])]
      rfl
    · next valid =>
      have right : token.isError = false := by
        unfold Token.isError
        split
        · next cause kind => exact absurd kind (valid cause)
        · rfl
      rw [Token.wellFormed, List.filter_cons_of_pos (by simp [right])]
      rfl

/-- Passing a token leaves those behind it. -/
theorem stream_next (sound : cursor.Sound) (inside : cursor.current.kind ≠ .endOfText) :
    cursor.stream = cursor.current :: cursor.next.stream := by
  rw [stream, if_neg inside, stream]
  congr 1
  cases sound with
  | atEnd ended => contradiction
  | inside _ _ ordered ended =>
    obtain ⟨last, found, ended⟩ := ended
    cases rest : cursor.rest with
    | nil =>
      rw [if_pos (kind_next_of_last found ended rest)]
      rfl
    | cons token others =>
      have later := (List.pairwise_cons.mp ordered).2
      have further : cursor.next.current.kind ≠ .endOfText :=
        ((List.pairwise_cons.mp later).1 token (by simp [rest])).1
      rw [rest, List.getLast?_cons_cons, ← rest] at found
      rw [if_neg further, ← rest, settle_wellFormed cursor.following cursor.problems found ended]
      rfl

/-- The tokens passed and those still ahead are those that were ahead. -/
theorem Passes.stream (passes : Passes cursor taken after) (sound : cursor.Sound) :
    cursor.stream = taken ++ after.stream := by
  induction passes with
  | stay => rfl
  | report error _ ih => exact ih (sound.report error)
  | next inside _ ih => rw [stream_next sound inside, ih sound.next, List.cons_append]

/-- The first token passed is the current one. -/
theorem Passes.head (passes : Passes cursor taken after) (some : taken ≠ []) :
    taken.head? = Option.some cursor.current := by
  induction passes with
  | stay => exact absurd rfl some
  | report error _ ih => exact ih some
  | next inside _ ih => rfl

/-- The stop of the last token passed is kept. -/
theorem Passes.lastStop (passes : Passes cursor taken after) :
    (taken = [] ∧ after.lastStop = cursor.lastStop) ∨
      ∃ last, taken.getLast? = some last ∧ after.lastStop = last.stop := by
  induction passes with
  | stay => exact .inl ⟨rfl, rfl⟩
  | report error _ ih => exact ih
  | @next cursor taken after inside _ ih =>
    rcases ih with ⟨rfl, same⟩ | ⟨last, found, same⟩
    · exact .inr ⟨cursor.current, rfl, same⟩
    · exact .inr ⟨last, by rw [List.getLast?_cons, found]; rfl, same⟩

/-- Tokens that are passed are not the end of the text. -/
theorem Passes.inside (passes : Passes cursor taken after) :
    ∀ token ∈ taken, token.kind ≠ .endOfText := by
  induction passes with
  | stay => exact fun _ mem => absurd mem List.not_mem_nil
  | report error _ ih => exact ih
  | next inside _ ih => exact List.forall_mem_cons.mpr ⟨inside, ih⟩

/-- All tokens of a source that are no errors are ahead of its first one. -/
theorem stream_ofTokens (source : Text) :
    (ofTokens (Scan.tokens source)).stream = Token.wellFormed (Scan.tokens source) := by
  have complete := Scan.complete_tokens source
  obtain ⟨last, found, ended⟩ := complete.ended
  have all := settle_wellFormed ⟨.endOfText, [], .start⟩ #[] found ended
  obtain ⟨current, others, first, second, -, suffix⟩ :=
    settle_sound ⟨.endOfText, [], .start⟩ #[] found ended
  have parts : ∃ problems stop problems', ofTokens (Scan.tokens source) =
      ⟨current, (settle current others problems).1, (settle current others problems).2.1, stop,
        problems'⟩ := ⟨_, _, _, by rw [← first, ← second]; rfl⟩
  obtain ⟨problems, stop, problems', whole⟩ := parts
  rw [first, second] at all
  have final : (current :: others).getLast? = some last := by
    obtain ⟨front, same⟩ := suffix
    rw [← same, List.getLast?_append] at found
    simpa using found
  rw [whole, stream, all]
  cases others with
  | nil =>
    rw [List.getLast?_singleton, Option.some.injEq] at final
    rw [if_pos (by rw [final, ended])]
    rfl
  | cons next others =>
    have further : current.kind ≠ .endOfText :=
      ((List.pairwise_cons.mp (complete.ordered.sublist suffix.sublist)).1 next
        (List.mem_cons_self ..)).1
    rw [List.getLast?_cons_cons] at final
    rw [if_neg further, settle_wellFormed current problems final ended]

/-- All that a cursor shows and reports stands in a list of tokens. -/
structure Among (tokens : List Token) (cursor : Cursor) : Prop where
  current : cursor.current ∈ tokens
  following : cursor.following ∈ tokens
  rest : cursor.rest ⊆ tokens
  problems : ∀ problem ∈ cursor.problems, problem.position ∈ Token.places tokens

theorem Among.place (among : cursor.Among tokens) :
    cursor.current.position ∈ Token.places tokens :=
  List.mem_map_of_mem among.current

/-- The errors that `settle` adds stand at tokens. -/
theorem settle_problems (ending : Token) (tokens : List Token) (problems : Array SyntaxProblem) :
    ∀ problem ∈ (settle ending tokens problems).2.2,
      problem ∈ problems ∨ problem.position ∈ Token.places tokens := by
  induction tokens generalizing problems with
  | nil => exact fun problem mem => .inl mem
  | cons token tokens ih =>
    unfold settle
    split
    · intro problem mem
      rcases ih _ problem mem with old | found
      · rcases Array.mem_push.mp old with old | rfl
        · exact .inl old
        · exact .inr (List.mem_cons_self ..)
      · exact .inr (List.mem_cons_of_mem _ found)
    · exact fun problem mem => .inl mem

theorem Among.next (among : cursor.Among tokens) : cursor.next.Among tokens := by
  obtain ⟨suffix, found, -⟩ := settle_suffix cursor.following cursor.rest cursor.problems
  refine ⟨among.following, ?_, List.Subset.trans suffix.subset among.rest, ?_⟩
  · rcases found with same | mem
    · rw [show cursor.next.following = cursor.following from same]
      exact among.following
    · exact among.rest mem
  · intro problem mem
    rcases settle_problems _ _ _ problem mem with old | found
    · exact among.problems problem old
    · exact List.map_subset _ among.rest found

theorem Among.report (among : cursor.Among tokens) (error : SyntaxError) :
    (cursor.report error).Among tokens := by
  refine ⟨among.current, among.following, among.rest, fun problem mem => ?_⟩
  rcases Array.mem_push.mp mem with old | rfl
  · exact among.problems problem old
  · exact among.place

theorem Among.passes (among : cursor.Among tokens) (passes : Passes cursor taken after) :
    after.Among tokens := by
  induction passes with
  | stay => exact among
  | report error _ ih => exact ih (among.report error)
  | next _ _ ih => exact ih among.next

/-- The cursor before the first token of a source stands among its tokens. -/
theorem among_ofTokens (source : Text) :
    (Cursor.ofTokens (Scan.tokens source)).Among (Scan.tokens source) := by
  obtain ⟨last, found, ended⟩ := (Scan.complete_tokens source).ended
  obtain ⟨current, others, first, second, -, suffix⟩ :=
    settle_sound ⟨.endOfText, [], .start⟩ #[] found ended
  have parts : ∃ problems, (∀ problem ∈ problems, problem.position ∈
      Token.places (Scan.tokens source)) ∧ Cursor.ofTokens (Scan.tokens source) =
        ⟨current, (settle current others problems).1, (settle current others problems).2.1,
          ⟨0, 0, 0⟩, (settle current others problems).2.2⟩ := by
    refine ⟨_, fun problem mem => ?_, by rw [← first, ← second]; rfl⟩
    exact (settle_problems _ _ _ problem mem).resolve_left (Array.not_mem_empty problem)
  obtain ⟨problems, placed, whole⟩ := parts
  obtain ⟨later, next, -⟩ := settle_suffix current others problems
  have inside := suffix.subset
  have rest : others ⊆ Scan.tokens source := fun token mem =>
    inside (List.mem_cons_of_mem _ mem)
  rw [whole]
  refine ⟨inside (List.mem_cons_self ..), ?_, List.Subset.trans later.subset rest, ?_⟩
  · rcases next with same | mem
    · exact inside (List.mem_cons.mpr (.inl same))
    · exact rest mem
  · intro problem mem
    rcases settle_problems _ _ _ problem mem with old | found
    · exact placed problem old
    · exact List.map_subset _ rest found

end Cursor

namespace Parse

open Cursor (Passes)

variable {tokens ending : List Token}

/-- The reading of some tokens up to those at the end. -/
def View.along (tokens ending : List Token) : View where
  sees cursor := ∃ ahead, cursor.stream = ahead ++ ending ∧ ahead <:+ tokens
  covers extent := extent.Covers tokens
  between := by
    rintro first middle last taken later ⟨ahead, whole, part⟩ fit passes further ⟨left, rest, -⟩
    have from' := passes.stream fit.1
    have onward := further.stream (passes.fit fit).1
    rw [rest, ← List.append_assoc] at onward
    rw [onward, whole, ← List.append_assoc] at from'
    exact ⟨later ++ left, onward, .trans ⟨taken, (List.append_cancel_right from').symm⟩ part⟩
  token := by
    rintro cursor fit ⟨ahead, whole, part⟩ inside ⟨left, rest, -⟩
    have next := Cursor.stream_next fit.1 inside
    rw [rest, whole, ← List.cons_append] at next
    have front : [cursor.current] <+: ahead := ⟨left, (List.append_cancel_right next).symm⟩
    refine ⟨[cursor.current], _, _, front.isInfix.trans part.isInfix, rfl, rfl, ?_, rfl,
      fun _ => rfl⟩
    exact List.forall_mem_singleton.mpr inside
  node := by
    rintro start cursor taken fit ⟨ahead, whole, part⟩ passes ⟨left, rest, -⟩ some
    have next := passes.stream fit.1
    rw [rest, whole, ← List.append_assoc] at next
    have front : taken <+: ahead := ⟨left, (List.append_cancel_right next).symm⟩
    obtain ⟨last, final, stop⟩ := passes.lastStop.resolve_left fun none => some none.1
    exact ⟨taken, _, last, front.isInfix.trans part.isInfix, passes.head some, final,
      passes.inside, by rw [stop], nofun⟩

/-- The nodes in what a rule yields run over the tokens it passes. -/
theorem Rule.covered {α : Type} (rule : Rule α) {cursor after : Cursor} {value : α}
    (fit : cursor.Fit) (ready : rule.Ready cursor)
    (given : ∀ tokens ending, rule.Given (.along tokens ending) cursor)
    (run : rule.parse.run.run cursor = (some value, after)) :
    ∃ taken, cursor.Passes taken after ∧ Covered taken (rule.extents value) := by
  obtain ⟨result, taken, last, same, passes, -⟩ := rule.accounts_parse ready fit
  obtain ⟨rfl, rfl⟩ := Prod.mk.inj (run.symm.trans same)
  have here : (View.along taken after.stream).sees cursor :=
    ⟨taken, passes.stream fit.1, List.suffix_refl _⟩
  have there : (View.along taken after.stream).sees (rule.parse.run.run cursor).2 := by
    rw [run]
    exact ⟨[], rfl, List.nil_suffix⟩
  exact ⟨taken, passes, rule.shows_parse fit ready (given _ _) here there value (by rw [run])⟩

end Parse

/-- Tokens that are passed stand between two cursors. -/
theorem Cursor.Passes.placed {cursor after : Cursor} {taken : List Token}
    (passes : cursor.Passes taken after) (sound : cursor.Sound) :
    cursor.place.UpTo after.place ∧
      ∀ place ∈ Token.places taken, cursor.place.UpTo place ∧ place.Before after.place := by
  induction passes with
  | stay => exact ⟨.refl _, fun _ mem => absurd mem List.not_mem_nil⟩
  | report error _ ih => exact ih (sound.report error)
  | @next cursor taken after inside _ ih =>
    have moved := sound.before_next inside
    obtain ⟨further, placed⟩ := ih sound.next
    refine ⟨moved.upTo.trans further, List.forall_mem_cons.mpr
      ⟨⟨.refl _, moved.before further⟩, ?_⟩⟩
    exact fun place mem => ⟨moved.upTo.trans (placed place mem).1, (placed place mem).2⟩

theorem Apart.symm {starts others : List Position} (apart : Apart starts others) :
    Apart others starts :=
  fun first mem second found same => apart second found first mem ⟨same.1.symm, same.2.symm⟩

namespace SourceFile

/-- A file that is read from a source up to a place: the nodes of its declarations stand before the
place, and those of different declarations stand apart. -/
structure ReadUpTo (name source : Text) (place : Position) (file : SourceFile) : Prop where
  name : file.name = name
  source : file.source = source
  before : ∀ decl ∈ file.declarations, ∀ start ∈ decl.places, start.Before place
  apart : file.declarations.Pairwise fun first second => Apart first.places second.places

variable {name source : Text} {file : SourceFile} {place : Position}

theorem ReadUpTo.later {high : Position} (read : file.ReadUpTo name source place)
    (after : place.UpTo high) : file.ReadUpTo name source high :=
  { read with
    before := fun decl mem start inside =>
      (read.before decl mem start inside).before after }

/-- A declaration is added whose nodes stand after the place. -/
theorem ReadUpTo.add {high : Position} (read : file.ReadUpTo name source place)
    {decl : Declaration} (further : place.UpTo high)
    (placed : ∀ start ∈ decl.places, place.UpTo start ∧ start.Before high) :
    (file.add decl).ReadUpTo name source high := by
  have perm := file.declarations_add decl
  refine ⟨?_, ?_, fun other mem => ?_, (perm.pairwise_iff fun apart => Apart.symm apart).mpr ?_⟩
  · cases decl <;> exact read.name
  · cases decl <;> exact read.source
  · rcases List.mem_cons.mp (perm.subset mem) with rfl | old
    · exact fun start inside => (placed start inside).2
    · exact (read.later further).before other old
  · refine List.pairwise_cons.mpr ⟨fun other old first inside second found same => ?_, read.apart⟩
    have before := (read.before other old second found).before (placed first inside).1
    unfold Position.Before at before
    omega

/-- A declaration that is kept when it is read stands apart from those before it. -/
theorem total_kept {α : Type} (rule : Parse.Rule α) {cursor : Cursor} {keep : Option α → SourceFile}
    (build : α → Declaration) (nothing : keep none = file)
    (same : ∀ value, keep (some value) = file.add (build value))
    (agree : ∀ value, rule.extents value = (build value).extents) (fit : cursor.Fit)
    (ready : rule.Ready cursor) (given : ∀ tokens ending, rule.Given (.along tokens ending) cursor)
    (read : file.ReadUpTo name source cursor.place) :
    Parse.Total cursor (Parse.attempt rule.parse >>= fun read => pure (keep read))
      fun result after => result.ReadUpTo name source after.place := by
  obtain ⟨answer, taken, after, run, passes, -⟩ := rule.accounts_parse ready fit
  refine ⟨keep (rule.parse.run.run cursor).1, (rule.parse.run.run cursor).2, rfl, ?_⟩
  rw [run]
  cases answer with
  | none => exact nothing ▸ read.later (passes.placed fit.1).1
  | some value =>
    obtain ⟨taken, passes, covered⟩ := rule.covered fit ready given run
    obtain ⟨further, placed⟩ := passes.placed fit.1
    rw [same]
    refine read.add further fun start inside => placed start ?_
    rw [agree] at covered
    rw [← Declaration.places_extents] at inside
    exact covered.places_subset inside

theorem total_readUpTo {cursor : Cursor} (read : file.ReadUpTo name source cursor.place)
    (fit : cursor.Fit) : Parse.Total cursor (Parse.declaration file) fun result after =>
      result.ReadUpTo name source after.place := by
  refine .current ?_
  split
  · next kind =>
    exact total_kept .struct .struct (by simp) (fun _ => rfl) (fun _ => rfl) fit kind
      (fun _ _ => trivial) read
  · next kind =>
    exact total_kept .function .function (by simp) (fun _ => rfl) (fun _ => rfl) fit kind
      (fun _ _ => trivial) read
  · next kind =>
    exact total_kept .global .global (by simp) (fun _ => rfl) (fun _ => rfl) fit kind
      (fun _ _ => trivial) read
  · next kind =>
    have kept : Parse.Total cursor (Parse.attempt (Parse.Rule.parse .constant) >>= fun read =>
        pure { file with consts := file.consts ++ read.toList }) fun result after =>
          result.ReadUpTo name source after.place :=
      total_kept .constant .constant (by simp) (fun _ => rfl) (fun _ => rfl) fit kind
        (fun _ _ => trivial) read
    exact kept
  · exact ⟨_, _, rfl, read.later fit.1.upTo_next⟩

/-- What is read from a source keeps the name and the text of the source, and its declarations
stand apart. -/
theorem parse_readUpTo (name source : Text) :
    ∃ place, (parse name source).1.ReadUpTo name source place := by
  obtain ⟨file, last, -, -, kept, parsed⟩ := @parse_keeps name source
    (fun file cursor => file.ReadUpTo name source cursor.place)
    (fun _ _ _ _ read fit passes => read.later (passes.placed fit.1).1)
    (fun _ _ read fit _ => total_readUpTo read fit) ⟨rfl, rfl, nofun, .nil⟩
  rw [parsed]
  exact ⟨_, kept⟩

end SourceFile

/-- A source is read by passing its tokens up to the end of its text. -/
theorem SourceFile.parse_passes (name source : Text) : ∃ file taken last,
    (Cursor.ofTokens (Scan.tokens source)).Passes taken last ∧ last.current.kind = .endOfText ∧
      parse name source = (file, last.diagnostics name) ∧ Covered taken file.extents := by
  obtain ⟨file, last, run, ended, -, parsed⟩ := @parse_keeps name source (fun _ _ => True)
    (fun _ _ _ _ _ _ _ => trivial) (fun file _ _ _ _ => Parse.total_declaration file) trivial
  obtain ⟨taken, passes, covered⟩ :=
    (Parse.Rule.declarations ⟨name, source, [], [], [], []⟩).covered (Cursor.fit_ofTokens source)
      trivial (fun _ _ => Parse.View.Shows.nil) run
  exact ⟨file, taken, last, passes, ended, parsed, covered⟩

/-- Every node of a file that was read runs over tokens of its text. -/
theorem SourceFile.covered_parse (name source : Text) :
    Covered (Token.wellFormed (Scan.tokens source)) (parse name source).1.extents := by
  obtain ⟨file, taken, last, passes, -, parsed, covered⟩ := parse_passes name source
  have whole := passes.stream (Cursor.fit_ofTokens source).1
  rw [Cursor.stream_ofTokens] at whole
  rw [parsed, whole]
  intro extent mem
  obtain ⟨middle, first, final, takes⟩ := covered extent mem
  exact ⟨middle, first, final, { takes with
    part := takes.part.trans (List.prefix_append taken last.stream).isInfix }⟩

/-- The nodes of a file that was read, and the errors reported while it was read, start at tokens of
its text. -/
theorem SourceFile.places_parse (name source : Text) :
    (parse name source).1.places ⊆ Token.places (Scan.tokens source) ∧
      ∀ diagnostic ∈ (parse name source).2, ∃ position ∈ Token.places (Scan.tokens source),
        ∃ message, diagnostic = .located name position message := by
  have covered := (covered_parse name source).places_subset
  have fewer : Token.places (Token.wellFormed (Scan.tokens source)) ⊆
      Token.places (Scan.tokens source) := List.map_subset _ (List.filter_subset_self _)
  rw [places_extents] at covered
  refine ⟨List.Subset.trans covered fewer, ?_⟩
  obtain ⟨file, taken, last, passes, -, parsed, -⟩ := parse_passes name source
  have among := (Cursor.among_ofTokens source).passes passes
  rw [parsed]
  intro diagnostic mem
  obtain ⟨problem, listed, rfl⟩ := List.mem_map.mp mem
  exact ⟨problem.position, among.problems problem (Array.mem_toList_iff.mp listed), _, rfl⟩

/-- A text that is read without errors has no lexical errors. -/
theorem SourceFile.valid_of_clean {name source : Text} (clean : (parse name source).2 = []) :
    ∀ token ∈ Scan.tokens source, token.Valid := by
  obtain ⟨file, taken, last, passes, ended, parsed, -⟩ := parse_passes name source
  have sound := (Cursor.fit_ofTokens source).1
  rw [parsed] at clean
  have none : last.problems.size = 0 := by
    simpa [Cursor.diagnostics] using congrArg List.length clean
  have rose := passes.rose
  have whole := passes.ahead sound (by omega)
  rw [Cursor.ahead_ofTokens source (by omega), Cursor.ahead, if_pos ended] at whole
  rw [whole]
  refine List.forall_mem_append.mpr ⟨passes.valid sound, List.forall_mem_singleton.mpr ?_⟩
  simp [Token.Valid, ended]

theorem Token.wellFormed_of_valid {tokens : List Token} (valid : ∀ token ∈ tokens, token.Valid) :
    wellFormed tokens = tokens := by
  refine List.filter_eq_self.mpr fun token mem => ?_
  unfold isError
  split
  · next cause kind => exact absurd kind (valid token mem cause)
  · rfl

end TinLang
