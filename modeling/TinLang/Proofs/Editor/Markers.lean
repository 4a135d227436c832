import TinLang.Proofs.Editor.Handling
import TinLang.Proofs.Slices

/-!
# Markers over names

A diagnostic counts the characters of its line, and the marker that is published for it starts at
that column and covers the word there. The word is found in the bytes of the line, each read as a
code point. So a marker always starts where its diagnostic says, and where the characters before a
name on its line have one byte each it covers just the name unless a byte of a word touches it
(`Marker.range_ofDiagnostic`).
-/
namespace TinLang

namespace Text

variable {separator : UInt8}

/-- The bytes of the line of a place before it. -/
def lineBefore (text : Text) (offset : Nat) : Text :=
  (text.take offset).rtakeWhile (· != byte '\n')

/-- The bytes of the line of a place from it on. -/
def lineAfter (text : Text) (offset : Nat) : Text :=
  (text.drop offset).takeWhile (· != byte '\n')

/-- The first piece of a text goes up to the first separator. -/
theorem splitAt_eq_cons (separator : UInt8) (text : Text) :
    ∃ pieces, splitAt separator text = text.takeWhile (· != separator) :: pieces := by
  induction text with
  | nil => exact ⟨[], rfl⟩
  | cons head text ih =>
    obtain ⟨pieces, split⟩ := ih
    unfold splitAt
    split
    · next same => exact ⟨_, by rw [List.takeWhile_cons_of_neg (by simp [same])]⟩
    · next other =>
      rw [split, List.takeWhile_cons_of_pos (by simpa using other)]
      exact ⟨pieces, rfl⟩

/-- A text splits at a separator. -/
theorem splitAt_append (separator : UInt8) (before after : Text) :
    splitAt separator (before ++ separator :: after) =
      splitAt separator before ++ splitAt separator after := by
  induction before with
  | nil => simp [splitAt]
  | cons head before ih =>
    obtain ⟨pieces, split⟩ := splitAt_eq_cons separator before
    rw [List.cons_append, splitAt, ih, splitAt, split]
    split <;> rfl

/-- A text splits into one part more than it has separators. -/
theorem length_splitAt (separator : UInt8) (text : Text) :
    (splitAt separator text).length = text.count separator + 1 := by
  induction text with
  | nil => rfl
  | cons head text ih =>
    obtain ⟨pieces, split⟩ := splitAt_eq_cons separator text
    unfold splitAt
    split
    · next same =>
      rw [List.length_cons, ih, same, List.count_cons_self]
    · next other =>
      rw [split] at ih ⊢
      rw [List.count_cons_of_ne other, ← ih]
      rfl

/-- The piece of a place is what stands around it up to the next separators. -/
theorem getElem?_splitAt (separator : UInt8) (before after : Text) :
    (splitAt separator (before ++ after))[before.count separator]? =
      some (before.rtakeWhile (· != separator) ++ after.takeWhile (· != separator)) := by
  have free : ∀ byte ∈ before.rtakeWhile (· != separator), (byte != separator) = true :=
    fun _ => List.mem_rtakeWhile_imp
  have none : (before.rtakeWhile (· != separator)).count separator = 0 :=
    List.count_eq_zero.mpr fun mem => by simpa using free _ mem
  have whole : before.rdropWhile (· != separator) ++ before.rtakeWhile (· != separator) = before :=
    List.rdropWhile_append_rtakeWhile
  obtain ⟨pieces, split⟩ :=
    splitAt_eq_cons separator (before.rtakeWhile (· != separator) ++ after)
  rw [List.takeWhile_append_of_pos free] at split
  rcases List.eq_nil_or_concat (before.rdropWhile (· != separator)) with first | ⟨front, last, same⟩
  · rw [first, List.nil_append] at whole
    rw [whole] at split none ⊢
    rw [split, none]
    rfl
  · have last_is : last = separator := by
      have nonempty : before.rdropWhile (· != separator) ≠ [] := by simp [same]
      have stops := List.rdropWhile_last_not (· != separator) before nonempty
      simpa [same] using stops
    subst last_is
    rw [List.concat_eq_append] at same
    rw [same, List.append_assoc, List.singleton_append] at whole
    have count : before.count last = (splitAt last front).length := by
      rw [← whole, List.count_append, List.count_cons_self, none, length_splitAt]
    have parts : before ++ after = front ++ last :: (before.rtakeWhile (· != last) ++ after) := by
      conv_lhs => rw [← whole]
      rw [List.append_assoc, List.cons_append]
    rw [parts, splitAt_append, split, count, List.getElem?_append_right (Nat.le_refl _),
      Nat.sub_self]
    rfl

/-- The line of a place. -/
theorem getElem?_lines (text : Text) (offset : Nat) :
    (splitAt (byte '\n') text)[(text.take offset).count (byte '\n')]? =
      some (text.lineBefore offset ++ text.lineAfter offset) := by
  have found := getElem?_splitAt (byte '\n') (text.take offset) (text.drop offset)
  rwa [List.take_append_drop] at found

end Text

namespace Scan

variable {glyph : Glyph} {glyphs rest : List Glyph} {token : Token}

/-- Only a letter starts a name. -/
theorem isLetter_of_identifier (kind : (lexeme glyph rest).kind = .identifier) :
    glyph.isLetter := by
  have valid : (lexeme glyph rest).Valid := fun cause other => by simp [kind] at other
  unfold lexeme at kind valid
  split at kind
  · assumption
  next letter =>
  rw [if_neg letter] at valid
  split at kind
  · rcases numeric_number (glyph :: rest) with other | other | ⟨cause, other⟩ <;>
      simp [kind] at other
  next digit =>
  rw [if_neg digit] at valid
  split at kind
  next quote =>
    rw [if_pos quote] at valid
    simp [quoted_string rest valid] at kind
  next quote =>
  rw [if_neg quote] at valid
  split at kind
  next single =>
    rw [if_pos single] at valid
    simp [quoted_character rest valid] at kind
  · rcases symbolic_symbol glyph rest with ⟨sign, other⟩ | ⟨cause, other⟩ <;> simp [kind] at other

/-- The literal of a name is the longest stretch of letters and digits at the front. -/
theorem literal_of_identifier (kind : (lexeme glyph rest).kind = .identifier) :
    (lexeme glyph rest).literal = written ((glyph :: rest).takeWhile isNameGlyph) := by
  rw [lexeme, if_pos (isLetter_of_identifier kind)]
  simp only [word]
  cases Keyword.ofWord? (written ((glyph :: rest).takeWhile isNameGlyph)) <;> rfl

/-- The bytes of a name belong to words. -/
theorem isWordByte_of_isNameGlyph (named : isNameGlyph glyph) (plain : glyph.Plain) :
    ∃ byte, glyph.bytes = [byte] ∧ Caret.isWordByte byte ∧ byte ≠ Text.byte '\n' := by
  have ascii := ascii_of_isNameGlyph named
  refine ⟨glyph.code.toUInt8, ?_, ?_, fun same => ?_⟩
  · rw [plain ascii, Glyph.encode, if_pos ascii]
  · have value : glyph.code.toUInt8.toNat = glyph.code := by
      rw [Nat.toUInt8, UInt8.toNat_ofNat']
      omega
    simp only [isNameGlyph, Glyph.isLetter, Glyph.isDigit, Bool.or_eq_true, Bool.and_eq_true,
      decide_eq_true_eq, beq_iff_eq] at named
    simp only [Caret.isWordByte, value, Bool.or_eq_true, Bool.and_eq_true, decide_eq_true_eq]
    omega
  · have value := congrArg UInt8.toNat same
    rw [Nat.toUInt8, UInt8.toNat_ofNat', show (Text.byte '\n').toNat = 10 from rfl] at value
    simp only [isNameGlyph, Glyph.isLetter, Glyph.isDigit, Bool.or_eq_true, Bool.and_eq_true,
      decide_eq_true_eq, beq_iff_eq] at named
    omega

/-- The bytes of a plain name are bytes of a word. -/
theorem isWordByte_of_written (plain : ∀ glyph ∈ glyphs, glyph.Plain) :
    ∀ byte ∈ written (glyphs.takeWhile isNameGlyph),
      Caret.isWordByte byte ∧ byte ≠ Text.byte '\n' := by
  intro byte mem
  obtain ⟨glyph, inside, found⟩ := List.mem_flatMap.mp mem
  have among := (List.takeWhile_prefix _).subset inside
  obtain ⟨single, bytes, wordy, free⟩ :=
    isWordByte_of_isNameGlyph (List.mem_takeWhile_imp inside) (plain glyph among)
  rw [bytes, List.mem_singleton] at found
  rw [found]
  exact ⟨wordy, free⟩

/-- A name stands in the text at its place. -/
theorem name_of_mem {source : Text} (mem : token ∈ tokens source)
    (name : token.kind = .identifier) : token.literal ≠ [] ∧
      source.drop token.position.offset =
        token.literal ++ source.drop (token.position.offset + token.literal.length) ∧
      ∀ byte ∈ token.literal, Caret.isWordByte byte ∧ byte ≠ Text.byte '\n' := by
  have legible := legible_glyphs source
  have whole : written source.glyphs = source := Text.flatMap_glyphs source
  obtain ⟨before, glyph, rest, split, rfl⟩ :=
    lexeme_of_mem mem (by simp [name]) (by simp [name, Token.Valid])
  rw [split] at legible whole
  have plain : ∀ other ∈ glyph :: rest, other.Plain :=
    fun other inside => (legible.of_append.2.sound other inside).1
  have letter := isLetter_of_identifier name
  have named : isNameGlyph glyph := by simp [isNameGlyph, letter]
  have parts : written (glyph :: rest) = (lexeme glyph rest).literal ++
      written ((glyph :: rest).dropWhile isNameGlyph) := by
    rw [literal_of_identifier name, ← written_append, List.takeWhile_append_dropWhile]
  have after : source.drop (Position.start.after before).offset = written (glyph :: rest) := by
    rw [← whole, offset_after_start, written_append, List.drop_left]
  dsimp only
  refine ⟨?_, ?_, ?_⟩
  · obtain ⟨byte, bytes, -⟩ :=
      isWordByte_of_isNameGlyph named (plain glyph List.mem_cons_self)
    rw [literal_of_identifier name, List.takeWhile_cons_of_pos named, written, List.flatMap_cons,
      bytes]
    exact List.cons_ne_nil _ _
  · rw [← List.drop_drop, after, parts, List.drop_left]
  · rw [literal_of_identifier name]
    exact isWordByte_of_written plain

end Scan

/-- The characters before a token on its line have one byte each. -/
def Token.Aligned (source : Text) (token : Token) : Prop :=
  (source.lineBefore token.position.offset).width =
    (source.lineBefore token.position.offset).length

/-- No byte of a word touches a token. -/
structure Token.Apart (source : Text) (token : Token) : Prop where
  before : ∀ byte, (source.lineBefore token.position.offset).getLast? = some byte →
    Caret.isWordByte byte = false
  after : ∀ byte, source[token.position.offset + token.literal.length]? = some byte →
    Caret.isWordByte byte = false

/-- A token is apart when the words around it on its line are empty. -/
theorem Token.apart_iff {source : Text} {token : Token} : token.Apart source ↔
    (source.lineBefore token.position.offset).rtakeWhile Caret.isWordByte = [] ∧
      (source.lineAfter (token.position.offset + token.literal.length)).takeWhile
        Caret.isWordByte = [] := by
  have newline : Caret.isWordByte (Text.byte '\n') = false := by decide
  have left : (source.lineBefore token.position.offset).rtakeWhile Caret.isWordByte = [] ↔
      ∀ byte, (source.lineBefore token.position.offset).getLast? = some byte →
        Caret.isWordByte byte = false := by
    rw [List.rtakeWhile_eq_nil_iff]
    cases found : (source.lineBefore token.position.offset).getLast? with
    | none => simp [List.getLast?_eq_none_iff.mp found]
    | some last =>
      obtain ⟨front, same⟩ := List.getLast?_eq_some_iff.mp found
      simp [same]
  have right : (source.lineAfter (token.position.offset + token.literal.length)).takeWhile
      Caret.isWordByte = [] ↔
        ∀ byte, source[token.position.offset + token.literal.length]? = some byte →
          Caret.isWordByte byte = false := by
    rw [Text.lineAfter, ← List.head?_drop]
    cases source.drop (token.position.offset + token.literal.length) with
    | nil => simp
    | cons next others =>
      by_cases ends : next = Text.byte '\n'
      · simp [ends, newline]
      · simp [List.takeWhile_cons, ends]
  rw [left, right]
  exact ⟨fun apart => ⟨apart.before, apart.after⟩, fun both => ⟨both.1, both.2⟩⟩

/-- The word around a place of a text, given by its line and the bytes before it. -/
theorem Caret.wordAt_eq (text : Text) (offset : Nat) :
    wordAt text ⟨(text.take offset).count (Text.byte '\n'), (text.lineBefore offset).length⟩ =
      (text.lineBefore offset).rtakeWhile isWordByte ++
        (text.lineAfter offset).takeWhile isWordByte := by
  have around : around? text
      ⟨(text.take offset).count (Text.byte '\n'), (text.lineBefore offset).length⟩ =
        some (text.lineBefore offset, text.lineAfter offset) := by
    rw [around?, Text.getElem?_lines, Option.map_some, List.take_left, List.drop_left]
  simp only [wordAt, wordBefore, around]
  rfl

/-- The word at a name with one byte for each character before it is the name, with the bytes of
words that touch it. -/
theorem Caret.wordAt_of_aligned {source : Text} {token : Token}
    (mem : token ∈ Scan.tokens source) (name : token.kind = .identifier)
    (aligned : token.Aligned source) :
    wordAt source (DocumentRange.caret token.position.line token.position.column) =
      (source.lineBefore token.position.offset).rtakeWhile isWordByte ++ (token.literal ++
        (source.lineAfter (token.position.offset + token.literal.length)).takeWhile
          isWordByte) := by
  obtain ⟨line, column⟩ := (Scan.exact_tokens source).placed token mem
  obtain ⟨-, rest, wordy⟩ := Scan.name_of_mem mem name
  have here : DocumentRange.caret token.position.line token.position.column =
      ⟨(source.take token.position.offset).count (Text.byte '\n'),
        (source.lineBefore token.position.offset).length⟩ := by
    have column : token.position.column =
        1 + (source.lineBefore token.position.offset).length := by
      rw [column, ← aligned]
      rfl
    rw [DocumentRange.caret, line, column, Text.lineAt, Caret.mk.injEq]
    omega
  rw [here, wordAt_eq, Text.lineAfter, rest,
    List.takeWhile_append_of_pos fun byte inside => by simpa using (wordy byte inside).2,
    List.takeWhile_append_of_pos fun byte inside => (wordy byte inside).1, Text.lineAfter]

/-- A marker starts at the place of its diagnostic. Of a name there it covers just the name when the
name stands apart, and only then, if the characters before it have one byte each. -/
theorem Marker.range_ofDiagnostic {source : Text} {diagnostic : Diagnostic} {token : Token}
    (mem : token ∈ Scan.tokens source) (name : token.kind = .identifier)
    (line : diagnostic.line = token.position.line)
    (column : diagnostic.column = token.position.column) :
    let range := (ofDiagnostic source diagnostic).range
    (range.start.line : Int) = diagnostic.line - 1 ∧
      (range.start.column : Int) = diagnostic.column - 1 ∧
        (token.Aligned source →
          (range = .ofLength range.start token.literal.length ↔ token.Apart source)) := by
  obtain ⟨first, second⟩ := (Scan.exact_tokens source).placed token mem
  have lines : 1 ≤ token.position.line := by
    rw [first, Text.lineAt]
    omega
  have columns : 1 ≤ token.position.column := by
    rw [second, Text.columnAt]
    omega
  refine ⟨?_, ?_, fun aligned => ?_⟩
  · show ((diagnostic.line - 1).toNat : Int) = diagnostic.line - 1
    omega
  · show ((diagnostic.column - 1).toNat : Int) = diagnostic.column - 1
    omega
  · have some := List.length_pos_iff.mpr (Scan.name_of_mem mem name).1
    have word := congrArg List.length (Caret.wordAt_of_aligned mem name aligned)
    rw [List.length_append, List.length_append] at word
    rw [Token.apart_iff, ← List.length_eq_zero_iff, ← List.length_eq_zero_iff
      (l := List.takeWhile _ _)]
    dsimp only [ofDiagnostic, DocumentRange.ofLength]
    rw [line, column, word]
    simp only [DocumentRange.mk.injEq, Caret.mk.injEq, true_and]
    omega

/-- The diagnostics of a document when all documents are built together. -/
def Documents.found (documents : Documents) (document : Text) : List Diagnostic :=
  (Build.ofSources (documents.sorted.map fun entry => ⟨entry.1, entry.2⟩)).diagnostics.filter
    fun diagnostic => diagnostic.file == document

/-- What is published for an open document are the markers of its diagnostics. -/
theorem Documents.mem_published {documents : Documents} {document text : Text}
    (opened : documents.text? document = some text)
    (notification : Notification) :
    notification ∈ documents.published ∧ notification.document = document ↔
      notification = ⟨document, (documents.found document).map (Marker.ofDiagnostic text)⟩ := by
  have entries : ∀ notification ∈ documents.published, notification =
      ⟨notification.document, (documents.found notification.document).map
        (Marker.ofDiagnostic ((documents.text? notification.document).getD []))⟩ := by
    intro notification mem
    simp only [published, notifications, Workspace.analyze, Option.getD_some, List.map_map,
      List.mem_map, Function.comp_apply] at mem
    obtain ⟨entry, -, rfl⟩ := mem
    rfl
  constructor
  · rintro ⟨mem, rfl⟩
    have same := entries notification mem
    rwa [opened, Option.getD_some] at same
  · rintro rfl
    have named : document ∈ documents.names := by
      refine text?_ne_none.mp ?_
      rw [opened]
      exact Option.some_ne_none text
    obtain ⟨found, mem, rfl⟩ := exists_mem_published named
    have same := entries found mem
    rw [opened, Option.getD_some] at same
    rw [← same]
    exact ⟨mem, rfl⟩

/-- Analysing the open documents publishes one list of markers for each, one marker for each
diagnostic of the document. -/
theorem LanguageServer.markers_of_analyze {server : LanguageServer}
    (runs : server.worker.stopped = false) (nothing : server.worker.queue = [])
    {document text : Text} (opened : server.documents.text? document = some text) :
    (∀ notification, notification ∈ server.analyze.1 ∧ notification.document = document ↔
      notification =
        ⟨document, (server.documents.found document).map (Marker.ofDiagnostic text)⟩) ∧
    ∀ diagnostic ∈ server.documents.found document, ∀ token ∈ Scan.tokens text,
      token.kind = .identifier → diagnostic.line = token.position.line →
      diagnostic.column = token.position.column →
        let range := (Marker.ofDiagnostic text diagnostic).range
        (range.start.line : Int) = diagnostic.line - 1 ∧
          (range.start.column : Int) = diagnostic.column - 1 ∧
            (token.Aligned text →
              (range = .ofLength range.start token.literal.length ↔ token.Apart text)) := by
  rw [analyze_eq runs nothing]
  exact ⟨Documents.mem_published opened, fun _ _ _ mem name line column =>
    Marker.range_ofDiagnostic mem name line column⟩

namespace LanguageServer

/-- A server with one open document. -/
def opening (text : Text) : LanguageServer := { documents := [("one.tin", text)] }

/-- A name that is not declared, with a character of two bytes on the line before. -/
theorem markers_of_analyze_accent :
    let text : Text := "// \u00e9\nfun main() \x7b missing; \x7d"
    let token : Token := ⟨.identifier, "missing", ⟨19, 2, 14⟩⟩
    let diagnostic : Diagnostic := ⟨"one.tin", 2, 14, "undefined: missing"⟩
    (opening text).worker.stopped = false ∧ (opening text).worker.queue = [] ∧
      (opening text).documents.text? "one.tin" = some text ∧
      diagnostic ∈ (opening text).documents.found "one.tin" ∧ token ∈ Scan.tokens text ∧
      token.Aligned text ∧ token.Apart text ∧
      (Marker.ofDiagnostic text diagnostic).range = ⟨⟨1, 13⟩, ⟨1, 20⟩⟩ ∧
      ⟨"one.tin", ((opening text).documents.found "one.tin").map (Marker.ofDiagnostic text)⟩ ∈
        (opening text).analyze.1 := by
  intro text token diagnostic
  have opened : (opening text).documents.text? "one.tin" = some text := by decide
  have known : diagnostic ∈ (opening text).documents.found "one.tin" ∧ token ∈ Scan.tokens text ∧
      (text.lineBefore 19).width = (text.lineBefore 19).length ∧
      (text.lineBefore 19).rtakeWhile Caret.isWordByte = [] ∧
      (text.lineAfter 26).takeWhile Caret.isWordByte = [] := by decide +kernel
  obtain ⟨found, mem, aligned, before, after⟩ := known
  have apart : token.Apart text := Token.apart_iff.mpr ⟨before, after⟩
  obtain ⟨published, marks⟩ := @markers_of_analyze (opening text) rfl rfl "one.tin" text opened
  obtain ⟨-, -, covers⟩ := marks diagnostic found token mem rfl rfl rfl
  exact ⟨rfl, rfl, opened, found, mem, aligned, apart, (covers aligned).mpr apart,
    ((published _).mpr rfl).1⟩

/-- A marker misses a name behind a character of two bytes, and takes in a digit before a name and
the first byte of a blank after it. -/
theorem not_covered_accent :
    let accent : Text := "fun main() \x7b /* \u00e9 */ missing; \x7d"
    let digit : Text := "fun main() \x7b 1missing; \x7d"
    let blank : Text := "fun main() \x7b missing\u00a0; \x7d"
    (⟨.identifier, "missing", ⟨22, 1, 22⟩⟩ ∈ Scan.tokens accent ∧
      (opening accent).analyze.1 = [⟨"one.tin", [⟨⟨⟨0, 21⟩, ⟨0, 22⟩⟩, "undefined: missing"⟩]⟩]) ∧
    (⟨.identifier, "missing", ⟨14, 1, 15⟩⟩ ∈ Scan.tokens digit ∧
      (opening digit).analyze.1 =
        [⟨"one.tin", [⟨⟨⟨0, 14⟩, ⟨0, 22⟩⟩, "expected ;, got IDENTIFIER(missing)"⟩]⟩]) ∧
    (⟨.identifier, "missing", ⟨13, 1, 14⟩⟩ ∈ Scan.tokens blank ∧
      (opening blank).analyze.1 =
        [⟨"one.tin", [⟨⟨⟨0, 13⟩, ⟨0, 21⟩⟩, "undefined: missing"⟩]⟩]) := by
  decide +kernel

end LanguageServer

end TinLang
