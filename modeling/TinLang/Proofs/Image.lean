import Mathlib.Algebra.Group.Int.Defs
import Mathlib.Algebra.Group.Nat.Defs
import TinLang.Image
import TinLang.Proofs.Code

/-!
# Images read back

A codec is lawful when it reads back what it writes as long as all texts are UTF-8, refuses what
holds another text, and reads only numbers of the types that they are stored in
(`Codec.Lawful`). With a lawful codec the image of a program that is sound is read back exactly when
every text in it is UTF-8: the names of its pieces, its interned strings and, unless they are left
out, its source lines. What is read back has the same pieces, data and strings, and the same image.
-/
namespace TinLang

/-- Every item succeeds with what it gives, so all of them do. -/
theorem mapM_eq_pure {m : Type → Type} [Monad m] [LawfulMonad m] {α β : Type} {read : α → m β}
    {result : α → β} {items : List α} (each : ∀ item ∈ items, read item = pure (result item)) :
    items.mapM read = pure (items.map result) := by
  induction items with
  | nil => simp
  | cons item items ih =>
    have first := each item (by simp)
    have others := ih fun other mem => each other (by simp [mem])
    simp [List.mapM_cons, first, others]

namespace Image

/-- The parts of an outer record have the sizes that they are stored in. -/
structure File.Typed (file : File) : Prop where
  mark : file.mark.length = 4
  version : file.version < 2 ^ 32
  digest : file.digest.length = 32

/-- The numbers of a stored piece have the types that they are stored in. -/
structure StoredPiece.Typed (piece : StoredPiece) : Prop where
  numbers : ∀ line ∈ piece.lines, -2 ^ 63 ≤ line.number ∧ line.number < 2 ^ 63
  indices : ∀ index ∈ piece.lineOf, -2 ^ 31 ≤ index ∧ index < 2 ^ 31

instance (piece : StoredPiece) : Decidable piece.Typed :=
  decidable_of_iff ((∀ line ∈ piece.lines, -2 ^ 63 ≤ line.number ∧ line.number < 2 ^ 63) ∧
      ∀ index ∈ piece.lineOf, -2 ^ 31 ≤ index ∧ index < 2 ^ 31)
    ⟨fun parts => ⟨parts.1, parts.2⟩, fun typed => ⟨typed.numbers, typed.indices⟩⟩

/-- The numbers of a body have the types that they are stored in, and its strings differ. -/
structure Body.Typed (body : Body) : Prop where
  pieces : ∀ piece ∈ body.pieces, piece.Typed
  offsets : ∀ string ∈ body.strings, -2 ^ 63 ≤ string.offset ∧ string.offset < 2 ^ 63
  distinct : (body.strings.map InternedString.text).Nodup

/-- The texts of a stored piece are UTF-8. -/
def StoredPiece.isUtf8 (piece : StoredPiece) : Bool :=
  piece.name.isUtf8 && piece.lines.all fun line => line.text.isUtf8

/-- The texts of a body are UTF-8. -/
def Body.isUtf8 (body : Body) : Bool :=
  body.pieces.all StoredPiece.isUtf8 && body.strings.all fun string => string.text.isUtf8

/-- Two bodies are the same but for the order of their strings. -/
structure Body.Same (body other : Body) : Prop where
  pieces : other.pieces = body.pieces
  segment : other.segment = body.segment
  strings : other.strings.Perm body.strings

/-- What is known of a codec: it reads back what it writes and returns only what has the types of
the records, with texts that are UTF-8. -/
structure Codec.Lawful (codec : Codec) : Prop where
  readFile : ∀ file : File, file.Typed → (codec.writeFile file).length < 2 ^ 63 →
    codec.readFile? (codec.writeFile file) = some file
  readBody : ∀ body : Body, body.Typed → body.isUtf8 → (codec.writeBody body).length < 2 ^ 63 →
    ∃ read, codec.readBody? (codec.writeBody body) = some read ∧ body.Same read
  refuses : ∀ body : Body, body.Typed → body.isUtf8 = false →
    (codec.writeBody body).length < 2 ^ 63 → codec.readBody? (codec.writeBody body) = none
  typed : ∀ bytes body, codec.readBody? bytes = some body → body.Typed ∧ body.isUtf8
  /-- The strings have no order. -/
  order : ∀ body other : Body, body.Typed → body.Same other →
    codec.writeBody other = codec.writeBody body

/-- The encodings of a body and of the record around it have lengths that a host counts. -/
structure Codec.Short (codec : Codec) (body : Body) : Prop where
  inner : (codec.writeBody body).length < 2 ^ 63
  outer : (codec.writeFile (fileOf (codec.writeBody body))).length < 2 ^ 63

/-- A line index survives its encoding. -/
theorem lineIndex_elim (index? : Option Nat) :
    lineIndex (index?.elim (-1) fun index => (index : Int)) = index? := by
  cases index? with
  | none => rfl
  | some index =>
    have positive : ¬ (index : Int) = -1 := by omega
    simp [lineIndex, positive]

/-- A piece whose code and line table belong together. -/
structure PieceSound (piece : Piece) : Prop where
  /-- The name is UTF-8. -/
  name : piece.name.isUtf8
  /-- The code is well formed. -/
  code : piece.code.WellFormed
  /-- Every cell has its entry in the line table. -/
  cells : piece.lineOf.size = piece.size
  /-- Every entry names a line. -/
  indices : ∀ index, some index ∈ piece.lineOf → index < piece.lines.size

/-- Every stored line of a piece is UTF-8. -/
def Readable (stripLines : Bool) (piece : Piece) : Prop :=
  kept stripLines piece → ∀ line ∈ piece.lines, line.text.isUtf8

instance (stripLines : Bool) (piece : Piece) : Decidable (Readable stripLines piece) :=
  inferInstanceAs (Decidable (kept stripLines piece → ∀ line ∈ piece.lines, line.text.isUtf8))

/-- A piece as it is read back. -/
def restoredPiece (stripLines : Bool) (piece : Piece) : Piece where
  name := piece.name
  code := piece.code
  lines := if kept stripLines piece then piece.lines else #[]
  lineOf := if kept stripLines piece then piece.lineOf else Array.replicate piece.size none

/-- A stored piece is restored. -/
theorem restore_storedPiece {stripLines : Bool} {piece : Piece} (sound : PieceSound piece) :
    (storedPiece stripLines piece).restore = .ok (restoredPiece stripLines piece) := by
  have decoded : Code.decode (storedPiece stripLines piece).code = .ok piece.code :=
    Code.decode_encode sound.code
  rw [StoredPiece.restore, decoded]
  cases stored : kept stripLines piece with
  | false =>
    by_cases empty : piece.code.size = 0
    · simp [storedPiece, restoredPiece, stored, empty, Piece.size]
    · have differ : ¬ 0 = piece.code.size := fun same => empty same.symm
      simp [storedPiece, restoredPiece, stored, differ, Piece.size]
  | true =>
    have whole : (storedPiece stripLines piece).lineOf.length = piece.code.size := by
      have cells := sound.cells
      simpa [storedPiece, stored, Piece.size] using cells
    have valid : (storedPiece stripLines piece).lineOf.find? (fun index =>
        decide (index < -1 ∨ ((storedPiece stripLines piece).lines.length : Int) ≤ index)) =
          none := by
      rw [List.find?_eq_none]
      intro index mem
      simp only [storedPiece, stored, ↓reduceIte, List.mem_map, Array.mem_toList_iff] at mem
      obtain ⟨index?, inside, rfl⟩ := mem
      cases index? with
      | none =>
        simp only [storedPiece, stored, ↓reduceIte, Option.elim_none, Array.length_toList,
          decide_eq_true_eq, not_or]
        omega
      | some index =>
        have bound := sound.indices index inside
        simp only [storedPiece, stored, ↓reduceIte, Option.elim_some, Array.length_toList,
          decide_eq_true_eq, not_or]
        omega
    simp only [whole, ↓reduceIte, valid]
    simp [storedPiece, restoredPiece, stored, List.map_map, Function.comp_def, lineIndex_elim]

/-- The interned strings are different UTF-8 texts. -/
structure StringsSound (strings : List InternedString) : Prop where
  /-- Every text is UTF-8. -/
  utf8 : ∀ string ∈ strings, string.text.isUtf8
  /-- The texts differ. -/
  distinct : (strings.map InternedString.text).Nodup

/-- The parts of a program belong together as the parts of a linked program do. -/
structure ProgramSound (prog : Program) : Prop where
  /-- Calls are filled in. -/
  linked : prog.linked
  /-- Every piece is sound. -/
  pieces : ∀ piece ∈ prog.pieces, PieceSound piece
  /-- Every call has a target. -/
  calls : linkError? prog = none
  /-- The interned strings are sound. -/
  strings : StringsSound prog.interned

/-- A program as it is read back, with its strings in some order. -/
def restored (stripLines : Bool) (strings : List InternedString) (prog : Program) : Program where
  pieces := prog.pieces.map (restoredPiece stripLines)
  segment := prog.segment
  interned := strings
  linked := true

variable {codec : Codec} {stripLines : Bool} {prog : Program} {strings : List InternedString}

/-- Every stored line of a program is UTF-8. -/
def LinesReadable (stripLines : Bool) (prog : Program) : Prop :=
  ∀ piece ∈ prog.pieces, Readable stripLines piece

instance (stripLines : Bool) (prog : Program) : Decidable (LinesReadable stripLines prog) :=
  inferInstanceAs (Decidable (∀ piece ∈ prog.pieces, Readable stripLines piece))

/-- Calls have targets whatever becomes of the line tables. -/
theorem linkError?_restored (stripLines : Bool) (prog : Program)
    (strings : List InternedString) : linkError? (restored stripLines strings prog) =
    linkError? prog := by
  have each : ∀ piece : Piece, ∀ cell : Nat,
      callError? prog.pieces.size (restoredPiece stripLines piece) cell =
        callError? prog.pieces.size piece cell := fun _ _ => rfl
  simp only [linkError?, restored, Array.toList_map, List.findSome?_map, Array.size_map,
    Function.comp_def]
  rfl

/-- The texts of a sound piece are UTF-8 when its stored lines are. -/
theorem isUtf8_storedPiece {piece : Piece} (sound : PieceSound piece) :
    (storedPiece stripLines piece).isUtf8 ↔ Readable stripLines piece := by
  cases stored : kept stripLines piece with
  | false => simp [StoredPiece.isUtf8, storedPiece, Readable, stored, sound.name]
  | true =>
    simp only [StoredPiece.isUtf8, storedPiece, Readable, stored, sound.name, Bool.true_and,
      ↓reduceIte, List.all_eq_true, Array.mem_toList_iff, true_imp_iff]

/-- The texts of a sound program are UTF-8 when its stored lines are. -/
theorem isUtf8_storedBody (sound : ProgramSound prog) :
    (storedBody stripLines prog).isUtf8 ↔ LinesReadable stripLines prog := by
  have strings : prog.interned.all (fun string => string.text.isUtf8) = true :=
    List.all_eq_true.mpr sound.strings.utf8
  rw [Body.isUtf8, storedBody]
  simp only [strings, Bool.and_true, List.all_map, List.all_eq_true, Array.mem_toList_iff]
  exact forall₂_congr fun piece inside => isUtf8_storedPiece (sound.pieces piece inside)

/-- A stored program is restored, whatever the order of its strings. -/
theorem restore_same (sound : ProgramSound prog) {body : Body}
    (same : (storedBody stripLines prog).Same body) :
    body.restore = .ok (restored stripLines body.strings prog) := by
  obtain ⟨pieces, segment, strings⟩ := body
  obtain ⟨rfl, rfl, -⟩ := same
  have all : (storedBody stripLines prog).pieces.mapM StoredPiece.restore =
      .ok (prog.pieces.toList.map (restoredPiece stripLines)) := by
    have each : ∀ piece ∈ prog.pieces.toList,
        (storedPiece stripLines piece).restore = .ok (restoredPiece stripLines piece) :=
      fun piece mem => restore_storedPiece (sound.pieces piece (by simpa using mem))
    simp only [storedBody, List.mapM_map, Function.comp_def]
    exact mapM_eq_pure each
  have calls : linkError? (restored stripLines strings prog) = none := by
    rw [linkError?_restored, sound.calls]
  have whole : (⟨(prog.pieces.toList.map (restoredPiece stripLines)).toArray, #[],
      (storedBody stripLines prog).segment.map List.toArray, strings, true⟩ : Program) =
        restored stripLines strings prog := by
    simp [restored, storedBody, Function.comp_def]
    rw [← Array.toList_map]
  rw [Body.restore]
  simp only [all, bind, Except.bind, whole, calls]

/-- Reading an image comes down to reading its body. -/
theorem decode_writeFile (lawful : codec.Lawful) {body : Body} (short : codec.Short body) :
    decode codec (codec.writeFile (fileOf (codec.writeBody body))) =
      match codec.readBody? (codec.writeBody body) with
      | none => .error .malformedBody
      | some body => body.restore := by
  have typed : (fileOf (codec.writeBody body)).Typed :=
    ⟨show mark.length = 4 by decide, show version < 2 ^ 32 by decide, Sha256.length_hash _⟩
  rw [decode, lawful.readFile _ typed short.outer]
  cases read : codec.readBody? (codec.writeBody body) <;> simp [fileOf, read]

/-- The image of a sound program is read back exactly when its stored lines are UTF-8: what is read
is then the program as it is restored, and otherwise the body is malformed. -/
theorem decode_encode? (lawful : codec.Lawful) (sound : ProgramSound prog)
    (typed : (storedBody stripLines prog).Typed)
    (short : codec.Short (storedBody stripLines prog)) :
    ∃ image, encode? codec stripLines prog = some image ∧
      (LinesReadable stripLines prog → ∃ strings, strings.Perm prog.interned ∧
        decode codec image = .ok (restored stripLines strings prog)) ∧
      (¬ LinesReadable stripLines prog → decode codec image = .error .malformedBody) := by
  have whole := decode_writeFile lawful short
  refine ⟨_, if_pos sound.linked, fun readable => ?_, fun unreadable => ?_⟩
  · obtain ⟨body, read, same⟩ :=
      lawful.readBody _ typed ((isUtf8_storedBody sound).mpr readable) short.inner
    rw [read] at whole
    exact ⟨body.strings, same.strings, whole.trans (restore_same sound same)⟩
  · have broken : (storedBody stripLines prog).isUtf8 = false :=
      Bool.eq_false_iff.mpr fun valid => unreadable ((isUtf8_storedBody sound).mp valid)
    rw [lawful.refuses _ typed broken short.inner] at whole
    exact whole

/-- The line table of a restored piece is stored when that of the piece was. -/
theorem kept_restoredPiece (stripLines : Bool) (piece : Piece) :
    kept stripLines (restoredPiece stripLines piece) = kept stripLines piece := by
  cases keep : kept stripLines piece with
  | false =>
    have empty : (restoredPiece stripLines piece).lines = #[] := by simp [restoredPiece, keep]
    simp [kept, empty]
  | true =>
    have same : (restoredPiece stripLines piece).lines = piece.lines := by
      simp [restoredPiece, keep]
    rw [kept, same]
    exact keep

/-- A restored piece is stored as the piece was. -/
theorem storedPiece_restoredPiece (stripLines : Bool) (piece : Piece) :
    storedPiece stripLines (restoredPiece stripLines piece) = storedPiece stripLines piece := by
  rw [storedPiece, storedPiece, kept_restoredPiece]
  cases keep : kept stripLines piece <;> simp [restoredPiece, keep]

/-- A restored program has the image of the program. -/
theorem encode?_restored (lawful : codec.Lawful) (linked : prog.linked)
    (typed : (storedBody stripLines prog).Typed) (same : strings.Perm prog.interned) :
    encode? codec stripLines (restored stripLines strings prog) =
      encode? codec stripLines prog := by
  have stored : (storedBody stripLines prog).Same
      (storedBody stripLines (restored stripLines strings prog)) :=
    ⟨by simp [storedBody, restored, storedPiece_restoredPiece], rfl, same⟩
  have again : (restored stripLines strings prog).linked := rfl
  rw [encode?, encode?, if_pos linked, if_pos again, lawful.order _ _ typed stored]

/-- A restored program lists the strings of the program, when their offsets grow. -/
theorem strings_restored (same : strings.Perm prog.interned)
    (ordered : prog.interned.Pairwise fun left right => left.offset < right.offset) :
    (restored stripLines strings prog).strings = prog.strings := by
  have sorted : ∀ strings : List InternedString, (strings.mergeSort fun left right =>
      decide (left.offset ≤ right.offset)).Pairwise fun left right =>
        left.offset ≤ right.offset := by
    intro strings
    have ordered := List.pairwise_mergeSort (fun first second third : InternedString =>
      show decide (first.offset ≤ second.offset) → decide (second.offset ≤ third.offset) →
        decide (first.offset ≤ third.offset) by simpa using Int.le_trans)
      (fun left right => by simpa using Int.le_total left.offset right.offset) strings
    simpa using ordered
  have equal : ∀ left ∈ prog.interned, ∀ right ∈ prog.interned,
      left.offset = right.offset → left = right := by
    intro left leftMember right rightMember
    refine List.Pairwise.forall_of_forall_of_flip (R := fun left right : InternedString =>
      left.offset = right.offset → left = right) ?_ ?_ ?_ leftMember rightMember
    · exact fun _ _ _ => rfl
    · exact ordered.imp fun before equal => by omega
    · exact ordered.imp fun before equal => by omega
  have perm : (restored stripLines strings prog).strings.Perm prog.strings :=
    ((List.mergeSort_perm _ _).trans same).trans
      (List.mergeSort_perm _ _).symm
  refine perm.eq_of_pairwise ?_ (sorted _) (sorted _)
  intro left right leftMember rightMember first second
  have leftInside := (perm.trans (List.mergeSort_perm _ _)).mem_iff.mp leftMember
  have rightInside := (List.mergeSort_perm _ _).mem_iff.mp rightMember
  exact equal left leftInside right rightInside (Int.le_antisymm first second)

/-- A restored piece has the lines of the piece. -/
theorem line?_restoredPiece (piece : Piece) (index : Int) :
    (restoredPiece false piece).line? index = piece.line? index := by
  cases keep : kept false piece with
  | true => simp [Piece.line?, restoredPiece, keep]
  | false =>
    have empty : piece.lines = #[] := by simpa [kept] using keep
    have none : ∀ piece : Piece, piece.lines = #[] → piece.line? index = none := by
      intro piece empty
      simp [Piece.line?, empty]
    rw [none piece empty, none _ (by simp [restoredPiece, keep])]

end Image

end TinLang
