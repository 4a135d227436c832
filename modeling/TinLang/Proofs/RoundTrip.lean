import TinLang.Proofs.Build
import TinLang.Proofs.Grammar.Faithful

/-!
# Images and listings of built programs

What a build produces is sound in the sense that the image format needs, whatever bytes the sources
hold: names and strings come from tokens, which are UTF-8. Only the texts of source lines are taken
as they are. So the image of a built program is read back, with everything a run can observe, unless
it stores a line that is not UTF-8; then it is refused. Its pieces have canonical code, so the
listing of any of them is read back as well.
-/
namespace TinLang

open Build

variable {sources : List Source} {prog : Program} {piece : Piece}

namespace Image

/-- The read-back program is the program: its pieces, its data, its strings and, unless they were
left out, the lines of its cells. -/
structure Agrees (stripLines : Bool) (prog decoded : Program) : Prop where
  linked : decoded.linked
  names : decoded.pieces.map Piece.name = prog.pieces.map Piece.name
  codes : decoded.pieces.map Piece.code = prog.pieces.map Piece.code
  segment : decoded.segment = prog.segment
  strings : decoded.strings = prog.strings
  lines : stripLines = false → ∀ cell,
    decoded.pieces.map (Piece.line? · cell) = prog.pieces.map (Piece.line? · cell)

/-- A restored program agrees with the program. -/
theorem agrees_restored {stripLines : Bool} {strings : List InternedString}
    (same : strings.Perm prog.interned)
    (ordered : prog.interned.Pairwise fun left right => left.offset < right.offset) :
    Agrees stripLines prog (restored stripLines strings prog) where
  linked := rfl
  names := by simp [restored, restoredPiece, Function.comp_def]
  codes := by simp [restored, restoredPiece, Function.comp_def]
  segment := rfl
  strings := strings_restored same ordered
  lines := by
    rintro rfl cell
    simp [restored, Function.comp_def, line?_restoredPiece]

end Image

namespace Build

/-- The names and the strings of files that a build links are UTF-8. -/
theorem utf8_of_built (built : (ofSources sources).failure = none)
    {file : SourceFile} (known : file ∈ filesOf sources) :
    (∀ decl ∈ file.funcs, decl.name.isUtf8) ∧ ∀ text ∈ file.strings, text.isUtf8 := by
  obtain ⟨source, listed, rfl⟩ := source_of_mem_filesOf known
  exact SourceFile.utf8_of_clean (read_of_built built source listed)

/-- The pieces that a build links are sound, and a listing shows all there is in them; their names
are UTF-8. -/
theorem sound_unlinked (built : (ofSources sources).failure = none) :
    ∀ piece ∈ (unlinked (filesOf sources)).pieces, piece.name.isUtf8 ∧
      Shown (filesOf sources) piece := by
  intro piece mem
  obtain ⟨generated, _⟩ := runAll_tasks (filesOf sources)
  have inside : piece ∈ (Task.runAll (tasks (Checker.ofFiles (filesOf sources)).environment)
      (checked (Checker.ofFiles (filesOf sources)))).1 := by
    simpa [unlinked] using mem
  obtain ⟨index, bound, rfl⟩ := List.mem_iff_getElem.mp inside
  have known := generated.length_eq ▸ bound
  obtain ⟨sound, name⟩ := generated.get known bound
  refine ⟨?_, sound⟩
  rw [List.get_eq_getElem, List.get_eq_getElem] at name
  rw [name]
  obtain ⟨file, declared⟩ := (Checker.sound_ofFiles (filesOf sources)).functions _
    (List.getElem_mem known)
  exact (utf8_of_built built file).1 _ declared

/-- Linking keeps what the image format needs of a piece. -/
theorem pieceSound_link {functions : Nat}
    (name : piece.name.isUtf8) (sound : piece.Sound functions)
    (relocated : Program.Relocated prog piece.code piece.relocations
      (prog.linkPiece piece).1.code) :
    Image.PieceSound { (prog.linkPiece piece).1 with relocations := [] } where
  name := name
  code := relocated.wellFormed sound.code
  cells := sound.cells.trans relocated.size_eq.symm
  indices := sound.indices

/-- Linking keeps the interned strings of the checker. -/
theorem interned_of_built (built : (ofSources sources).failure = none) :
    (ofSources sources).program.interned =
      (Checker.ofFiles (filesOf sources)).program.interned := by
  obtain ⟨_, _, interned, _⟩ := Program.link_eq (link_of_built built)
  rw [interned, ← (runAll_tasks (filesOf sources)).2]
  rfl

/-- The strings of a program that is built stand at growing offsets. -/
theorem ordered_of_built (built : (ofSources sources).failure = none) :
    (ofSources sources).program.interned.Pairwise fun left right => left.offset < right.offset := by
  rw [interned_of_built built]
  exact (Checker.sound_ofFiles (filesOf sources)).strings.ordered

/-- A program that is built without a failure is sound. -/
theorem programSound_of_built (built : (ofSources sources).failure = none)
    (few : (ofSources sources).program.pieces.size < 2 ^ 31) :
    Image.ProgramSound (ofSources sources).program := by
  have done := link_of_built built
  obtain ⟨linked, _, _, pieces, relocated⟩ := Program.link_eq done
  have sound := sound_unlinked built
  have count : (unlinked (filesOf sources)).pieces.size =
      (ofSources sources).program.pieces.size := by
    rw [pieces, Array.size_map]
  have strings := (Checker.sound_ofFiles (filesOf sources)).strings
  refine ⟨linked, ?_, ?_, ?_⟩
  · intro piece mem
    rw [pieces, Array.mem_map] at mem
    obtain ⟨before, inside, rfl⟩ := mem
    exact pieceSound_link (sound before inside).1 (sound before inside).2.1
      (relocated before inside)
  · apply Program.linkError?_eq_none done
    · exact targetsPieces_unlinked (by omega)
    · exact fun piece inside => (sound piece inside).2.1
    · omega
  · rw [interned_of_built built]
    refine ⟨fun string mem => ?_, strings.distinct⟩
    obtain ⟨file, known, inside⟩ := strings.known string mem
    exact (utf8_of_built built known).2 _ inside

end Build

/-- With a lawful codec the image of a program that was built is read back as the program when the
lines it stores are UTF-8, and the read-back program has the same image. When they are not, the body
is refused. The numbers of the program have the types that images store them in, and its encoding
has a length that a host counts. -/
theorem Build.decode_image {codec : Image.Codec} (lawful : codec.Lawful)
    {stripLines : Bool} (built : (ofSources sources).failure = none)
    (few : (ofSources sources).program.pieces.size < 2 ^ 31)
    (typed : (Image.storedBody stripLines (ofSources sources).program).Typed)
    (short : codec.Short (Image.storedBody stripLines (ofSources sources).program)) :
    ∃ image, Image.encode? codec stripLines (ofSources sources).program = some image ∧
      (Image.LinesReadable stripLines (ofSources sources).program →
        ∃ decoded, Image.decode codec image = .ok decoded ∧
          Image.Agrees stripLines (ofSources sources).program decoded ∧
          Image.encode? codec stripLines decoded = some image) ∧
      (¬ Image.LinesReadable stripLines (ofSources sources).program →
        Image.decode codec image = .error .malformedBody) := by
  have sound := programSound_of_built built few
  obtain ⟨image, encoded, read, refused⟩ := Image.decode_encode? lawful sound typed short
  refine ⟨image, encoded, fun readable => ?_, refused⟩
  obtain ⟨strings, same, done⟩ := read readable
  refine ⟨_, done, Image.agrees_restored same (ordered_of_built built), ?_⟩
  rw [Image.encode?_restored lawful sound.linked typed same, encoded]

/-- A source with a string, a branch and calls between its functions. -/
def Build.countdown : List Source :=
  [⟨"count.tin", "fun main(): int \x7b return down(3); \x7d\n" ++
    "fun down(n: int): int \x7b\n  if n < 1 \x7b prints(\"end\"); return n; \x7d\n" ++
    "  return down(n - 1);\n\x7d\n"⟩]

/-- A source with a byte in a comment that is not UTF-8. -/
def Build.commented : List Source :=
  [⟨"note.tin", Text.ofString "fun main() \x7b \x7d // " ++ [0xff]⟩]

/-- The image of a small program reads back as its program. -/
theorem Build.decode_image_countdown :
    (Image.Codec.cbor (2 ^ 64)).Lawful ∧ (ofSources countdown).failure = none ∧ ∃ image,
      Image.encode? (.cbor (2 ^ 64)) false (ofSources countdown).program = some image ∧
        ∃ decoded, Image.decode (.cbor (2 ^ 64)) image = .ok decoded ∧
          Image.Agrees false (ofSources countdown).program decoded ∧
          Image.encode? (.cbor (2 ^ 64)) false decoded = some image := by
  have built : (ofSources countdown).failure = none := by decide +kernel
  have few : (ofSources countdown).program.pieces.size < 2 ^ 31 := by decide +kernel
  have typed : (Image.storedBody false (ofSources countdown).program).Typed :=
    ⟨by decide +kernel, by decide +kernel, by decide +kernel⟩
  have short : (Image.Codec.cbor (2 ^ 64)).Short
      (Image.storedBody false (ofSources countdown).program) :=
    ⟨by decide +kernel, by decide +kernel⟩
  have readable : Image.LinesReadable false (ofSources countdown).program := by decide +kernel
  obtain ⟨image, encoded, read, _⟩ := decode_image Image.lawful_cbor built few typed short
  exact ⟨Image.lawful_cbor, built, image, encoded, read readable⟩

/-- A build accepts what no lawful codec reads back from the image of its program. -/
theorem Build.refused_image_commented :
    (Image.Codec.cbor (2 ^ 64)).Lawful ∧ (ofSources commented).failure = none ∧ ∃ image,
      Image.encode? (.cbor (2 ^ 64)) false (ofSources commented).program = some image ∧
        Image.decode (.cbor (2 ^ 64)) image = .error .malformedBody := by
  have built : (ofSources commented).failure = none := by decide +kernel
  have few : (ofSources commented).program.pieces.size < 2 ^ 31 := by decide +kernel
  have typed : (Image.storedBody false (ofSources commented).program).Typed :=
    ⟨by decide +kernel, by decide +kernel, by decide +kernel⟩
  have short : (Image.Codec.cbor (2 ^ 64)).Short
      (Image.storedBody false (ofSources commented).program) :=
    ⟨by decide +kernel, by decide +kernel⟩
  have unreadable : ¬ Image.LinesReadable false (ofSources commented).program := by decide +kernel
  obtain ⟨image, encoded, _, refused⟩ :=
    Image.decode_encode? Image.lawful_cbor (programSound_of_built built few) typed short
  exact ⟨Image.lawful_cbor, built, image, encoded, refused unreadable⟩

namespace Build

/-- The generators of a build that links report nothing. -/
theorem quiet_of_built (built : (ofSources sources).failure = none) :
    (Task.runAll (tasks (Checker.ofFiles (filesOf sources)).environment)
      (checked (Checker.ofFiles (filesOf sources)))).2.diagnostics = #[] := by
  rw [ofSources_eq_ofRead] at built
  unfold ofRead ofFiles finish ended at built
  split at built
  · dsimp only at built
    split at built
    · contradiction
    split at built
    · next none => exact Array.toList_eq_nil_iff.mp none
    · contradiction
  · contradiction

/-- A check of files that a build links reports nothing. -/
theorem clean_of_built (built : (ofSources sources).failure = none) :
    (Checker.ofFiles (filesOf sources)).problems = #[] := by
  have clean := Task.clean_of_runAll (quiet_of_built built)
  simpa [checked] using clean

end Build

namespace Piece

/-- A jump that leads to a label of a piece whose cells have 32-bit numbers leads to a cell with
such a number. -/
theorem Lands.bounded {barrier cell size : Nat} {value : BitVec 32}
    (lands : Lands barrier cell value) (labels : barrier ≤ size) (inside : cell + 1 < size)
    (small : size < 2 ^ 31) :
    -2 ^ 31 ≤ (cell : Int) + 1 + value.toInt ∧ (cell : Int) + 1 + value.toInt < 2 ^ 31 := by
  obtain ⟨target, place, rfl⟩ := lands
  have reached : target ≤ size := by omega
  have exact' : (BitVec.ofInt 32 ((target : Int) - (cell + 1))).toInt = target - (cell + 1) := by
    rw [BitVec.toInt_ofInt, Int.bmod_eq_of_le (by omega) (by omega)]
  rw [exact']
  omega

/-- Linking fills in only calls, so a linked piece has canonical code. -/
theorem Sound.canonical {linked : Program} {code : Code} {functions : Nat}
    (sound : piece.Sound functions)
    (fields : ∀ instr, .instruction instr ∈ piece.code → instr.Canonical)
    (formed : code.WellFormed)
    (relocated : Program.Relocated prog piece.code piece.relocations code)
    (calls : Image.CallsTargeted linked { piece with code, relocations := [] })
    (small : piece.size < 2 ^ 31) :
    Canonical linked { piece with code, relocations := [] } where
  formed := formed
  fields := by
    intro instr mem
    obtain ⟨cell, found⟩ := Array.mem_iff_getElem?.mp mem
    exact fields instr
      (Array.mem_of_getElem? (relocated.instruction_iff.mp found))
  calls := calls
  jumps := by
    intro cell instr imm found jump next
    have before := relocated.instruction_iff.mp found
    have apart : ∀ reloc ∈ piece.relocations, reloc.cell ≠ cell + 1 := by
      intro reloc mem same
      obtain ⟨call, there, op, -⟩ := sound.vacant reloc mem
      rw [same, Nat.add_sub_cancel] at there
      obtain rfl : instr = call := by simpa [before] using there
      rcases jump with jump | jump <;> rw [op] at jump <;> contradiction
    have kept : piece.code[cell + 1]? = some (.immediate imm) :=
      (relocated.getElem?_eq apart).symm.trans next
    exact (sound.jumps cell instr imm before jump kept).bounded sound.labels
      (Array.getElem?_eq_some_iff.mp kept).1 small
  texts := sound.texts

end Piece

namespace Build

/-- The pieces of a program that is built have canonical code when its pieces and their cells have
32-bit numbers. -/
theorem canonical_of_built (built : (ofSources sources).failure = none)
    (few : (ofSources sources).program.pieces.size < 2 ^ 31)
    (mem : piece ∈ (ofSources sources).program.pieces) (small : piece.size < 2 ^ 31) :
    piece.Canonical (ofSources sources).program := by
  have sound := programSound_of_built built few
  obtain ⟨_, _, _, pieces, relocated⟩ := Program.link_eq (link_of_built built)
  have formed := (sound.pieces piece mem).code
  have calls := Image.callsTargeted_of_linkError? mem formed sound.calls
  rw [pieces, Array.mem_map] at mem
  obtain ⟨before, inside, rfl⟩ := mem
  have filled := relocated before inside
  obtain ⟨-, generated, fields⟩ := sound_unlinked built before inside
  refine generated.canonical (fun instr there => fields instr there (clean_of_built built))
    formed filled calls ?_
  rw [Piece.size, ← filled.size_eq]
  exact small

end Build

/-- The listing of a piece with canonical code, assembled into its linked program under a name that
is not used yet, is a piece with the same code; and every piece of a program that is built has
canonical code, as far as its pieces and their cells can be numbered in the immediates of calls and
jumps. -/
theorem Listing.assemble_ofPiece :
    (∀ (prog : Program) (piece : Piece) (name : Text), prog.Distinguished →
      piece ∈ prog.pieces → piece.Canonical prog → piece.size ≤ 2 ^ 63 →
      (∀ line ∈ Text.splitAt (Text.byte '\n') (ofPiece (some prog) prog.targets piece),
        line.length < lineBuffer) →
      (∀ other ∈ prog.pieces, other.name ≠ name) →
      ∃ assembled, prog.assemble name (ofPiece (some prog) prog.targets piece) =
          ({ prog with pieces := prog.pieces.push assembled }, prog.pieces.size, none) ∧
        assembled.name = name ∧ assembled.code = piece.code) ∧
    ∀ sources : List Source, (Build.ofSources sources).failure = none →
      (Build.ofSources sources).program.pieces.size < 2 ^ 31 →
      ∀ piece ∈ (Build.ofSources sources).program.pieces, piece.size < 2 ^ 31 →
        piece.Canonical (Build.ofSources sources).program := by
  constructor
  · intro prog piece name distinguished mem canonical small short fresh
    exact assemble_eq distinguished mem canonical fresh small short
  · intro sources built few piece mem small
    exact Build.canonical_of_built built few mem small

/-- The second function of a program with a string, a branch and calls between its functions is
read back under another name. -/
theorem Listing.assemble_ofPiece_countdown :
    (Build.ofSources Build.countdown).program.Distinguished ∧
    ∃ piece, (Build.ofSources Build.countdown).program.pieces[1]? = some piece ∧
      piece.Canonical (Build.ofSources Build.countdown).program ∧
      ∃ assembled, (Build.ofSources Build.countdown).program.assemble "again"
          (ofPiece (some (Build.ofSources Build.countdown).program)
            (Build.ofSources Build.countdown).program.targets piece) =
          ({ (Build.ofSources Build.countdown).program with
            pieces := (Build.ofSources Build.countdown).program.pieces.push assembled }, 2, none) ∧
        assembled.code = piece.code := by
  obtain ⟨readBack, canonical⟩ := assemble_ofPiece
  have built : (Build.ofSources Build.countdown).failure = none := by decide +kernel
  have count : (Build.ofSources Build.countdown).program.pieces.size = 2 := by decide +kernel
  have distinguished : (Build.ofSources Build.countdown).program.Distinguished :=
    ⟨by decide +kernel, by decide +kernel, by decide +kernel, by decide +kernel, by decide +kernel⟩
  have small : ∀ piece ∈ (Build.ofSources Build.countdown).program.pieces, piece.size < 2 ^ 31 := by
    decide +kernel
  have short : ∀ piece ∈ (Build.ofSources Build.countdown).program.pieces,
      ∀ line ∈ Text.splitAt (Text.byte '\n') (ofPiece
        (some (Build.ofSources Build.countdown).program)
        (Build.ofSources Build.countdown).program.targets piece),
      line.length < lineBuffer := by decide +kernel
  have fresh : ∀ other ∈ (Build.ofSources Build.countdown).program.pieces,
      other.name ≠ "again" := by decide +kernel
  have two := Nat.lt_of_lt_of_eq Nat.one_lt_two count.symm
  obtain ⟨piece, found⟩ : ∃ piece,
      (Build.ofSources Build.countdown).program.pieces[1]? = some piece :=
    ⟨_, Array.getElem?_eq_getElem two⟩
  have mem := Array.mem_of_getElem? found
  have shown := canonical _ built (by omega) piece mem (small piece mem)
  obtain ⟨assembled, done, _, code⟩ := readBack _ piece "again" distinguished mem shown
    (Nat.le_of_lt (Nat.lt_trans (small piece mem) (by omega))) (short piece mem) fresh
  rw [count] at done
  exact ⟨distinguished, piece, found, shown, assembled, done, code⟩

end TinLang
