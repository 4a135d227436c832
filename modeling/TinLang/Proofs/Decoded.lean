import TinLang.Proofs.Machine.Confinement
import TinLang.Proofs.Records

/-!
# Decoded programs

What an image decodes to is well formed: the code of every piece, its line table and the targets of
its calls. Its numbers and texts are those that a codec can store, so its own image is read back as
the same program (`ProgramDecoded.decode_of_encode?`). Its listing and its runs look up only what is
there.
-/
namespace TinLang

namespace Image

/-- What a decoder gives of a piece. -/
structure PieceDecoded (piece : Piece) : Prop where
  sound : PieceSound piece
  typed : (storedPiece false piece).Typed
  readable : Readable false piece
  /-- Nothing of the piece is lost when it is stored. -/
  whole : restoredPiece false piece = piece

/-- A piece without lines has no entry in its line table. -/
theorem lineOf_of_no_lines {piece : Piece} (sound : PieceSound piece) (none : piece.lines = #[]) :
    piece.lineOf = Array.replicate piece.size Option.none := by
  rw [Array.eq_replicate_iff]
  refine ⟨sound.cells, fun entry mem => ?_⟩
  cases entry with
  | none => rfl
  | some index =>
    have inside := sound.indices index mem
    simp [none] at inside

/-- A sound piece is restored as it is. -/
theorem PieceDecoded.of_parts {name : Text} {code : Code} {lines : Array SourceLine}
    {lineOf : Array (Option Nat)} (sound : PieceSound { name, code, lines, lineOf }) :
    restoredPiece false { name, code, lines, lineOf } = { name, code, lines, lineOf } := by
  cases keep : kept false { name, code, lines, lineOf } with
  | true => simp [restoredPiece, keep]
  | false =>
    have empty : lines = #[] := by simpa [kept] using keep
    have blank := lineOf_of_no_lines sound empty
    simp only at blank
    simp only [restoredPiece, keep, Bool.false_eq_true, ↓reduceIte]
    rw [← blank, empty]

/-- A piece is stored with the types that its parts were read with. -/
theorem typed_storedPiece {piece : Piece}
    (numbers : ∀ line ∈ piece.lines, -2 ^ 63 ≤ line.number ∧ line.number < 2 ^ 63)
    (indices : ∀ index, some index ∈ piece.lineOf → index < 2 ^ 31) :
    (storedPiece false piece).Typed := by
  cases keep : kept false piece with
  | false => exact ⟨by simp [storedPiece, keep], by simp [storedPiece, keep]⟩
  | true =>
    refine ⟨by simpa [storedPiece, keep] using numbers, fun index mem => ?_⟩
    simp only [storedPiece, keep, ↓reduceIte, List.mem_map, Array.mem_toList_iff] at mem
    obtain ⟨entry, inside, rfl⟩ := mem
    cases entry with
    | none => exact ⟨by decide, by decide⟩
    | some index =>
      have small := indices index inside
      exact ⟨by simp only [Option.elim_some]; omega, by simp only [Option.elim_some]; omega⟩

/-- A piece that is restored is well formed. -/
theorem StoredPiece.decoded_restore {stored : StoredPiece} {piece : Piece} (typed : stored.Typed)
    (utf8 : stored.isUtf8) (done : stored.restore = .ok piece) : PieceDecoded piece := by
  rw [StoredPiece.isUtf8, Bool.and_eq_true, List.all_eq_true] at utf8
  unfold restore at done
  cases decoded : Code.decode stored.code with
  | error cause => simp [decoded] at done
  | ok code =>
    have formed := Code.wellFormed_of_decode decoded
    simp only [decoded] at done
    split at done
    · rename_i size
      split at done
      · contradiction
      · rename_i valid
        obtain rfl := Except.ok.inj done
        have entry : ∀ index, some index ∈ (stored.lineOf.map lineIndex).toArray →
            index < stored.lines.length ∧ index < 2 ^ 31 := by
          intro index mem
          have listed : some index ∈ stored.lineOf.map lineIndex := by simpa using mem
          obtain ⟨number, inside, same⟩ := List.mem_map.mp listed
          have small := (typed.indices number inside).2
          have bounds := List.find?_eq_none.mp valid number inside
          simp only [decide_eq_true_eq, not_or] at bounds
          unfold lineIndex at same
          split at same
          · contradiction
          · obtain rfl := Option.some.inj same
            omega
        have sound : PieceSound
            { name := stored.name
              code := code
              lines := stored.lines.toArray
              lineOf := (stored.lineOf.map lineIndex).toArray } :=
          ⟨utf8.1, formed, by simpa [Piece.size] using size, fun index mem => by
            simpa using (entry index mem).1⟩
        exact ⟨sound, typed_storedPiece (by simpa using typed.numbers)
          fun index mem => (entry index mem).2, fun _ => by simpa using utf8.2,
          PieceDecoded.of_parts sound⟩
    · obtain rfl := Except.ok.inj done
      have sound : PieceSound
          { name := stored.name, code := code, lineOf := Array.replicate code.size none } :=
        ⟨utf8.1, formed, by simp [Piece.size], by simp⟩
      exact ⟨sound, typed_storedPiece (by simp) (by simp), fun _ => by simp,
        PieceDecoded.of_parts sound⟩

/-- What a decoder gives of a program. -/
structure ProgramDecoded (prog : Program) : Prop where
  sound : ProgramSound prog
  typed : (storedBody false prog).Typed
  pieces : ∀ piece ∈ prog.pieces, PieceDecoded piece
  /-- Calls refer to pieces and natives only. -/
  targets : prog.targets = #[]

/-- Pieces that are restored one by one come from stored ones. -/
theorem mem_of_restore {stored : List StoredPiece} {pieces : List Piece}
    (done : stored.mapM StoredPiece.restore = .ok pieces) {piece : Piece} (mem : piece ∈ pieces) :
    ∃ source ∈ stored, source.restore = .ok piece := by
  induction stored generalizing pieces with
  | nil =>
    obtain rfl : [] = pieces := by simpa [pure, Except.pure] using done
    simp at mem
  | cons first stored ih =>
    rw [List.mapM_cons] at done
    cases restored : first.restore with
    | error cause => simp [restored, bind, Except.bind] at done
    | ok found =>
      cases others : stored.mapM StoredPiece.restore with
      | error cause => simp [restored, others, bind, Except.bind] at done
      | ok later =>
        obtain rfl : found :: later = pieces := by
          simpa [restored, others, bind, Except.bind, pure, Except.pure] using done
        rcases List.mem_cons.mp mem with rfl | inside
        · exact ⟨first, List.mem_cons_self, restored⟩
        · obtain ⟨source, listed, read⟩ := ih others inside
          exact ⟨source, List.mem_cons_of_mem _ listed, read⟩

/-- What the body of an image decodes to. -/
theorem Body.decoded_restore {body : Body} {prog : Program} (typed : body.Typed)
    (utf8 : body.isUtf8) (done : body.restore = .ok prog) : ProgramDecoded prog := by
  rw [Body.isUtf8, Bool.and_eq_true, List.all_eq_true, List.all_eq_true] at utf8
  unfold Body.restore at done
  cases restored : body.pieces.mapM StoredPiece.restore with
  | error cause => simp [restored, bind, Except.bind] at done
  | ok pieces =>
    simp only [restored, bind, Except.bind] at done
    split at done
    · contradiction
    · rename_i calls
      obtain rfl := Except.ok.inj done
      have decoded : ∀ piece ∈ pieces.toArray, PieceDecoded piece := by
        intro piece mem
        obtain ⟨stored, inside, read⟩ := mem_of_restore restored (by simpa using mem)
        exact StoredPiece.decoded_restore (typed.pieces stored inside) (utf8.1 stored inside) read
      refine ⟨⟨rfl, fun piece mem => (decoded piece mem).sound, calls, utf8.2, typed.distinct⟩,
        ⟨fun piece mem => ?_, typed.offsets, typed.distinct⟩, decoded, rfl⟩
      obtain ⟨source, inside, rfl⟩ := List.mem_map.mp mem
      exact (decoded source (by simpa using inside)).typed

variable {codec : Codec} {prog : Program}

/-- What an image decodes to. -/
theorem decoded_of_decode (lawful : codec.Lawful) {bytes : Text}
    (done : decode codec bytes = .ok prog) : ProgramDecoded prog := by
  unfold decode at done
  split at done
  · contradiction
  · rename_i file found
    split at done
    · contradiction
    split at done
    · contradiction
    split at done
    · contradiction
    split at done
    · contradiction
    · rename_i body read
      obtain ⟨typed, utf8⟩ := lawful.typed _ _ read
      exact Body.decoded_restore typed utf8 done

/-- A decoded program is restored as it is, its strings in some order. -/
theorem ProgramDecoded.restored_eq (decoded : ProgramDecoded prog)
    (strings : List InternedString) :
    restored false strings prog = { prog with interned := strings } := by
  have pieces : prog.pieces.map (restoredPiece false) = prog.pieces := by
    rw [Array.map_congr_left fun piece mem => (decoded.pieces piece mem).whole]
    simp
  have targets := decoded.targets
  have linked := decoded.sound.linked
  obtain ⟨_, _, _, _, _⟩ := prog
  simp_all [restored]

/-- The image of a decoded program is read back as that program. -/
theorem ProgramDecoded.decode_of_encode? (decoded : ProgramDecoded prog) (lawful : codec.Lawful)
    {image : Text} (encoded : encode? codec false prog = some image)
    (short : codec.Short (storedBody false prog)) :
    ∃ strings, strings.Perm prog.interned ∧
      decode codec image = .ok { prog with interned := strings } := by
  obtain ⟨found, same, read, -⟩ := decode_encode? lawful decoded.sound decoded.typed short
  obtain rfl := Option.some.inj (same.symm.trans encoded)
  obtain ⟨strings, perm, done⟩ := read fun piece mem => (decoded.pieces piece mem).readable
  exact ⟨strings, perm, done.trans (congrArg _ (decoded.restored_eq strings))⟩

/-- Every call of a piece is followed by the number of a native or of a piece of the program. -/
def CallsTargeted (prog : Program) (piece : Piece) : Prop :=
  ∀ (cell : Nat) (instr : Instruction), piece.code.instruction? cell = some instr →
    instr.op = .call → ∃ imm, piece.code.immediate? (cell + 1) = some imm ∧
      ((∃ native, Native.ofId? imm.toInt = some native) ∨
        ∃ index < prog.pieces.size, imm.toInt = index + 1)

/-- In a program that links, every call has a target. -/
theorem callsTargeted_of_linkError? {prog : Program} {piece : Piece}
    (mem : piece ∈ prog.pieces) (formed : piece.code.WellFormed)
    (linked : linkError? prog = none) : CallsTargeted prog piece := by
  intro cell instr found call
  have here : piece.code[cell]? = some (.instruction instr) := by
    have natural : ¬ (cell : Int) < 0 := by omega
    simp only [Code.instruction?, Code.cell?, natural, ↓reduceIte, Int.toNat_natCast] at found
    split at found
    · rename_i there
      rw [there, Option.some.inj found]
    · contradiction
  have inside : cell < piece.size := (Array.getElem?_eq_some_iff.mp here).1
  obtain ⟨imm, next⟩ := Code.formed_next formed (by simpa using here)
    (show instr.op.hasImmediate by rw [call]; rfl)
  have after : piece.code.immediate? (cell + 1) = some imm := by
    have natural : ¬ ((cell : Int) + 1) < 0 := by omega
    have place : ((cell : Int) + 1).toNat = cell + 1 := by omega
    have there : piece.code[cell + 1]? = some (.immediate imm) := by simpa using next
    simp only [Code.immediate?, Code.cell?, natural, ↓reduceIte, place, there]
  refine ⟨imm, after, ?_⟩
  unfold linkError? at linked
  rw [List.findSome?_eq_none_iff] at linked
  have cells := linked piece (by simpa using mem)
  rw [List.findSome?_eq_none_iff] at cells
  have fine := cells cell (by simpa using inside)
  simp only [callError?, found, after, call, ↓reduceIte, Option.getD_some] at fine
  split at fine
  · contradiction
  · split at fine
    · split at fine
      · contradiction
      · rename_i known
        exact .inl (Option.ne_none_iff_exists'.mp (by simpa using known))
    · split at fine
      · contradiction
      · exact .inr ⟨(imm.toInt - 1).toNat, by omega, by omega⟩

end Image

/-- A program that can be listed, run and stored whatever its code does. -/
structure Program.Safe (codec : Image.Codec) (prog : Program) : Prop where
  /-- Opcodes are defined, and exactly those that have an immediate are followed by one. -/
  formed : ∀ piece ∈ prog.pieces, piece.code.WellFormed
  /-- Every cell has an entry in the line table, and every entry names a line. -/
  lined : ∀ piece ∈ prog.pieces, piece.Lined
  /-- Every call has a target. -/
  targeted : ∀ piece ∈ prog.pieces, Image.CallsTargeted prog piece
  /-- A listing finds every line. -/
  listed : ∀ piece ∈ prog.pieces, Listing.strictPiece? (some prog) prog.targets piece =
    some (Listing.ofPiece (some prog) prog.targets piece)
  /-- A step finds its piece and its line. -/
  steps : ∀ settings files start, Machine.start? prog settings files = .ok start →
    ∀ count, Machine.strictStep? prog settings (start.after prog settings count) =
      some ((start.after prog settings count).step prog settings)
  /-- So does a trace of any cell. -/
  traces : ∀ settings files start, Machine.start? prog settings files = .ok start →
    ∀ count cell, Machine.strictTrace? prog (start.after prog settings count) cell =
      some ((start.after prog settings count).traceLine prog cell)
  /-- A step changes only bytes of regions and leaves the stack and the data segment their sizes. -/
  writes : ∀ settings files start, Machine.start? prog settings files = .ok start →
    ∀ count, (start.after prog settings count).memory.Keeps
      (start.after prog settings (count + 1)).memory
  /-- What a step can read lies in a region. -/
  reads : ∀ settings files start, Machine.start? prog settings files = .ok start →
    ∀ count, (start.after prog settings count).memory.Contained
  /-- The tables of the heap belong together as long as the address of the next block did not
  fall. -/
  heap : ∀ settings files start, Machine.start? prog settings files = .ok start → ∀ count,
    (∀ earlier < count, (start.after prog settings earlier).memory.heap.next ≤
      (start.after prog settings (earlier + 1)).memory.heap.next) →
    (start.after prog settings count).memory.heap.Consistent
  /-- The program has an image. -/
  stored : (Image.encode? codec false prog).isSome
  /-- An image of a length that a host counts is read back as the program, with its strings in
  some order. -/
  restored : ∀ image, Image.encode? codec false prog = some image →
    codec.Short (Image.storedBody false prog) → ∃ strings, strings.Perm prog.interned ∧
      Image.decode codec image = .ok { prog with interned := strings }

/-- A program of two pieces, of which the first calls the second and a native. -/
def Image.greeting : Program where
  pieces := #[
    { name := "main"
      code := #[.instruction { op := .call }, .immediate 2, .instruction { op := .call },
        .immediate (-1), .instruction { op := .halt }]
      lines := #[⟨1, "greet();"⟩]
      lineOf := #[some 0, some 0, none, none, none] },
    { name := "greet"
      code := #[.instruction { op := .giveBack }]
      lineOf := #[none] }]
  segment := some #[104, 105, 0]
  interned := [⟨0, "hi"⟩]
  linked := true

end TinLang
