import TinLang.Proofs.Edits
import TinLang.Proofs.RoundTrip

/-!
# Linking, and linking again

Linking fills in exactly the immediates that calls left open, each with the number of its target,
and reports every relocation that it cannot fill in. A link that fails has filled in some of them
already. That does no harm: the program stays what it was up to the immediates that the next link
writes again, so a program that is linked once all targets are bound is the same whether links were
tried before or not (`Workshop.twin_after`, `relink_eq`).
-/
namespace TinLang

variable {instr : Instruction} {draft : Draft} {imm : BitVec 32} {index : Nat}

namespace Piece

/-- Two pieces differ at most in the immediates that the linker fills in. -/
structure Resembles (piece other : Piece) : Prop where
  rest : ∃ code, other = { piece with code }
  size : other.size = piece.size
  cells : ∀ index : Nat, (∀ reloc ∈ piece.relocations, reloc.cell ≠ index) →
    other.code[index]? = piece.code[index]?
  immediates : ∀ reloc ∈ piece.relocations,
    ∃ value, other.code[reloc.cell]? = some (.immediate value)

variable {piece other : Piece}

theorem Tidy.resembles (tidy : piece.Tidy) : piece.Resembles piece where
  rest := ⟨_, rfl⟩
  size := rfl
  cells _ _ := rfl
  immediates reloc mem := by
    obtain ⟨_, -, -, found⟩ := tidy.calls reloc mem
    exact ⟨0, found⟩

theorem Resembles.depth (alike : piece.Resembles other) : other.depth = piece.depth := by
  obtain ⟨_, rfl⟩ := alike.rest
  rfl

theorem Resembles.relocations (alike : piece.Resembles other) :
    other.relocations = piece.relocations := by
  obtain ⟨_, rfl⟩ := alike.rest
  rfl

theorem Resembles.name (alike : piece.Resembles other) : other.name = piece.name := by
  obtain ⟨_, rfl⟩ := alike.rest
  rfl

/-- An instruction of one piece stands in the other, too. -/
theorem Resembles.instruction_iff (alike : piece.Resembles other) (tidy : piece.Tidy)
    {decoded : Instruction} : other.code[index]? = some (.instruction decoded) ↔
      piece.code[index]? = some (.instruction decoded) := by
  by_cases named : ∃ reloc ∈ piece.relocations, reloc.cell = index
  · obtain ⟨reloc, mem, rfl⟩ := named
    obtain ⟨value, filled⟩ := alike.immediates reloc mem
    obtain ⟨_, -, -, vacant⟩ := tidy.calls reloc mem
    simp [filled, vacant]
  · rw [alike.cells index fun reloc mem same => named ⟨reloc, mem, same⟩]

/-- The immediates of jumps are none that the linker fills in. -/
theorem Resembles.leapsAt (alike : piece.Resembles other) (tidy : piece.Tidy) {cell : Nat}
    (leaps : piece.LeapsAt cell imm) : other.LeapsAt cell imm := by
  obtain ⟨before, op, reg, rfl, leap, here, next⟩ := leaps
  refine ⟨before, op, reg, rfl, leap, (alike.instruction_iff tidy).mpr here, ?_⟩
  rw [alike.cells (before + 1) fun reloc mem same => ?_, next]
  obtain ⟨call, first, op', -⟩ := tidy.calls reloc mem
  rw [same, Nat.add_sub_cancel, here] at first
  obtain rfl := Cell.instruction.inj (Option.some.inj first)
  dsimp only at op'
  rw [op'] at leap
  contradiction

/-- A pop cancels the last cell of both pieces or of none. -/
theorem Resembles.cancels_eq (alike : piece.Resembles other) (tidy : piece.Tidy)
    (reg : Register) : other.cancels reg = piece.cancels reg := by
  have barrier : other.barrier = piece.barrier := by
    obtain ⟨_, rfl⟩ := alike.rest
    rfl
  have last : ∀ decoded, other.code.back? = some (.instruction decoded) ↔
      piece.code.back? = some (.instruction decoded) := by
    intro decoded
    have size : other.code.size = piece.code.size := alike.size
    rw [Array.back?, Array.back?, size]
    exact alike.instruction_iff tidy
  unfold cancels
  rw [barrier, alike.size]
  congr 1
  split
  · next decoded found => rw [(last decoded).mp found]
  · next none =>
    split
    · next decoded found => exact absurd ((last decoded).mpr found) (none decoded)
    · rfl

theorem Resembles.extend (alike : piece.Resembles other)
    {more : List Relocation} {depth : Int}
    (calls : ∀ reloc ∈ more, reloc.cell = piece.size + 1 ∧ instr.op = .call) :
    (piece.extend (instr.cells imm) more depth).Resembles
      (other.extend (instr.cells imm) more depth) where
  rest := by
    obtain ⟨_, rfl⟩ := alike.rest
    exact ⟨_, rfl⟩
  size := by rw [size_extend_cells, size_extend_cells, alike.size]
  cells index unnamed := by
    rw [getElem?_extend_cells, getElem?_extend_cells, alike.size]
    split
    · exact alike.cells index fun reloc mem =>
        unnamed reloc (List.mem_append_left _ mem)
    · rfl
  immediates reloc mem := by
    rcases List.mem_append.mp mem with old | new
    · obtain ⟨value, found⟩ := alike.immediates reloc old
      have inside : reloc.cell < other.size := (Array.getElem?_eq_some_iff.mp found).1
      exact ⟨value, by rw [getElem?_extend_cells, if_pos inside, found]⟩
    · obtain ⟨place, op⟩ := calls reloc new
      refine ⟨imm, ?_⟩
      rw [place, ← alike.size]
      exact stands_extend.operand (by rw [op]; rfl)

theorem Resembles.cancel (alike : piece.Resembles other) (tidy : piece.Tidy) {reg : Register}
    (cancels : piece.cancels reg) {depth : Int} :
    Resembles { piece.truncate (piece.size - 1) with depth }
      { other.truncate (other.size - 1) with depth } where
  rest := by
    rw [alike.size]
    obtain ⟨_, rfl⟩ := alike.rest
    exact ⟨_, rfl⟩
  size := by
    show (other.truncate (other.size - 1)).size = (piece.truncate (piece.size - 1)).size
    rw [size_truncate, size_truncate, alike.size]
  cells index unnamed := by
    show (other.truncate (other.size - 1)).code[index]? =
      (piece.truncate (piece.size - 1)).code[index]?
    rw [getElem?_truncate, getElem?_truncate, alike.size, alike.cells index unnamed]
  immediates reloc mem := by
    have kept := (tidy.cancel cancels).calls reloc mem
    have inside : reloc.cell < (piece.truncate (piece.size - 1)).size := kept.lt
    rw [size_truncate] at inside
    obtain ⟨value, found⟩ := alike.immediates reloc mem
    refine ⟨value, ?_⟩
    show (other.truncate (other.size - 1)).code[reloc.cell]? = _
    rw [getElem?_truncate, alike.size, if_pos inside, found]

theorem Resembles.fix (alike : piece.Resembles other) (tidy : piece.Tidy) {cell : Nat}
    (leaps : piece.LeapsAt cell imm) :
    (piece.fixJump cell).1.Resembles (other.fixJump cell).1 := by
  have branch := leaps.branchAt
  have branch' := (alike.leapsAt tidy leaps).branchAt
  have relocations : (piece.fixJump cell).1.relocations = piece.relocations := by
    rw [fixJump_eq branch]
    rfl
  refine ⟨?_, ?_, fun index unnamed => ?_, fun reloc mem => ?_⟩
  · rw [fixJump_eq branch, fixJump_eq branch', label, label, alike.size]
    obtain ⟨_, rfl⟩ := alike.rest
    exact ⟨_, rfl⟩
  · rw [size_fixJump branch, size_fixJump branch', alike.size]
  · rw [getElem?_fixJump branch, getElem?_fixJump branch', alike.size]
    split
    · rfl
    · exact alike.cells index (relocations ▸ unnamed)
  · obtain ⟨value, found⟩ := alike.immediates reloc (relocations ▸ mem)
    rw [getElem?_fixJump branch']
    split
    · exact ⟨_, rfl⟩
    · exact ⟨value, found⟩

theorem Resembles.emit (alike : piece.Resembles other) (tidy : piece.Tidy)
    (plain : instr.op.hasImmediate = false) :
    (piece.emit instr).1.Resembles (other.emit instr).1 := by
  have depth := alike.depth
  have cells : instr.cells 0 = [.instruction instr] := by
    simp [Instruction.cells, plain]
  have extended : ∀ distance : Int,
      (piece.extend [.instruction instr] [] (piece.depth + distance)).Resembles
        (other.extend [.instruction instr] [] (other.depth + distance)) := by
    intro distance
    rw [depth, ← cells]
    exact alike.extend (by simp)
  unfold Piece.emit
  split
  · exact (push_eq_extend _).symm ▸ (push_eq_extend _).symm ▸ extended (-8)
  · dsimp only
    rw [alike.cancels_eq tidy]
    split
    · next cancels =>
      rw [depth]
      exact alike.cancel tidy cancels
    · exact (push_eq_extend _).symm ▸ (push_eq_extend _).symm ▸ extended 8
  · have same := extended 0
    rw [Int.add_zero, Int.add_zero] at same
    rwa [push_eq_extend, push_eq_extend]

theorem Resembles.emitImmediate (alike : piece.Resembles other)
    (wide : instr.op.hasImmediate) (imm : BitVec 32) :
    (piece.emitImmediate instr imm).1.Resembles
      (other.emitImmediate instr imm).1 := by
  rw [emitImmediate_eq wide, emitImmediate_eq wide, alike.depth]
  exact alike.extend (by simp)

theorem setLine_code (piece : Piece) (code : Code) (number : Int) (text : Text) :
    Piece.setLine { piece with code } number text = { piece.setLine number text with code } := by
  unfold Piece.setLine
  cases piece.lines.back? with
  | none => rfl
  | some latest =>
    dsimp only
    split <;> rfl

theorem relocations_setLine (piece : Piece) (number : Int) (text : Text) :
    (piece.setLine number text).relocations = piece.relocations ∧
      (piece.setLine number text).code = piece.code := by
  unfold Piece.setLine
  split
  · split <;> exact ⟨rfl, rfl⟩
  · exact ⟨rfl, rfl⟩

/-- Allowed calls keep the resemblance of a draft to a piece with some immediates filled in. -/
theorem Resembles.apply {edit : Edit} (alike : draft.piece.Resembles other)
    (sound : draft.Sound) (allowed : draft.Allows edit) :
    (edit.apply draft.piece).Resembles (edit.apply other) := by
  have tidy := sound.tidy
  cases edit with
  | emit instr => exact alike.emit tidy allowed.2
  | emitImmediate instr imm => exact alike.emitImmediate allowed imm
  | push reg =>
    have plain : (⟨.push, reg, .unused, 0⟩ : Instruction).op.hasImmediate = false := rfl
    exact alike.emit tidy plain
  | pop reg =>
    have plain : (⟨.pop, reg, .unused, 0⟩ : Instruction).op.hasImmediate = false := rfl
    exact alike.emit tidy plain
  | jump op reg =>
    have wide : (⟨op, reg, .unused, 0⟩ : Instruction).op.hasImmediate :=
      Opcode.hasImmediate_of_leaps allowed
    exact alike.emitImmediate wide 0
  | fix cell =>
    obtain ⟨imm, leaps⟩ := sound.holes cell allowed
    exact alike.fix tidy leaps
  | jumpBack op reg target =>
    show (draft.piece.emitJumpBack op reg target).Resembles (other.emitJumpBack op reg target)
    rw [emitJumpBack_eq_extend _ allowed.1, emitJumpBack_eq_extend _ allowed.1, alike.depth,
      alike.size]
    exact alike.extend (by simp)
  | label =>
    refine ⟨?_, alike.size, alike.cells, alike.immediates⟩
    show ∃ code, { other with barrier := other.size } = { draft.piece.label.1 with code }
    rw [alike.size]
    obtain ⟨_, rfl⟩ := alike.rest
    exact ⟨_, rfl⟩
  | call target =>
    show (draft.piece.emitCall target).Resembles (other.emitCall target)
    rw [emitCall_eq, emitCall_eq, alike.depth, alike.size]
    exact alike.extend (by simp)
  | callNative id =>
    have wide : (⟨.call, .unused, .unused, 0⟩ : Instruction).op.hasImmediate := rfl
    exact alike.emitImmediate wide _
  | setLine number text =>
    obtain ⟨relocations, code⟩ := relocations_setLine draft.piece number text
    have same : Edit.apply other (.setLine number text) =
        { draft.piece.setLine number text with code := other.code } := by
      obtain ⟨_, rfl⟩ := alike.rest
      exact setLine_code _ _ _ _
    rw [same]
    refine ⟨⟨_, rfl⟩, ?_, fun index unnamed => ?_, fun reloc mem => ?_⟩
    · show other.size = (draft.piece.setLine number text).size
      rw [alike.size, Piece.size, Piece.size, code]
    · show other.code[index]? = (draft.piece.setLine number text).code[index]?
      rw [code]
      exact alike.cells index (relocations ▸ unnamed)
    · exact alike.immediates reloc (relocations ▸ mem)

/-- A call adds at most one relocation, for a cell past the end. -/
theorem relocations_apply {edit : Edit} (sound : draft.Sound)
    (allowed : draft.Allows edit) :
    (edit.apply draft.piece).relocations = draft.piece.relocations ∨
      ∃ target, (edit.apply draft.piece).relocations =
        draft.piece.relocations ++ [⟨target, draft.piece.size + 1⟩] := by
  have plain : ∀ instr : Instruction, instr.op.hasImmediate = false →
      (draft.piece.emit instr).1.relocations = draft.piece.relocations := by
    intro instr plain
    rcases emit_cases draft.piece plain with ⟨-, same⟩ | ⟨-, same⟩
    · rw [same]
      rfl
    · simp [same, Piece.extend]
  have wide : ∀ (instr : Instruction) imm, instr.op.hasImmediate →
      (draft.piece.emitImmediate instr imm).1.relocations = draft.piece.relocations := by
    intro instr imm wide
    simp [emitImmediate_eq wide, Piece.extend]
  cases edit with
  | emit instr => exact .inl (plain instr allowed.2)
  | emitImmediate instr imm => exact .inl (wide instr imm allowed)
  | push reg => exact .inl (plain ⟨.push, reg, .unused, 0⟩ rfl)
  | pop reg => exact .inl (plain ⟨.pop, reg, .unused, 0⟩ rfl)
  | jump op reg =>
    exact .inl (wide ⟨op, reg, .unused, 0⟩ 0 (Opcode.hasImmediate_of_leaps allowed))
  | fix cell =>
    obtain ⟨imm, leaps⟩ := sound.holes cell allowed
    refine .inl ?_
    show (draft.piece.fixJump cell).1.relocations = _
    rw [fixJump_eq leaps.branchAt]
    rfl
  | jumpBack op reg target =>
    refine .inl ?_
    show (draft.piece.emitJumpBack op reg target).relocations = _
    simp [emitJumpBack_eq_extend _ allowed.1, Piece.extend]
  | label => exact .inl rfl
  | call target =>
    refine .inr ⟨target, ?_⟩
    show (draft.piece.emitCall target).relocations = _
    rw [emitCall_eq]
    rfl
  | callNative id => exact .inl (wide ⟨.call, .unused, .unused, 0⟩ _ rfl)
  | setLine number text => exact .inl (relocations_setLine draft.piece number text).1

/-- No two calls share their immediate. -/
theorem Draft.Written.distinct (written : draft.Written) :
    (draft.piece.relocations.map Relocation.cell).Nodup := by
  induction written with
  | blank name => exact List.nodup_nil
  | @after draft edit written allowed ih =>
    have sound := written.sound
    show ((edit.apply draft.piece).relocations.map Relocation.cell).Nodup
    rcases relocations_apply sound allowed with same | ⟨target, same⟩
    · rwa [same]
    · rw [same, List.map_append, List.nodup_append]
      refine ⟨ih, by simp, fun cell old next new => ?_⟩
      obtain ⟨reloc, mem, rfl⟩ := List.mem_map.mp old
      obtain rfl : next = draft.piece.size + 1 := by simpa using new
      have inside := (sound.tidy.calls reloc mem).lt
      omega

end Piece

namespace Program

/-- A relocation can be filled in: it has a target, whose number is known and, if it is that of a
function, names a piece. -/
def Resolvable (prog : Program) (reloc : Relocation) : Prop :=
  ∃ target, reloc.target.bind (prog.targets[·]?) = some target ∧ target.id ≠ 0 ∧
    (0 < target.id → target.id ≤ prog.pieces.size)

/-- What is reported about a relocation of a piece, if it cannot be filled in. -/
def complaint? (prog : Program) (piece : Text) (reloc : Relocation) : Option Text :=
  match prog.resolve reloc with
  | .error cause => some (cause.message piece)
  | .ok _ => none

/-- What is reported about a program, relocation by relocation. -/
def complaints (prog : Program) : List Text :=
  prog.pieces.toList.flatMap fun piece =>
    piece.relocations.filterMap (prog.complaint? piece.name)

variable {prog other : Program}

theorem resolve_eq_ok_iff {reloc : Relocation} {id : Int} :
    prog.resolve reloc = .ok id ↔
      ∃ target, reloc.target.bind (prog.targets[·]?) = some target ∧ target.id = id ∧
        id ≠ 0 ∧ (0 < id → id ≤ prog.pieces.size) := by
  unfold resolve
  cases reloc.target.bind (prog.targets[·]?) with
  | none => simp
  | some target =>
    dsimp only
    split
    · next zero => simp [zero]; omega
    · next known =>
      split
      · next beyond => simp; omega
      · next inside => simp; omega

theorem resolvable_iff {reloc : Relocation} :
    prog.Resolvable reloc ↔ ∃ id, prog.resolve reloc = .ok id := by
  simp only [resolve_eq_ok_iff, Resolvable]
  constructor
  · rintro ⟨target, found, known, inside⟩
    exact ⟨target.id, target, found, rfl, known, inside⟩
  · rintro ⟨_, target, found, rfl, known, inside⟩
    exact ⟨target, found, known, inside⟩

/-- Exactly the bad relocations are reported. -/
theorem complaint?_isSome_iff (piece : Text) (reloc : Relocation) :
    (prog.complaint? piece reloc).isSome ↔ ¬ prog.Resolvable reloc := by
  rw [resolvable_iff]
  unfold complaint?
  cases prog.resolve reloc <;> simp

theorem complaints_eq_nil_iff : prog.complaints = [] ↔
    ∀ piece ∈ prog.pieces, ∀ reloc ∈ piece.relocations, prog.Resolvable reloc := by
  simp only [complaints, List.flatMap_eq_nil_iff, List.filterMap_eq_nil_iff, Array.mem_toList_iff]
  refine forall₂_congr fun piece _ => forall₂_congr fun reloc _ => ?_
  rw [← Option.not_isSome_iff_eq_none, complaint?_isSome_iff, not_not]

/-- All relocations of some code name immediates. -/
def Fillable (code : Code) (relocations : List Relocation) : Prop :=
  ∀ reloc ∈ relocations, ∃ value, code[reloc.cell]? = some (.immediate value)

/-- Filling in relocations changes no cell but those that are named, which stay immediates. -/
structure Filled (code result : Code) (relocations : List Relocation) : Prop where
  size : result.size = code.size
  cells : ∀ index : Nat, (∀ reloc ∈ relocations, reloc.cell ≠ index) →
    result[index]? = code[index]?
  fillable : ∀ named, Fillable code named → Fillable result named

/-- The linker fills in what it can, and reports the rest. -/
theorem filled_relocateAll (prog : Program) {code : Code} {relocations : List Relocation}
    (fillable : Fillable code relocations) (piece : Text) :
    Filled code (prog.relocateAll code relocations).1 relocations ∧
      (prog.relocateAll code relocations).2.map (RelocationError.message piece) =
        relocations.filterMap (prog.complaint? piece) := by
  induction relocations generalizing code with
  | nil => exact ⟨⟨rfl, fun _ _ => rfl, fun _ same => same⟩, rfl⟩
  | cons reloc relocations ih =>
    obtain ⟨value, here⟩ := fillable reloc List.mem_cons_self
    have others : Fillable code relocations := fun reloc mem =>
      fillable reloc (List.mem_cons_of_mem _ mem)
    cases resolved : prog.resolve reloc with
    | error cause =>
      have stays : prog.relocateAll code (reloc :: relocations) =
          ((prog.relocateAll code relocations).1,
            cause :: (prog.relocateAll code relocations).2) := by
        simp [relocateAll, relocate, resolved, bind, Except.bind]
      obtain ⟨filled, messages⟩ := ih others
      rw [stays]
      refine ⟨⟨filled.size, fun index apart => filled.cells index fun reloc mem =>
        apart reloc (List.mem_cons_of_mem _ mem), filled.fillable⟩, ?_⟩
      simp [complaint?, resolved, messages]
    | ok id =>
      have moves : prog.relocateAll code (reloc :: relocations) =
          prog.relocateAll (code.setIfInBounds reloc.cell (.immediate (BitVec.ofInt 32 id)))
            relocations := by
        simp [relocateAll, relocate, resolved, bind, Except.bind, Code.patch?_immediate here]
      have keeps : ∀ named, Fillable code named → Fillable
          (code.setIfInBounds reloc.cell (.immediate (BitVec.ofInt 32 id))) named := by
        intro named fillable relocation' mem
        obtain ⟨value', found⟩ := fillable relocation' mem
        rw [Array.getElem?_setIfInBounds]
        split
        · next same =>
          have inside : reloc.cell < code.size := (Array.getElem?_eq_some_iff.mp here).1
          exact ⟨_, by rw [if_pos inside]⟩
        · exact ⟨value', found⟩
      obtain ⟨filled, messages⟩ := ih (keeps relocations others)
      rw [moves]
      refine ⟨⟨filled.size.trans (Array.size_setIfInBounds), fun index apart => ?_,
        fun named fillable => filled.fillable named (keeps named fillable)⟩, ?_⟩
      · rw [filled.cells index fun reloc mem => apart reloc
          (List.mem_cons_of_mem _ mem), Array.getElem?_setIfInBounds_ne
          (apart reloc List.mem_cons_self)]
      · simp [complaint?, resolved, messages]

/-- What linking relies on in a program. -/
structure Linkable (prog : Program) : Prop where
  unlinked : prog.linked = false
  /-- The numbers of targets fit into an immediate. -/
  narrow : ∀ target ∈ prog.targets, ∃ id : BitVec 32, target.id = id.toInt
  fillable : ∀ piece ∈ prog.pieces, Fillable piece.code piece.relocations
  distinct : ∀ piece ∈ prog.pieces, (piece.relocations.map Relocation.cell).Nodup

/-- What linking without an error makes of a piece: the immediate of each recorded call holds the
number of its target, and nothing else is different but that no call is recorded any more. -/
structure LinksTo (prog : Program) (piece after : Piece) : Prop where
  rest : ∃ code, after = { piece with code, relocations := [] }
  size : after.size = piece.size
  calls : ∀ reloc ∈ piece.relocations, ∃ target imm,
    reloc.target.bind (prog.targets[·]?) = some target ∧
      after.code[reloc.cell]? = some (.immediate imm) ∧ imm.toInt = target.id
  cells : ∀ index : Nat, (∀ reloc ∈ piece.relocations, reloc.cell ≠ index) →
    after.code[index]? = piece.code[index]?

/-- What there is to say about linking a program. -/
structure LinksExactly (prog : Program) : Prop where
  succeeds : prog.link.2 = none ↔
    ∀ piece ∈ prog.pieces, ∀ reloc ∈ piece.relocations, prog.Resolvable reloc
  success : prog.link.2 = none →
    prog.link.1 = { prog with pieces := prog.link.1.pieces, linked := true } ∧
      prog.link.1.pieces.size = prog.pieces.size ∧
      ∀ (index : Nat) piece, prog.pieces[index]? = some piece →
        ∃ after, prog.link.1.pieces[index]? = some after ∧ prog.LinksTo piece after
  failure : prog.link.2 ≠ none → prog.link.2 = some (.relocations prog.complaints) ∧
    prog.link.1 = { prog with pieces := prog.link.1.pieces } ∧
    prog.link.1.linked = false ∧
    prog.link.1.pieces.map Piece.relocations = prog.pieces.map Piece.relocations
  /-- One message for each bad relocation. -/
  complains : ∀ piece reloc,
    (prog.complaint? piece reloc).isSome ↔ ¬ prog.Resolvable reloc

/-- Linking ends in one of two ways. -/
theorem link_cases (linkable : prog.Linkable) :
    (prog.complaints = [] ∧ prog.link = ({ prog with
        pieces := prog.pieces.map fun piece =>
          { (prog.linkPiece piece).1 with relocations := [] }
        linked := true }, none)) ∨
      (prog.complaints ≠ [] ∧ prog.link = ({ prog with
        pieces := prog.pieces.map fun piece => (prog.linkPiece piece).1 },
        some (.relocations prog.complaints))) := by
  have messages : (prog.pieces.map prog.linkPiece).toList.flatMap Prod.snd =
      prog.complaints := by
    rw [Array.toList_map, List.flatMap_map, complaints]
    refine List.flatMap_congr fun piece mem => ?_
    exact (filled_relocateAll prog (linkable.fillable piece (by simpa using mem))
      piece.name).2
  unfold link
  rw [linkable.unlinked, if_neg Bool.false_ne_true]
  dsimp only
  rw [messages]
  cases complaints : prog.complaints with
  | nil => exact .inl ⟨rfl, by simp [Function.comp_def]⟩
  | cons message others => exact .inr ⟨List.cons_ne_nil _ _, by simp [Function.comp_def]⟩

theorem link_eq_none_iff (linkable : prog.Linkable) :
    prog.link.2 = none ↔ prog.complaints = [] := by
  rcases link_cases linkable with ⟨none, done⟩ | ⟨some, done⟩
  · simp [none, done]
  · simp [some, done]

/-- A piece whose relocations are all good is linked. -/
theorem linksTo_linkPiece (linkable : prog.Linkable) (clean : prog.complaints = [])
    {piece : Piece} (mem : piece ∈ prog.pieces) :
    prog.LinksTo piece { (prog.linkPiece piece).1 with relocations := [] } := by
  obtain ⟨filled, messages⟩ :=
    filled_relocateAll prog (linkable.fillable piece mem) piece.name
  have silent : (prog.relocateAll piece.code piece.relocations).2 = [] := by
    refine List.map_eq_nil_iff.mp (messages.trans ?_)
    exact List.flatMap_eq_nil_iff.mp clean piece (by simpa using mem)
  have relocated : Relocated prog piece.code piece.relocations
      (prog.relocateAll piece.code piece.relocations).1 :=
    relocated_of_relocateAll (Prod.ext rfl silent)
  refine ⟨⟨_, rfl⟩, filled.size, fun reloc inside => ?_, filled.cells⟩
  obtain ⟨last, also, same, id, resolved, written⟩ := relocated.filled inside
  obtain rfl : last = reloc :=
    List.inj_on_of_nodup_map (linkable.distinct piece mem) also inside same
  obtain ⟨target, found, rfl, -, -⟩ := resolve_eq_ok_iff.mp resolved
  refine ⟨target, _, found, written, ?_⟩
  obtain ⟨index, -, known⟩ := Option.bind_eq_some_iff.mp found
  obtain ⟨id, small⟩ := linkable.narrow target (Array.mem_of_getElem? known)
  rw [small, BitVec.ofInt_toInt]

theorem Linkable.linksExactly (linkable : prog.Linkable) : prog.LinksExactly where
  succeeds := by rw [link_eq_none_iff linkable, complaints_eq_nil_iff]
  success done := by
    rcases link_cases linkable with ⟨clean, same⟩ | ⟨-, same⟩
    · rw [same]
      refine ⟨rfl, Array.size_map, fun index piece found => ?_⟩
      have mem := Array.mem_of_getElem? found
      exact ⟨_, by simp [found], linksTo_linkPiece linkable clean mem⟩
    · simp [same] at done
  failure failed := by
    rcases link_cases linkable with ⟨-, same⟩ | ⟨-, same⟩
    · simp [same] at failed
    · rw [same]
      refine ⟨rfl, rfl, linkable.unlinked, ?_⟩
      rw [Array.map_map]
      rfl
  complains := complaint?_isSome_iff

/-- Two programs differ at most in immediates of recorded calls. -/
structure Resembles (prog other : Program) : Prop where
  rest : ∃ pieces, other = { prog with pieces }
  size : other.pieces.size = prog.pieces.size
  pieces : ∀ (index : Nat) piece later, prog.pieces[index]? = some piece →
    other.pieces[index]? = some later → piece.Resembles later

/-- Each piece of the other program resembles one of the first. -/
theorem Resembles.piece (alike : prog.Resembles other) {later : Piece}
    (found : other.pieces[index]? = some later) :
    ∃ piece, prog.pieces[index]? = some piece ∧ piece.Resembles later := by
  have inside : index < prog.pieces.size :=
    alike.size ▸ (Array.getElem?_eq_some_iff.mp found).1
  exact ⟨_, Array.getElem?_eq_getElem inside,
    alike.pieces index _ later (Array.getElem?_eq_getElem inside) found⟩

theorem Resembles.linkable (alike : prog.Resembles other) (linkable : prog.Linkable) :
    other.Linkable := by
  have parts : ∀ later ∈ other.pieces, ∃ piece ∈ prog.pieces, piece.Resembles later := by
    intro later mem
    obtain ⟨index, found⟩ := Array.mem_iff_getElem?.mp mem
    obtain ⟨piece, here, same⟩ := alike.piece found
    exact ⟨piece, Array.mem_of_getElem? here, same⟩
  refine ⟨?_, ?_, fun later mem => ?_, fun later mem => ?_⟩
  · obtain ⟨_, rfl⟩ := alike.rest
    exact linkable.unlinked
  · obtain ⟨_, rfl⟩ := alike.rest
    exact linkable.narrow
  · obtain ⟨piece, -, same⟩ := parts later mem
    rw [same.relocations]
    exact same.immediates
  · obtain ⟨piece, inside, same⟩ := parts later mem
    rw [same.relocations]
    exact linkable.distinct piece inside

/-- The same is reported about both programs. -/
theorem Resembles.complaints_eq (alike : prog.Resembles other) :
    other.complaints = prog.complaints := by
  have resolve : ∀ reloc, other.resolve reloc = prog.resolve reloc := by
    intro reloc
    have size := alike.size
    obtain ⟨_, rfl⟩ := alike.rest
    unfold Program.resolve
    rw [size]
  have complaint : other.complaint? = prog.complaint? := by
    funext piece reloc
    rw [complaint?, complaint?, resolve]
  have parts : other.pieces.toList.map (fun piece => (piece.relocations, piece.name)) =
      prog.pieces.toList.map (fun piece => (piece.relocations, piece.name)) := by
    refine List.ext_getElem? fun index => ?_
    rw [List.getElem?_map, List.getElem?_map, Array.getElem?_toList, Array.getElem?_toList]
    cases found : other.pieces[index]? with
    | none =>
      rw [Array.getElem?_eq_none_iff, alike.size, ← Array.getElem?_eq_none_iff] at found
      rw [found]
    | some later =>
      obtain ⟨piece, here, same⟩ := alike.piece found
      rw [here, Option.map_some, Option.map_some, same.relocations, same.name]
  have shape : ∀ pieces : List Piece, (pieces.flatMap fun piece =>
      piece.relocations.filterMap (prog.complaint? piece.name)) =
      (pieces.map fun piece => (piece.relocations, piece.name)).flatMap fun part =>
        part.1.filterMap (prog.complaint? part.2) := fun pieces => by rw [List.flatMap_map]
  rw [complaints, complaints, complaint, shape, shape, parts]

/-- What a piece is linked to does not depend on immediates that are filled in already. -/
theorem LinksTo.unique {piece later after after' : Piece} (links : prog.LinksTo piece after)
    (links' : other.LinksTo later after') (alike : piece.Resembles later)
    (targets : other.targets = prog.targets) : after' = after := by
  have relocations := alike.relocations
  have code : after'.code = after.code := by
    refine Array.ext_getElem? fun index => ?_
    by_cases named : ∃ reloc ∈ piece.relocations, reloc.cell = index
    · obtain ⟨reloc, mem, rfl⟩ := named
      obtain ⟨target, imm, found, here, number⟩ := links.calls reloc mem
      obtain ⟨target', immediate', found', here', number'⟩ :=
        links'.calls reloc (relocations ▸ mem)
      rw [targets, found] at found'
      obtain rfl := Option.some.inj found'
      rw [here, here', BitVec.eq_of_toInt_eq (number'.trans number.symm)]
    · have apart : ∀ reloc ∈ piece.relocations, reloc.cell ≠ index :=
        fun reloc mem same => named ⟨reloc, mem, same⟩
      rw [links'.cells index (relocations ▸ apart), alike.cells index apart,
        links.cells index apart]
  obtain ⟨_, rfl⟩ := links.rest
  obtain ⟨_, rfl⟩ := links'.rest
  obtain ⟨_, rfl⟩ := alike.rest
  exact congrArg (fun code => { piece with code, relocations := [] }) code

/-- Linking both programs gives the same. -/
theorem Resembles.link_eq (alike : prog.Resembles other) (linkable : prog.Linkable) :
    other.link.2 = prog.link.2 ∧ (prog.link.2 = none → other.link = prog.link) := by
  have complaints := alike.complaints_eq
  have linkable' := alike.linkable linkable
  rcases link_cases linkable with ⟨clean, same⟩ | ⟨some, same⟩
  · rcases link_cases linkable' with ⟨clean', same'⟩ | ⟨some', -⟩
    · have pieces : (other.pieces.map fun piece =>
          { (other.linkPiece piece).1 with relocations := [] }) =
          prog.pieces.map fun piece =>
            { (prog.linkPiece piece).1 with relocations := [] } := by
        refine Array.ext_getElem? fun index => ?_
        rw [Array.getElem?_map, Array.getElem?_map]
        cases found : other.pieces[index]? with
        | none =>
          rw [Array.getElem?_eq_none_iff, alike.size, ← Array.getElem?_eq_none_iff] at found
          rw [found]
          rfl
        | some later =>
          obtain ⟨piece, here, like⟩ := alike.piece found
          have targets : other.targets = prog.targets := by
            obtain ⟨_, rfl⟩ := alike.rest
            rfl
          rw [here, Option.map_some, Option.map_some,
            (linksTo_linkPiece linkable clean (Array.mem_of_getElem? here)).unique
              (linksTo_linkPiece linkable' clean' (Array.mem_of_getElem? found)) like targets]
      rw [same, same', pieces]
      obtain ⟨_, rfl⟩ := alike.rest
      exact ⟨rfl, fun _ => rfl⟩
    · exact absurd (complaints.trans clean) some'
  · rcases link_cases linkable' with ⟨clean', -⟩ | ⟨-, same'⟩
    · exact absurd (complaints.symm.trans clean') some
    · rw [same, same', complaints]
      exact ⟨rfl, fun done => by simp at done⟩

/-- A failed link leaves the resemblance. -/
theorem Resembles.failed (alike : prog.Resembles other) (linkable : prog.Linkable)
    (failed : other.link.2 ≠ none) : prog.Resembles other.link.1 := by
  have linkable' := alike.linkable linkable
  rcases link_cases linkable' with ⟨-, same⟩ | ⟨-, same⟩
  · simp [same] at failed
  · rw [same]
    refine ⟨?_, ?_, fun index piece later here found => ?_⟩
    · obtain ⟨_, rfl⟩ := alike.rest
      exact ⟨_, rfl⟩
    · exact Array.size_map.trans alike.size
    · obtain ⟨before, there, rfl⟩ : ∃ before, other.pieces[index]? = some before ∧
          (other.linkPiece before).1 = later := by simpa using found
      have like := alike.pieces index piece before here there
      have relocations := like.relocations
      obtain ⟨filled, -⟩ := filled_relocateAll other
        (linkable'.fillable before (Array.mem_of_getElem? there)) before.name
      refine ⟨?_, filled.size.trans like.size, fun cell apart => ?_, ?_⟩
      · obtain ⟨_, rfl⟩ := like.rest
        exact ⟨_, rfl⟩
      · exact (filled.cells cell (relocations ▸ apart)).trans (like.cells cell apart)
      · exact filled.fillable _ like.immediates

end Program

namespace Program

/-- A call of the interface through which a program is written. -/
inductive Action where
  | addPiece (name : Text)
  /-- A target for calls of a function whose piece is not known yet. -/
  | declare (name : Text)
  /-- A target for calls of a native. -/
  | native (id : BitVec 32)
  /-- Let a target be the piece at an index. -/
  | bind (target : Nat) (index : Int)
  | edit (piece : Nat) (edit : Piece.Edit)
  | appendData (size : Nat) (initial : Text)
  | intern (text : Text)
  | link

/-- The program after a call. -/
def Action.apply (prog : Program) : Action → Program
  | .addPiece name => (prog.addPiece name).1
  | .declare name => (prog.addTarget (.unresolved name)).1
  | .native id => (prog.addTarget (.native id.toInt)).1
  | .bind target index => { prog with targets := prog.targets.modify target (·.bind index) }
  | .edit index change => prog.modifyPiece index fun piece => change.apply piece
  | .appendData size initial => (prog.appendData size initial).1
  | .intern text => (prog.intern text).1
  | .link => prog.link.1

/-- The call is an attempt to link. -/
def Action.links : Action → Bool
  | .link => true
  | _ => false

end Program

/-- A program under construction, and for each piece what its writer was handed. -/
structure Workshop where
  program : Program := {}
  drafts : Array Piece.Draft := #[]

namespace Workshop

open Program (Action)
open Piece (Draft)

/-- What a call makes of a workshop. An edit hands out what the piece is at that time. -/
def after (workshop : Workshop) (action : Action) : Workshop where
  program := action.apply workshop.program
  drafts := match action with
    | .addPiece name => workshop.drafts.push (.blank name)
    | .edit index edit =>
      match workshop.program.pieces[index]? with
      | some piece =>
        workshop.drafts.modify index fun draft => Draft.after { draft with piece } edit
      | none => workshop.drafts
    | _ => workshop.drafts

/-- The calls that are considered: edits that the writer of a piece may make, and attempts to link
that fail. -/
def Allows (workshop : Workshop) : Action → Prop
  | .edit index edit => ∃ draft, workshop.drafts[index]? = some draft ∧ draft.Allows edit
  | .link => workshop.program.link.2 ≠ none
  | _ => True

/-- The workshop after some calls. -/
def run (workshop : Workshop) (actions : List Action) : Workshop :=
  actions.foldl after workshop

/-- Each of some calls is one of those that are considered. -/
def AllowsAll : Workshop → List Action → Prop
  | _, [] => True
  | workshop, action :: actions =>
    workshop.Allows action ∧ (workshop.after action).AllowsAll actions

/-- Two workshops that the same calls lead to, but for attempts to link in the second. -/
structure Twin (straight actual : Workshop) : Prop where
  alike : straight.program.Resembles actual.program
  unlinked : straight.program.linked = false
  narrow : ∀ target ∈ straight.program.targets, ∃ id : BitVec 32, target.id = id.toInt
  counts : straight.drafts.size = straight.program.pieces.size ∧
    actual.drafts.size = straight.program.pieces.size
  drafts : ∀ (index : Nat) draft, straight.drafts[index]? = some draft →
    draft.Written ∧ straight.program.pieces[index]? = some draft.piece ∧
      ∃ piece, actual.drafts[index]? = some { draft with piece }

variable {straight actual : Workshop}

theorem twin_empty : Twin {} {} where
  alike := ⟨⟨_, rfl⟩, rfl, fun index piece later found => by simp at found⟩
  unlinked := rfl
  narrow := by simp
  counts := ⟨rfl, rfl⟩
  drafts := by simp

theorem Twin.linkable (twin : Twin straight actual) : straight.program.Linkable := by
  have written : ∀ piece ∈ straight.program.pieces, ∃ draft : Draft, draft.Written ∧
      draft.piece = piece := by
    intro piece mem
    obtain ⟨index, found⟩ := Array.mem_iff_getElem?.mp mem
    have inside : index < straight.drafts.size :=
      twin.counts.1 ▸ (Array.getElem?_eq_some_iff.mp found).1
    obtain ⟨written, same, -⟩ := twin.drafts index _ (Array.getElem?_eq_getElem inside)
    exact ⟨_, written, Option.some.inj (same.symm.trans found)⟩
  refine ⟨twin.unlinked, twin.narrow, fun piece mem => ?_, fun piece mem => ?_⟩
  · obtain ⟨draft, written, rfl⟩ := written piece mem
    exact written.sound.tidy.resembles.immediates
  · obtain ⟨draft, written, rfl⟩ := written piece mem
    exact written.distinct

end Workshop

/-- Programs that differ in their pieces still do after a change that does not look at these. -/
theorem Program.Resembles.change {prog other : Program} (alike : prog.Resembles other)
    (change : Program → Program)
    (blind : ∀ (prog : Program) pieces,
      change { prog with pieces } = { change prog with pieces }) :
    (change prog).Resembles (change other) ∧ (change prog).pieces = prog.pieces := by
  have same : (change prog).pieces = prog.pieces := by
    have whole : change prog = { change prog with pieces := prog.pieces } :=
      blind prog prog.pieces
    rw [whole]
  obtain ⟨pieces, rfl⟩ := alike.rest
  rw [blind prog pieces]
  exact ⟨⟨⟨pieces, rfl⟩, same.symm ▸ alike.size, same.symm ▸ alike.pieces⟩, same⟩

/-- What an edit hands out does not depend on immediates of calls. -/
theorem Piece.Draft.after_congr {piece : Piece} {edit : Edit}
    (alike : draft.piece.Resembles piece)
    (applied : (edit.apply draft.piece).Resembles (edit.apply piece)) :
    Draft.after { draft with piece } edit =
      { draft.after edit with piece := edit.apply piece } := by
  have labelled : Draft.labelled { draft with piece } edit = draft.labelled edit := by
    cases edit <;> simp [Draft.labelled, label, alike.size]
  have opened : Draft.opened { draft with piece } edit = draft.opened edit := by
    cases edit <;> simp [Draft.opened, emitJump, Piece.emitImmediate, alike.size]
  have aimed : Draft.aimed { draft with piece } edit = draft.aimed edit := by
    cases edit <;> simp [Draft.aimed, label, alike.size]
  have size : (edit.apply piece).size = (edit.apply draft.piece).size := applied.size
  unfold Draft.after
  rw [labelled, opened, aimed]
  dsimp only
  rw [size]

namespace Workshop

open Program (Action)
open Piece (Draft)

variable {straight actual : Workshop}

/-- A call that changes neither pieces nor the mark of being linked keeps workshops twins. -/
theorem Twin.change (twin : Twin straight actual) {action : Action}
    (blind : ∀ (prog : Program) pieces,
      action.apply { prog with pieces } = { action.apply prog with pieces })
    (linked : (action.apply straight.program).linked = straight.program.linked)
    (narrow : ∀ target ∈ (action.apply straight.program).targets,
      ∃ id : BitVec 32, target.id = id.toInt)
    (drafts : ∀ workshop : Workshop, (workshop.after action).drafts = workshop.drafts) :
    Twin (straight.after action) (actual.after action) := by
  obtain ⟨alike, same⟩ := twin.alike.change (fun prog => action.apply prog) blind
  refine ⟨alike, linked.trans twin.unlinked, narrow, ?_, ?_⟩
  · rw [drafts, drafts]
    show _ = (action.apply straight.program).pieces.size ∧
      _ = (action.apply straight.program).pieces.size
    rw [same]
    exact twin.counts
  · rw [drafts, drafts]
    show ∀ (index : Nat) draft, _ → _ ∧ (action.apply straight.program).pieces[index]? = _ ∧ _
    rw [same]
    exact twin.drafts

/-- A new target fits into an immediate when its number does. -/
theorem narrow_push {targets : Array CallTarget} {target : CallTarget}
    (old : ∀ target ∈ targets, ∃ id : BitVec 32, target.id = id.toInt)
    (new : ∃ id : BitVec 32, target.id = id.toInt) :
    ∀ other ∈ targets.push target, ∃ id : BitVec 32, other.id = id.toInt := by
  intro other mem
  rcases Array.mem_push.mp mem with before | rfl
  · exact old other before
  · exact new

theorem Twin.addPiece (twin : Twin straight actual) (name : Text) :
    Twin (straight.after (.addPiece name)) (actual.after (.addPiece name)) := by
  have size := twin.alike.size
  obtain ⟨straightCount, actualCount⟩ := twin.counts
  refine ⟨⟨?_, ?_, fun index piece later here found => ?_⟩, twin.unlinked, twin.narrow, ?_,
    fun index draft found => ?_⟩
  · obtain ⟨pieces, same⟩ := twin.alike.rest
    refine ⟨pieces.push { name }, ?_⟩
    show (actual.program.addPiece name).1 = _
    rw [same]
    rfl
  · show (actual.program.pieces.push _).size = (straight.program.pieces.push _).size
    rw [Array.size_push, Array.size_push, size]
  · replace here : (straight.program.pieces.push { name })[index]? = some piece := here
    replace found : (actual.program.pieces.push { name })[index]? = some later := found
    rw [Array.getElem?_push] at here found
    rw [size] at found
    split at here
    · next last =>
      rw [if_pos last] at found
      obtain rfl := Option.some.inj here
      obtain rfl := Option.some.inj found
      exact (Piece.tidy_empty name).resembles
    · next before =>
      rw [if_neg before] at found
      exact twin.alike.pieces index piece later here found
  · show (straight.drafts.push _).size = (straight.program.pieces.push _).size ∧
      (actual.drafts.push _).size = (straight.program.pieces.push _).size
    simp only [Array.size_push, straightCount, actualCount, and_self]
  · replace found : (straight.drafts.push (.blank name))[index]? = some draft := found
    show _ ∧ (straight.program.pieces.push { name })[index]? = _ ∧
      ∃ piece, (actual.drafts.push (.blank name))[index]? = _
    rw [Array.getElem?_push, straightCount] at found
    rw [Array.getElem?_push, Array.getElem?_push, actualCount]
    split at found
    · next last =>
      obtain rfl := Option.some.inj found
      rw [if_pos last, if_pos last]
      exact ⟨.blank name, rfl, _, rfl⟩
    · next before =>
      rw [if_neg before, if_neg before]
      exact twin.drafts index draft found

theorem Twin.edit (twin : Twin straight actual) {edit : Piece.Edit}
    (allowed : actual.Allows (.edit index edit)) :
    Twin (straight.after (.edit index edit)) (actual.after (.edit index edit)) := by
  obtain ⟨ghost, there, permits⟩ := allowed
  obtain ⟨straightCount, actualCount⟩ := twin.counts
  have inside : index < straight.drafts.size := by
    rw [straightCount, ← actualCount]
    exact (Array.getElem?_eq_some_iff.mp there).1
  obtain ⟨draft, standing⟩ : ∃ draft, straight.drafts[index]? = some draft :=
    ⟨_, Array.getElem?_eq_getElem inside⟩
  obtain ⟨written, here, stale, same⟩ := twin.drafts index draft standing
  obtain rfl := Option.some.inj (there.symm.trans same)
  have allowed : draft.Allows edit := by cases edit <;> exact permits
  have small : index < actual.program.pieces.size := by
    rw [twin.alike.size, ← straightCount]
    exact inside
  obtain ⟨piece, found⟩ : ∃ piece, actual.program.pieces[index]? = some piece :=
    ⟨_, Array.getElem?_eq_getElem small⟩
  have alike := twin.alike.pieces index _ piece here found
  have applied := alike.apply written.sound allowed
  have straightDrafts : (straight.after (.edit index edit)).drafts =
      straight.drafts.modify index fun old => Draft.after { old with piece := draft.piece }
        edit := by
    simp only [after, here]
  have actualDrafts : (actual.after (.edit index edit)).drafts =
      actual.drafts.modify index fun old => Draft.after { old with piece } edit := by
    simp only [after, found]
  have straightPieces : (straight.after (.edit index edit)).program.pieces =
      straight.program.pieces.modify index fun current => edit.apply current := rfl
  have actualPieces : (actual.after (.edit index edit)).program.pieces =
      actual.program.pieces.modify index fun current => edit.apply current := rfl
  refine ⟨⟨?_, ?_, fun other first second before later => ?_⟩, twin.unlinked, twin.narrow, ?_,
    fun other result held => ?_⟩
  · obtain ⟨pieces, rest⟩ := twin.alike.rest
    refine ⟨pieces.modify index fun current => edit.apply current, ?_⟩
    show actual.program.modifyPiece index _ = _
    rw [rest]
    rfl
  · rw [straightPieces, actualPieces, Array.size_modify, Array.size_modify, twin.alike.size]
  · rw [straightPieces, Array.getElem?_modify] at before
    rw [actualPieces, Array.getElem?_modify] at later
    split at before
    · next this =>
      subst this
      rw [if_pos rfl, found] at later
      rw [here] at before
      obtain rfl := Option.some.inj before
      obtain rfl := Option.some.inj later
      exact applied
    · next apart =>
      rw [if_neg apart] at later
      exact twin.alike.pieces other first second before later
  · rw [straightDrafts, actualDrafts, straightPieces, Array.size_modify, Array.size_modify,
      Array.size_modify]
    exact twin.counts
  · rw [straightDrafts, Array.getElem?_modify] at held
    rw [actualDrafts, straightPieces, Array.getElem?_modify, Array.getElem?_modify]
    split at held
    · next this =>
      subst this
      rw [standing] at held
      obtain rfl := Option.some.inj held
      rw [if_pos rfl, if_pos rfl, here, there]
      refine ⟨written.after allowed, rfl, edit.apply piece, ?_⟩
      exact congrArg some (Draft.after_congr alike applied)
    · next apart =>
      rw [if_neg apart, if_neg apart]
      exact twin.drafts other result held

/-- A call that is no attempt to link, made in both workshops, keeps them twins. -/
theorem Twin.after (twin : Twin straight actual) {action : Action} (allowed : actual.Allows action)
    (plain : action.links = false) : Twin (straight.after action) (actual.after action) := by
  cases action with
  | addPiece name => exact twin.addPiece name
  | declare name =>
    exact twin.change (fun _ _ => rfl) rfl (narrow_push twin.narrow ⟨0, rfl⟩) fun _ => rfl
  | native id =>
    exact twin.change (fun _ _ => rfl) rfl (narrow_push twin.narrow ⟨id, rfl⟩) fun _ => rfl
  | bind target index =>
    refine twin.change (fun _ _ => rfl) rfl (fun other mem => ?_) fun _ => rfl
    obtain ⟨place, found⟩ := Array.mem_iff_getElem?.mp mem
    replace found : (straight.program.targets.modify target (·.bind index))[place]? = some other :=
      found
    rw [Array.getElem?_modify] at found
    split at found
    · obtain ⟨before, -, rfl⟩ := Option.map_eq_some_iff.mp found
      exact ⟨_, rfl⟩
    · exact twin.narrow other (Array.mem_of_getElem? found)
  | edit index edit => exact twin.edit allowed
  | appendData size initial =>
    exact twin.change (fun _ _ => rfl) rfl twin.narrow fun _ => rfl
  | intern text =>
    have found : (straight.program.intern text).1.linked = straight.program.linked ∧
        (straight.program.intern text).1.targets = straight.program.targets := by
      unfold Program.intern
      split <;> exact ⟨rfl, rfl⟩
    refine twin.change (fun prog pieces => ?_) found.1 (found.2 ▸ twin.narrow) fun _ => rfl
    show (Program.intern { prog with pieces } text).1 = { (prog.intern text).1 with pieces }
    unfold Program.intern
    dsimp only
    split <;> rfl
  | link => contradiction

/-- An attempt to link that fails keeps the workshops twins, though only the second makes it. -/
theorem Twin.attempt (twin : Twin straight actual) (failed : actual.program.link.2 ≠ none) :
    Twin straight (actual.after .link) :=
  { twin with alike := twin.alike.failed twin.linkable failed }

/-- Workshops stay twins when attempts to link are left out in the first. -/
theorem Twin.run (twin : Twin straight actual) {actions : List Action}
    (allowed : actual.AllowsAll actions) :
    Twin (straight.run (actions.filter fun action => !action.links)) (actual.run actions) := by
  induction actions generalizing straight actual with
  | nil => exact twin
  | cons action actions ih =>
    obtain ⟨first, others⟩ := allowed
    cases plain : action.links with
    | false =>
      rw [List.filter_cons_of_pos (by simp [plain])]
      exact ih (twin.after first plain) others
    | true =>
      rw [List.filter_cons_of_neg (by simp [plain])]
      cases action with
      | link => exact ih (twin.attempt first) others
      | _ => contradiction

/-- However a program was written through its interface, linking it fills in exactly its recorded
calls or reports exactly the bad ones, and attempts to link before make no difference. In a program
that was built, calls are calls of something. -/
theorem linksExactly_run :
    (∀ actions, AllowsAll {} actions →
      (run {} actions).program.LinksExactly ∧
      (run {} actions).program.link.2 =
        (run {} (actions.filter fun action => !action.links)).program.link.2 ∧
      ((run {} actions).program.link.2 = none → (run {} actions).program.link =
        (run {} (actions.filter fun action => !action.links)).program.link)) ∧
    ∀ sources, (Build.ofSources sources).failure = none →
      (Build.ofSources sources).program.pieces.size < 2 ^ 31 →
      ∀ piece ∈ (Build.ofSources sources).program.pieces, ∀ (cell : Nat) instr,
        piece.code.instruction? cell = some instr → instr.op = .call →
        ∃ imm, piece.code.immediate? (cell + 1) = some imm ∧ imm.toInt ≠ 0 ∧
          ((∃ native, Native.ofId? imm.toInt = some native) ∨
            ∃ index < (Build.ofSources sources).program.pieces.size,
              imm.toInt = index + 1) := by
  constructor
  · intro actions allowed
    have twin := twin_empty.run allowed
    have linkable := twin.linkable
    obtain ⟨outcome, same⟩ := twin.alike.link_eq linkable
    exact ⟨(twin.alike.linkable linkable).linksExactly, outcome, fun done =>
      same (outcome.symm.trans done)⟩
  · intro sources built few piece mem cell instr found call
    have sound := Build.programSound_of_built built few
    obtain ⟨imm, next, which⟩ := Image.callsTargeted_of_linkError? mem
      (sound.pieces piece mem).code sound.calls cell instr found call
    refine ⟨imm, next, fun zero => ?_, which⟩
    rcases which with ⟨native, known⟩ | ⟨index, -, number⟩
    · rw [zero] at known
      exact absurd known (by decide +revert)
    · omega

/-- A call that is written, then an attempt to link, and the piece that was missing. -/
def retried : List Action :=
  [.addPiece "main", .declare "f", .edit 0 (.call (some 0)), .link, .addPiece "f", .bind 0 1]

theorem linksExactly_run_retried :
    (run {} retried).program.link.2 = none ∧ (run {} retried).program.LinksExactly ∧
      (Build.ofSources Build.countdown).failure = none ∧
      ∀ piece ∈ (Build.ofSources Build.countdown).program.pieces, ∀ (cell : Nat) instr,
        piece.code.instruction? cell = some instr → instr.op = .call →
        ∃ imm, piece.code.immediate? (cell + 1) = some imm ∧ imm.toInt ≠ 0 := by
  have failed : (run {} (retried.take 3)).program.link.2 ≠ none := by decide +kernel
  have allowed : AllowsAll {} retried :=
    ⟨trivial, trivial, ⟨_, rfl, trivial⟩, failed, trivial, trivial, trivial⟩
  have built : (Build.ofSources Build.countdown).failure = none := by decide +kernel
  have few : (Build.ofSources Build.countdown).program.pieces.size < 2 ^ 31 := by decide +kernel
  refine ⟨by decide +kernel, (linksExactly_run.1 retried allowed).1, built, ?_⟩
  intro piece mem cell instr found call
  obtain ⟨imm, next, nonzero, -⟩ :=
    linksExactly_run.2 Build.countdown built few piece mem cell instr found call
  exact ⟨imm, next, nonzero⟩

end Workshop

end TinLang
