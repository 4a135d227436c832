import TinLang.Native
import TinLang.Program.Piece
import TinLang.Proofs.Code

/-!
# Sound pieces

A piece under construction is sound when its code is well formed, its line table covers exactly
its cells, every call has a native or waits for the linker, and every jump leads to a label or waits
for its end. Every way to extend a piece keeps it sound and keeps the jumps in it where they are, so
that they can be fixed later.
-/
namespace TinLang

variable {added : List Cell} {cell : Nat}

/-- An instruction with its immediate, if it has one. -/
def Instruction.cells (instr : Instruction) (imm : BitVec 32) : List Cell :=
  if instr.op.hasImmediate then [.instruction instr, .immediate imm]
  else [.instruction instr]

namespace Piece

/-- The immediate of an instruction that is no call stands at a cell. -/
def JumpAt (piece : Piece) (cell : Nat) : Prop :=
  ∃ instr value, piece.code[cell - 1]? = some (.instruction instr) ∧
    instr.op ≠ .call ∧ piece.code[cell]? = some (.immediate value)

/-- The call at a cell names a native, or a relocation gives it one of some functions. -/
def Targeted (functions : Nat) (piece : Piece) (cell : Nat) : Prop :=
  (∃ value, piece.code[cell + 1]? = some (.immediate value) ∧
      (Native.ofId? value.toInt).isSome) ∨
    ∃ reloc ∈ piece.relocations, reloc.cell = cell + 1 ∧
      ∃ index, reloc.target = some index ∧ index < functions

/-- A call that the linker fills in stands at a cell. -/
def VacantAt (piece : Piece) (cell : Nat) : Prop :=
  ∃ instr, piece.code[cell - 1]? = some (.instruction instr) ∧
    instr.op = .call ∧ piece.code[cell]? = some (.immediate 0)

/-- A jump with its immediate after a cell leads to a label, or to itself until its end is known. -/
def Lands (barrier cell : Nat) (value : BitVec 32) : Prop :=
  ∃ target : Nat, (target ≤ barrier ∨ target = cell + 1) ∧
    value = BitVec.ofInt 32 ((target : Int) - (cell + 1))

/-- What holds of a piece while it is built. -/
structure Sound (functions : Nat) (piece : Piece) : Prop where
  /-- The code is well formed. -/
  code : piece.code.WellFormed
  /-- Every cell has its entry in the line table. -/
  cells : piece.lineOf.size = piece.size
  /-- Every entry names a line. -/
  indices : ∀ index, some index ∈ piece.lineOf → index < piece.lines.size
  /-- The entry of the next cell names a line. -/
  current : ∀ index, piece.currentLine = some index → index < piece.lines.size
  /-- Every call has a target. -/
  calls : ∀ cell instr, piece.code[cell]? = some (.instruction instr) →
    instr.op = .call → piece.Targeted functions cell
  /-- The linker finds the immediates of calls where they were recorded. -/
  vacant : ∀ reloc ∈ piece.relocations, piece.VacantAt reloc.cell
  /-- Every call is recorded once. -/
  distinct : (piece.relocations.map Relocation.cell).Nodup
  /-- Every jump has an end. -/
  jumps : ∀ (cell : Nat) instr value, piece.code[cell]? = some (.instruction instr) →
    instr.op = .jump ∨ instr.op = .jumpZero →
    piece.code[cell + 1]? = some (.immediate value) → Lands piece.barrier cell value
  /-- Labels stand at cells of the code or at its end. -/
  labels : piece.barrier ≤ piece.size
  /-- The source lines are lines. -/
  texts : ∀ line ∈ piece.lines, ∀ byte ∈ line.text, byte ≠ Text.byte '\n'

/-- The lines of a piece stay, and up to every immediate so do the rows of its line table: a pop
cancels only a push, so no cell before an immediate is taken away. -/
structure KeepsRows (piece later : Piece) : Prop where
  lines : ∀ (index : Nat) line, piece.lines[index]? = some line → later.lines[index]? = some line
  rows : ∀ (cell : Nat) value, piece.code[cell]? = some (.immediate value) →
    (∃ other, later.code[cell]? = some (.immediate other)) ∧
      ∀ index ≤ cell, later.lineOf[index]? = piece.lineOf[index]?

/-- A piece is extended by some instructions: it stays sound, keeps its jumps, its lines and its
name, and its labels stay where they are. -/
structure Extends (functions : Nat) (emitted : Instruction → Prop) (piece later : Piece) :
    Prop where
  sound : piece.Sound functions → later.Sound functions
  jumps : ∀ cell, piece.JumpAt cell → later.JumpAt cell
  rows : piece.Sound functions → piece.KeepsRows later
  name : later.name = piece.name
  fields : ∀ instr, .instruction instr ∈ later.code →
    .instruction instr ∈ piece.code ∨ emitted instr
  labels : piece.Sound functions → piece.barrier ≤ later.barrier

variable {functions : Nat} {emitted : Instruction → Prop} {piece : Piece}

theorem KeepsRows.refl (piece : Piece) : piece.KeepsRows piece :=
  ⟨fun _ _ => id, fun _ value found => ⟨⟨value, found⟩, fun _ _ => rfl⟩⟩

theorem KeepsRows.trans {second third : Piece} (left : piece.KeepsRows second)
    (right : second.KeepsRows third) : piece.KeepsRows third := by
  refine ⟨fun index line found => right.lines index line (left.lines index line found), ?_⟩
  intro cell value found
  obtain ⟨⟨other, between⟩, first⟩ := left.rows cell value found
  obtain ⟨last, second⟩ := right.rows cell other between
  exact ⟨last, fun index inside => (second index inside).trans (first index inside)⟩

/-- A change elsewhere, and of lines that are added. -/
theorem keepsRows_of_same {later : Piece} (code : later.code = piece.code)
    (lineOf : later.lineOf = piece.lineOf)
    (lines : ∀ (index : Nat) line,
      piece.lines[index]? = some line → later.lines[index]? = some line) :
    piece.KeepsRows later := by
  refine ⟨lines, fun cell value found => ⟨⟨value, ?_⟩, fun index _ => ?_⟩⟩
  · rw [code, found]
  · rw [lineOf]

theorem Extends.refl (functions : Nat) (piece : Piece) : Extends functions emitted piece piece :=
  ⟨id, fun _ => id, fun _ => .refl piece, rfl, fun _ => .inl, fun _ => Nat.le_refl _⟩

theorem Extends.trans {second third : Piece} (left : Extends functions emitted piece second)
    (right : Extends functions emitted second third) : Extends functions emitted piece third :=
  ⟨right.sound ∘ left.sound, fun cell at' => right.jumps cell (left.jumps cell at'),
    fun sound => (left.rows sound).trans (right.rows (left.sound sound)),
    right.name.trans left.name,
    fun instr mem => (right.fields instr mem).elim (left.fields instr) .inr,
    fun sound => Nat.le_trans (left.labels sound) (right.labels (left.sound sound))⟩

theorem Lands.mono {barrier later : Nat} {value : BitVec 32} (lands : Lands barrier cell value)
    (more : barrier ≤ later) : Lands later cell value := by
  obtain ⟨target, place, distance⟩ := lands
  exact ⟨target, place.imp (fun before => Nat.le_trans before more) id, distance⟩

/-- A piece without code is sound. -/
theorem sound_empty (functions : Nat) (name : Text) : Sound functions { name } where
  code := Code.wellFormed_empty
  cells := rfl
  indices := by simp
  current := by simp
  calls := by simp
  vacant := by simp
  distinct := by simp
  jumps := by simp
  labels := Nat.zero_le _
  texts := by simp

/-- The tracked depth does not matter, and labels may be added. -/
theorem extends_of_same {later : Piece} (name : later.name = piece.name)
    (code : later.code = piece.code) (relocations : later.relocations = piece.relocations)
    (lines : later.lines = piece.lines) (lineOf : later.lineOf = piece.lineOf)
    (currentLine : later.currentLine = piece.currentLine)
    (labels : piece.Sound functions → piece.barrier ≤ later.barrier ∧ later.barrier ≤ later.size) :
    Extends functions emitted piece later := by
  refine ⟨fun sound => ?_, fun cell jump => ?_, fun _ => ?_, name, fun instr => ?_,
    fun sound => (labels sound).1⟩
  · constructor
    · rw [code]
      exact sound.code
    · rw [lineOf, sound.cells, Piece.size, Piece.size, code]
    · rw [lineOf, lines]
      exact sound.indices
    · rw [currentLine, lines]
      exact sound.current
    · unfold Targeted
      rw [code, relocations]
      exact sound.calls
    · unfold VacantAt
      rw [code, relocations]
      exact sound.vacant
    · rw [relocations]
      exact sound.distinct
    · rw [code]
      exact fun cell instr value found jump next =>
        (sound.jumps cell instr value found jump next).mono (labels sound).1
    · exact (labels sound).2
    · rw [lines]
      exact sound.texts
  · unfold JumpAt
    rw [code]
    exact jump
  · exact keepsRows_of_same code lineOf fun index line => by rw [lines]; exact id
  · rw [code]
    exact .inl

theorem extends_depth (depth : Int) : Extends functions emitted piece { piece with depth } :=
  extends_of_same rfl rfl rfl rfl rfl rfl fun sound => ⟨Nat.le_refl _, sound.labels⟩

theorem extends_label : Extends functions emitted piece piece.label.1 :=
  extends_of_same rfl rfl rfl rfl rfl rfl fun sound => ⟨sound.labels, Nat.le_refl _⟩

theorem extends_setLine (number : Int) {text : Text} (line : ∀ byte ∈ text, byte ≠ Text.byte '\n') :
    Extends functions emitted piece (piece.setLine number text) := by
  have extended : ∀ (lines : Array SourceLine) (currentLine : Option Nat),
      (∀ (index : Nat) line, piece.lines[index]? = some line → lines[index]? = some line) →
      piece.lines.size ≤ lines.size → (∀ index, currentLine = some index → index < lines.size) →
      (∀ line ∈ lines, line ∈ piece.lines ∨ line.text = text) →
      Extends functions emitted piece { piece with lines, currentLine } := by
    intro lines currentLine kept more inside new
    refine ⟨fun sound => ?_, fun _ => id, fun _ => keepsRows_of_same rfl rfl kept, rfl,
      fun _ => .inl, fun _ => Nat.le_refl _⟩
    exact { sound with
      indices := fun index mem => Nat.lt_of_lt_of_le (sound.indices index mem) more
      current := inside
      texts := fun line' mem => (new line' mem).elim (sound.texts line') fun same =>
        same ▸ line }
  unfold setLine
  split
  · next latest found =>
    have some : 0 < piece.lines.size := by
      cases size : piece.lines.size with
      | zero => simp [Array.size_eq_zero_iff.mp size] at found
      | succ size => exact Nat.succ_pos _
    split
    · refine extended piece.lines _ (fun _ _ => id) (Nat.le_refl _) ?_ fun _ => .inl
      intro index same
      obtain rfl := Option.some.inj same
      omega
    · refine extended _ _ (fun index line found => ?_) (by simp) ?_ fun line mem =>
        (Array.mem_push.mp mem).imp_right (congrArg SourceLine.text)
      · have inside := (Array.getElem?_eq_some_iff.mp found).1
        rw [Array.getElem?_push, if_neg (Nat.ne_of_lt inside), found]
      · intro index same
        obtain rfl := Option.some.inj same
        simp
  · next none =>
    have empty : piece.lines.size = 0 := by simpa using none
    refine extended _ _ (fun index line found => ?_) (by simp [empty]) ?_ (by simp)
    · have inside := (Array.getElem?_eq_some_iff.mp found).1
      omega
    intro index same
    obtain rfl := Option.some.inj same
    simp

/-- The piece with some more cells and relocations. -/
def extend (piece : Piece) (added : List Cell) (more : List Relocation) (depth : Int) : Piece :=
  { piece with
    code := piece.code ++ added.toArray
    lineOf := piece.lineOf ++ (List.replicate added.length piece.currentLine).toArray
    relocations := piece.relocations ++ more
    depth }

/-- A cell stays where it is when others follow. -/
theorem getElem?_extend {more : List Relocation} {depth : Int} {index : Nat}
    {cell : Cell} (found : piece.code[index]? = some cell) :
    (piece.extend added more depth).code[index]? = some cell := by
  have inside := (Array.getElem?_eq_some_iff.mp found).1
  rw [extend, Array.getElem?_append_left inside, found]

theorem getElem?_extend_cells {instr : Instruction} {imm : BitVec 32}
    {more : List Relocation} {depth : Int} (cell : Nat) :
    (piece.extend (instr.cells imm) more depth).code[cell]? =
      if cell < piece.size then piece.code[cell]?
      else (instr.cells imm)[cell - piece.size]? := by
  simp only [extend]
  split
  · next inside => exact Array.getElem?_append_left inside
  · next outside =>
    rw [Array.getElem?_append_right (by exact Nat.le_of_not_lt outside)]
    simp [Piece.size]

/-- An instruction of the longer code is the new one or stood before. -/
theorem here_of_extend {instr other : Instruction} {imm : BitVec 32}
    {more : List Relocation} {depth : Int}
    (found : (piece.extend (instr.cells imm) more depth).code[cell]? =
      some (.instruction other)) :
    (cell < piece.size ∧ piece.code[cell]? = some (.instruction other)) ∨
      (cell = piece.size ∧ other = instr) := by
  rw [getElem?_extend_cells] at found
  split at found
  · next inside => exact .inl ⟨inside, found⟩
  · next outside =>
    unfold Instruction.cells at found
    obtain ⟨rest, same⟩ : ∃ rest, cell = piece.size + rest := ⟨cell - piece.size, by omega⟩
    rw [same, Nat.add_sub_cancel_left] at found
    split at found
    · match rest with
      | 0 => exact .inr ⟨same, (by simpa using found : instr = other).symm⟩
      | 1 => simp at found
      | _ + 2 => simp at found
    · match rest with
      | 0 => exact .inr ⟨same, (by simpa using found : instr = other).symm⟩
      | _ + 1 => simp at found

/-- The new immediate stands behind its instruction. -/
theorem immediate_extend {instr : Instruction} {imm : BitVec 32}
    {more : List Relocation} {depth : Int} (wide : instr.op.hasImmediate) :
    (piece.extend (instr.cells imm) more depth).code[piece.size + 1]? =
      some (.immediate imm) := by
  rw [getElem?_extend_cells, if_neg (by omega), Nat.add_sub_cancel_left, Instruction.cells,
    if_pos wide]
  rfl

theorem targeted_extend {more : List Relocation} {depth : Int}
    (targeted : piece.Targeted functions cell) :
    (piece.extend added more depth).Targeted functions cell := by
  rcases targeted with ⟨value, found, native⟩ | ⟨reloc, mem, place, target⟩
  · exact .inl ⟨value, getElem?_extend found, native⟩
  · exact .inr ⟨reloc, List.mem_append_left _ mem, place, target⟩

theorem jumpAt_extend {more : List Relocation} {depth : Int}
    (jump : piece.JumpAt cell) : (piece.extend added more depth).JumpAt cell := by
  obtain ⟨instr, value, found, plain, imm⟩ := jump
  exact ⟨instr, value, getElem?_extend found, plain, getElem?_extend imm⟩

theorem VacantAt.lt (vacant : piece.VacantAt cell) : cell < piece.size := by
  obtain ⟨_, -, -, found⟩ := vacant
  exact (Array.getElem?_eq_some_iff.mp found).1

theorem vacantAt_extend {more : List Relocation} {depth : Int}
    (vacant : piece.VacantAt cell) : (piece.extend added more depth).VacantAt cell := by
  obtain ⟨instr, found, call, imm⟩ := vacant
  exact ⟨instr, getElem?_extend found, call, getElem?_extend imm⟩

/-- The new cells are put behind the rows that are there. -/
theorem keepsRows_extend {more : List Relocation} {depth : Int}
    (sound : piece.Sound functions) : piece.KeepsRows (piece.extend added more depth) := by
  refine ⟨fun _ _ => id, fun cell value found => ⟨⟨value, getElem?_extend found⟩, ?_⟩⟩
  intro index before
  have inside : cell < piece.size := (Array.getElem?_eq_some_iff.mp found).1
  rw [extend, Array.getElem?_append_left (by rw [sound.cells]; omega)]

/-- One more instruction extends a piece when it has a target if it is a call and an end if it is a
jump. -/
theorem extends_extend {instr : Instruction} {imm : BitVec 32} {more : List Relocation}
    {depth : Int} (defined : instr.op.isDefined) (fine : emitted instr)
    (calls : instr.op = .call →
      (piece.extend (instr.cells imm) more depth).Targeted functions piece.size)
    (jumps : instr.op = .jump ∨ instr.op = .jumpZero →
      Lands piece.barrier piece.size imm)
    (vacant : ∀ reloc ∈ more, piece.size ≤ reloc.cell ∧
      (piece.extend (instr.cells imm) more depth).VacantAt reloc.cell := by simp)
    (distinct : (more.map Relocation.cell).Nodup := by simp) :
    Extends functions emitted piece (piece.extend (instr.cells imm) more depth) := by
  refine ⟨fun sound => ?_, fun cell jump => jumpAt_extend jump, keepsRows_extend, rfl,
    fun other mem => ?_, fun _ => Nat.le_refl _⟩
  · constructor
    · have formed : Code.Formed false (instr.cells imm) := by
        unfold Instruction.cells
        cases wide : instr.op.hasImmediate <;> simp [Code.Formed, defined, wide]
      have whole := (Code.formed_append (instr.cells imm) sound.code).mpr formed
      simpa [extend, Code.WellFormed] using whole
    · have cells := sound.cells
      simp only [Piece.size] at cells
      simp [extend, Piece.size, cells]
    · intro index mem
      simp only [extend, Array.mem_append, List.mem_toArray, List.mem_replicate] at mem
      rcases mem with old | ⟨_, new⟩
      · exact sound.indices index old
      · exact sound.current index new.symm
    · exact sound.current
    · intro cell other found call
      rcases here_of_extend found with ⟨_, old⟩ | ⟨rfl, rfl⟩
      · exact targeted_extend (sound.calls cell other old call)
      · exact calls call
    · intro reloc mem
      rcases List.mem_append.mp mem with old | new
      · exact vacantAt_extend (sound.vacant reloc old)
      · exact (vacant reloc new).2
    · rw [extend, List.map_append]
      refine List.nodup_append.mpr ⟨sound.distinct, distinct, ?_⟩
      rintro _ old _ new rfl
      obtain ⟨reloc, earlier, place⟩ := List.mem_map.mp old
      obtain ⟨other, later, rfl⟩ := List.mem_map.mp new
      have inside := (sound.vacant reloc earlier).lt
      have behind := (vacant other later).1
      omega
    · intro cell other value found jump next
      have wide : other.op.hasImmediate := by rcases jump with op | op <;> rw [op] <;> rfl
      rcases here_of_extend found with ⟨_, old⟩ | ⟨rfl, rfl⟩
      · obtain ⟨before, stood⟩ := Code.formed_next sound.code (by simpa using old) wide
        have stood : piece.code[cell + 1]? = some (.immediate before) := by simpa using stood
        rw [getElem?_extend stood] at next
        exact sound.jumps cell other value old jump (stood.trans next)
      · rw [immediate_extend wide] at next
        obtain rfl : imm = value := by simpa using next
        exact jumps jump
    · have before := sound.labels
      simp only [Piece.size, extend, Array.size_append] at before ⊢
      omega
    · exact sound.texts
  · obtain ⟨cell, found⟩ := Array.mem_iff_getElem?.mp mem
    rcases here_of_extend found with ⟨_, old⟩ | ⟨_, rfl⟩
    · exact .inl (Array.mem_of_getElem? old)
    · exact .inr fine

theorem push_eq_extend (cell : Cell) : piece.push cell = piece.extend [cell] [] piece.depth := by
  simp [push, extend]

theorem push_push_eq_extend (first second : Cell) :
    (piece.push first).push second = piece.extend [first, second] [] piece.depth := by
  have pair : ∀ {α : Type} (items : Array α) (first second : α),
      (items.push first).push second = items ++ [first, second].toArray := by
    intro α items first second
    apply Array.toList_inj.mp
    simp
  simp [push, extend, pair, List.replicate]

/-- A register instruction that is no call extends a piece. -/
theorem extends_push {instr : Instruction} (defined : instr.op.isDefined)
    (plain : instr.op.hasImmediate = false) (fine : emitted instr) :
    Extends functions emitted piece (piece.push (.instruction instr)) := by
  have cells : [.instruction instr] = instr.cells 0 := by
    simp [Instruction.cells, plain]
  have other : ∀ op : Opcode, op.hasImmediate → instr.op ≠ op := by
    rintro _ wide rfl
    simp [plain] at wide
  rw [push_eq_extend, cells]
  exact extends_extend defined fine (fun call => absurd call (other _ rfl))
    fun jump => jump.elim (fun op => absurd op (other _ rfl)) fun op => absurd op (other _ rfl)

theorem getElem?_truncate (piece : Piece) (count index : Nat) :
    (piece.truncate count).code[index]? = if index < count then piece.code[index]? else none := by
  have taken : (piece.truncate count).code.toList = piece.code.toList.take count := by
    simp [truncate]
  rw [← Array.getElem?_toList, taken, List.getElem?_take]
  simp

theorem getElem?_lineOf_truncate (piece : Piece) (count index : Nat) :
    (piece.truncate count).lineOf[index]? =
      if index < count then piece.lineOf[index]? else none := by
  have taken : (piece.truncate count).lineOf.toList = piece.lineOf.toList.take count := by
    simp [truncate]
  rw [← Array.getElem?_toList, taken, List.getElem?_take]
  simp

/-- A pop cancels only a push. -/
theorem back?_of_cancels {reg : Register} (cancels : piece.cancels reg) :
    ∃ last, piece.code.back? = some (.instruction last) ∧ last.op = .push ∧
      last.first = reg := by
  simp only [Piece.cancels, Bool.and_eq_true] at cancels
  split at cancels
  · next last found =>
    have which : last.op = .push ∧ last.first = reg := by simpa using cancels.2
    exact ⟨last, found, which.1, which.2⟩
  · simp at cancels

/-- The last cell of a piece that a pop cancels can be taken away. -/
theorem extends_truncate {reg : Register} (cancels : piece.cancels reg) :
    Extends functions emitted piece (piece.truncate (piece.size - 1)) := by
  obtain ⟨last, ends, push, _⟩ := back?_of_cancels cancels
  have lastCell : piece.code[piece.size - 1]? = some (.instruction last) := by
    rw [← ends, Array.back?]
    rfl
  have shorter : ∀ {index : Nat} {cell : Cell}, piece.code[index]? = some cell →
      index ≠ piece.size - 1 → (piece.truncate (piece.size - 1)).code[index]? = some cell := by
    intro index cell found differs
    have inside : index < piece.size := (Array.getElem?_eq_some_iff.mp found).1
    rw [getElem?_truncate, if_pos (by omega), found]
  have notLast : ∀ {index : Nat} {value : BitVec 32},
      piece.code[index]? = some (.immediate value) → index ≠ piece.size - 1 := by
    rintro index value found rfl
    rw [lastCell] at found
    simp at found
  have behind : piece.barrier < piece.size := by
    simp only [Piece.cancels, Bool.and_eq_true, decide_eq_true_eq] at cancels
    exact cancels.1
  have kept : ∀ {index : Nat} {cell : Cell},
      (piece.truncate (piece.size - 1)).code[index]? = some cell →
      piece.code[index]? = some cell := by
    intro index cell found
    rw [getElem?_truncate] at found
    split at found
    · exact found
    · contradiction
  refine ⟨fun sound => ?_, fun cell jump => ?_, fun _ => ⟨fun _ _ => id, fun cell value found =>
    ⟨⟨value, shorter found (notLast found)⟩, fun index before => ?_⟩⟩, rfl, fun instr mem => ?_,
    fun _ => Nat.le_refl _⟩
  · constructor
    · exact sound.code.take ends
    · have cells := sound.cells
      simp only [Piece.size] at cells
      simp [truncate, Piece.size, cells]
    · intro index mem
      refine sound.indices index ?_
      have taken : some index ∈ piece.lineOf.toList.take (piece.size - 1) := by
        rw [← Array.mem_toList_iff] at mem
        simpa [truncate] using mem
      simpa using List.mem_of_mem_take taken
    · exact sound.current
    · intro cell instr found call
      rcases sound.calls cell instr (kept found) call with ⟨value, at', native⟩ | relocated
      · exact .inl ⟨value, shorter at' (notLast at'), native⟩
      · exact .inr relocated
    · intro reloc mem
      obtain ⟨instr, found, call, imm⟩ := sound.vacant reloc mem
      have inside : reloc.cell < piece.size := (Array.getElem?_eq_some_iff.mp imm).1
      have here := notLast imm
      exact ⟨instr, shorter found (by omega), call, shorter imm here⟩
    · exact sound.distinct
    · exact fun cell instr value found jump next =>
        sound.jumps cell instr value (kept found) jump (kept next)
    · have size : (piece.truncate (piece.size - 1)).size = piece.size - 1 := by
        simp [truncate, Piece.size]
      rw [size]
      exact Nat.le_sub_one_of_lt behind
    · exact sound.texts
  · obtain ⟨instr, value, found, plain, imm⟩ := jump
    have inside : cell < piece.size := (Array.getElem?_eq_some_iff.mp imm).1
    refine ⟨instr, value, shorter found ?_, plain, shorter imm (notLast imm)⟩
    have here := notLast imm
    omega
  · have inside : cell < piece.size := (Array.getElem?_eq_some_iff.mp found).1
    have here := notLast found
    rw [getElem?_lineOf_truncate, if_pos (by omega)]
  · obtain ⟨cell, found⟩ := Array.mem_iff_getElem?.mp mem
    exact .inl (Array.mem_of_getElem? (kept found))

/-- A register instruction extends a piece. -/
theorem extends_emit {instr : Instruction} (defined : instr.op.isDefined)
    (plain : instr.op.hasImmediate = false) (fine : emitted instr) :
    Extends functions emitted piece (piece.emit instr).1 := by
  unfold emit
  split
  · exact (extends_depth _).trans (extends_push defined plain fine)
  · simp only
    split
    · next cancels => exact (extends_truncate cancels).trans (extends_depth _)
    · exact (extends_depth _).trans (extends_push defined plain fine)
  · exact extends_push defined plain fine

/-- An instruction with an immediate that is no call extends a piece; a jump has no end yet. -/
theorem extends_emitImmediate {instr : Instruction} {value : BitVec 32}
    (wide : instr.op.hasImmediate) (plain : instr.op ≠ .call)
    (open' : instr.op = .jump ∨ instr.op = .jumpZero → value = 0)
    (fine : emitted instr) :
    Extends functions emitted piece (piece.emitImmediate instr value).1 ∧
      (piece.emitImmediate instr value).1.JumpAt (piece.size + 1) := by
  have defined : instr.op.isDefined := by
    cases op : instr.op <;> simp_all [Opcode.hasImmediate, Opcode.isDefined]
  have cells : [.instruction instr, .immediate value] = instr.cells value := by
    simp [Instruction.cells, wide]
  have moved : ∃ depth, (piece.emitImmediate instr value).1 =
      { piece with depth }.extend (instr.cells value) [] depth := by
    unfold emitImmediate
    rw [← cells]
    split
    · exact ⟨_, push_push_eq_extend _ _⟩
    · exact ⟨piece.depth, push_push_eq_extend _ _⟩
  obtain ⟨depth, result⟩ := moved
  rw [result]
  constructor
  · refine (extends_depth depth).trans (extends_extend defined fine (fun call => absurd call plain)
      fun jump => ?_)
    have distance : ((piece.size + 1 : Nat) : Int) - (piece.size + 1) = 0 := by omega
    refine ⟨piece.size + 1, .inr rfl, ?_⟩
    rw [open' jump]
    exact (congrArg (BitVec.ofInt 32) distance).symm
  · refine ⟨instr, value, ?_, plain, immediate_extend wide⟩
    simp [extend, Piece.size, ← cells]

/-- A jump back extends a piece. -/
theorem extends_emitJumpBack {target : Nat} (label : target ≤ piece.barrier)
    (fine : emitted ⟨.jump, .unused, .unused, 0⟩) :
    Extends functions emitted piece (piece.emitJumpBack .jump .unused target) := by
  rw [emitJumpBack, push_push_eq_extend]
  refine @extends_extend _ _ _ ⟨.jump, .unused, .unused, 0⟩ _ _ _ rfl fine (by simp) (fun _ => ?_)
    (by simp) (by simp)
  refine ⟨target, .inl label, ?_⟩
  simp [Piece.size, push]

/-- A call of a function extends a piece. -/
theorem extends_emitCall {index : Nat} (known : index < functions)
    (fine : emitted ⟨.call, .unused, .unused, 0⟩) :
    Extends functions emitted piece (piece.emitCall (some index)) := by
  have result : piece.emitCall (some index) = piece.extend
      (Instruction.cells ⟨.call, .unused, .unused, 0⟩ 0) [⟨some index, piece.size + 1⟩]
      piece.depth := by
    have plain := @push_push_eq_extend piece (.instruction ⟨.call, .unused, .unused, 0⟩)
      (.immediate 0)
    simp only [emitCall, emitImmediate, reduceCtorEq, false_and, ↓reduceIte, plain]
    simp [extend, Instruction.cells, Opcode.hasImmediate]
  rw [result]
  refine extends_extend rfl fine (fun _ => .inr
    ⟨⟨some index, piece.size + 1⟩, by simp [extend], rfl,
    index, rfl, known⟩) (by simp) ?_
  intro reloc mem
  obtain rfl := List.mem_singleton.mp mem
  exact ⟨Nat.le_succ _, ⟨.call, .unused, .unused, 0⟩,
    by simp [extend, Piece.size, Instruction.cells, Opcode.hasImmediate], rfl, immediate_extend rfl⟩

/-- A call of a native extends a piece. -/
theorem extends_emitNativeCall (native : Native) (fine : emitted ⟨.call, .unused, .unused, 0⟩) :
    Extends functions emitted piece (piece.emitNativeCall native.id) := by
  have result : piece.emitNativeCall native.id = piece.extend
      (Instruction.cells ⟨.call, .unused, .unused, 0⟩ (BitVec.ofInt 32 native.id)) []
      piece.depth := by
    simp only [emitNativeCall, emitImmediate, reduceCtorEq, false_and, ↓reduceIte]
    exact push_push_eq_extend _ _
  rw [result]
  refine extends_extend rfl fine (fun _ => .inl ⟨_, immediate_extend rfl, ?_⟩) (by simp)
  cases native <;> decide

/-- Fixing a jump extends a piece. -/
theorem extends_fixJump (jump : piece.JumpAt cell) :
    Extends functions emitted piece (piece.fixJump cell).1 := by
  obtain ⟨instr, value, before, plain, found⟩ := jump
  obtain ⟨patched, done⟩ : ∃ patched, piece.code.patch? cell
      (BitVec.ofInt 32 (piece.size - cell)) = some patched := ⟨_, Code.patch?_immediate found _⟩
  have result : (piece.fixJump cell).1 = { piece.label.1 with code := patched } := by
    simp [fixJump, done]
  have cells := Code.getElem?_of_patch? done
  have kept : ∀ {index : Nat} {decoded : Instruction},
      patched[index]? = some (.instruction decoded) ↔
        piece.code[index]? = some (.instruction decoded) := by
    intro index decoded
    rw [cells]
    split
    · next same => simp [same, found]
    · rfl
  have sizes := Code.size_of_patch? done
  rw [result]
  refine ⟨fun sound => ?_, fun other jump => ?_, fun _ => ⟨fun _ _ => id, fun other old here =>
    ⟨?_, fun _ _ => rfl⟩⟩, rfl, fun decoded mem => ?_, fun sound => sound.labels⟩
  · constructor
    · exact sound.code.patch done
    · have cells := sound.cells
      simp only [Piece.size] at cells ⊢
      rw [sizes]
      exact cells
    · exact sound.indices
    · exact sound.current
    · intro place decoded at' call
      rcases sound.calls place decoded (kept.mp at') call with ⟨id, native, known⟩ | relocated
      · refine .inl ⟨id, ?_, known⟩
        have apart : place + 1 ≠ cell := by
          rintro rfl
          rw [Nat.add_sub_cancel, kept.mp at'] at before
          obtain rfl : decoded = instr := by simpa using before
          exact plain call
        simp only [cells, apart, ↓reduceIte, native]
      · exact .inr relocated
    · intro reloc mem
      obtain ⟨decoded, first, call, second⟩ := sound.vacant reloc mem
      refine ⟨decoded, kept.mpr first, call, ?_⟩
      rw [cells, if_neg, second]
      rintro rfl
      obtain rfl : decoded = instr := by simpa [before] using first.symm
      exact plain call
    · exact sound.distinct
    · intro place decoded value at' jump next
      by_cases here : place + 1 = cell
      · have fixed : patched[cell]? = some (.immediate (BitVec.ofInt 32 (piece.size - cell))) := by
          rw [cells, if_pos rfl]
        rw [here] at next
        obtain rfl : BitVec.ofInt 32 ((piece.size : Int) - cell) = value := by
          simpa [fixed] using next
        refine ⟨piece.size, .inl (Nat.le_refl _), ?_⟩
        rw [← here]
        rfl
      · simp only [cells, here, ↓reduceIte] at next
        exact (sound.jumps place decoded value (kept.mp at') jump next).mono sound.labels
    · simp only [Piece.size, label]
      exact Nat.le_of_eq sizes.symm
    · exact sound.texts
  · obtain ⟨decoded, old, first, other', second⟩ := jump
    by_cases same : other = cell
    · exact ⟨decoded, _, kept.mpr first, other', by rw [cells, if_pos same]⟩
    · exact ⟨decoded, old, kept.mpr first, other', by rw [cells, if_neg same, second]⟩
  · by_cases same : other = cell
    · exact ⟨_, by rw [cells, if_pos same]⟩
    · exact ⟨old, by rw [cells, if_neg same, here]⟩
  · obtain ⟨index, at'⟩ := Array.mem_iff_getElem?.mp mem
    exact .inl (Array.mem_of_getElem? (kept.mp at'))

end Piece

end TinLang
