import TinLang.Proofs.Generate.Balance
import TinLang.Proofs.Machine.Footprint

/-!
# Pieces under construction

A piece is written through a few calls: instructions, pushes and pops, labels, jumps to labels that
come later or came before, and source lines. A pop takes back the push before it, so cells can
disappear again. What a caller was handed stays good all the same: labels, the immediates of open
jumps and those of calls are never cut off, and a jump leads to the label it was given. A draft
records beside the piece what was handed out and, for every cell, which call wrote it; the edits
keep a draft sound (`Draft.sound_after`), and a jump of a sound draft takes the machine to its
label.
-/
namespace TinLang

variable {cell : Nat} {op : Opcode} {reg : Register} {depth : Int}

namespace Code

/-- The immediate at the start of some cells, zero if there is none. -/
def operand : List Cell → BitVec 32
  | .immediate value :: _ => value
  | _ => 0

/-- How far all instructions of some cells together move the stack pointer. -/
def netShift : List Cell → Int
  | [] => 0
  | .instruction decoded :: cells => decoded.shift (operand cells) + netShift cells
  | .immediate _ :: cells => netShift cells

theorem netShift_append {pending : Bool} {cells : List Cell} (later : List Cell)
    (formed : Formed pending cells) : netShift (cells ++ later) = netShift cells +
    netShift later := by
  induction cells generalizing pending with
  | nil => simp [netShift]
  | cons cell cells ih =>
    cases cell with
    | immediate value =>
      cases pending with
      | false => exact formed.elim
      | true => exact ih formed
    | instruction decoded =>
      cases pending with
      | true => exact formed.elim
      | false =>
        have same : decoded.shift (operand (cells ++ later)) = decoded.shift (operand cells) := by
          refine Instruction.shift_congr fun wide => ?_
          have waiting : Formed true cells := wide ▸ formed.2
          cases cells with
          | nil => exact waiting.elim
          | cons next cells =>
            cases next with
            | instruction other => exact waiting.elim
            | immediate value => rfl
        rw [List.cons_append, netShift, netShift, same, ih formed.2, Int.add_assoc]

theorem netShift_cells (instr : Instruction) (imm : BitVec 32) :
    netShift (instr.cells imm) = instr.shift imm := by
  unfold Instruction.cells
  split
  · simp [netShift, operand]
  · next narrow =>
    rw [netShift, netShift, Int.add_zero]
    exact Instruction.shift_congr fun wide => absurd wide narrow

/-- The distance of a jump does not matter. -/
theorem netShift_set {cells : List Cell} {index : Nat} {jump : Instruction} {old : BitVec 32}
    (new : BitVec 32) (before : cells[index]? = some (.instruction jump)) (leaps : jump.op.leaps)
    (found : cells[index + 1]? = some (.immediate old)) :
    netShift (cells.set (index + 1) (.immediate new)) = netShift cells := by
  induction cells generalizing index with
  | nil => simp at before
  | cons cell cells ih =>
    rw [List.set_cons_succ]
    cases index with
    | zero =>
      obtain rfl : cell = .instruction jump := by simpa using before
      cases cells with
      | nil => simp at found
      | cons next cells =>
        obtain rfl : next = .immediate old := by simpa using found
        simp [netShift, Instruction.shift_of_leaps leaps]
    | succ index =>
      have rest := ih (by simpa using before) (by simpa using found)
      cases cell with
      | immediate value => exact rest
      | instruction decoded =>
        have same : operand (cells.set (index + 1) (.immediate new)) = operand cells := by
          cases cells with
          | nil => rfl
          | cons next cells => cases next <;> rfl
        rw [netShift, netShift, rest, same]

end Code

/-- A jump whose distance leads to a target takes the machine there. -/
theorem Machine.step_leap {prog : Program} (settings : Settings) {machine : Machine}
    {target : Nat} {slot : Fin 12}
    (here : (machine.code prog)[cell]? = some (.instruction ⟨op, reg, .unused, 0⟩))
    (next : (machine.code prog)[cell + 1]? =
      some (.immediate (BitVec.ofInt 32 ((target : Int) - (cell + 1 : Nat)))))
    (small : cell + 1 < 2 ^ 31) (near : target < 2 ^ 31) (slots : reg.slot? = some slot)
    (counter : machine.counter = cell)
    (taken : op = .jump ∨ op = .jumpZero ∧ (machine.fetchedRegisters 2).get slot = 0) :
    ∃ after, machine.step prog settings = (after, none) ∧ after.counter = target ∧
      after.piece = machine.piece := by
  have wide : op.hasImmediate := by
    rcases taken with rfl | ⟨rfl, -⟩ <;> rfl
  have natural : ¬ (cell : Int) < 0 := by omega
  have following : ¬ (cell : Int) + 1 < 0 := by omega
  have place : ((cell : Int) + 1).toNat = cell + 1 := by omega
  have fetches : machine.fetch prog = (2, .ok ⟨⟨op, reg, .unused, 0⟩,
      BitVec.ofInt 32 ((target : Int) - (cell + 1 : Nat)), slot, 0⟩) := by
    have unused : Register.unused.slot? = some 0 := rfl
    simp [fetch, counter, Code.instruction?, Code.immediate?, Code.cell?, natural, following, place,
      here, next, wide, slots, unused]
  generalize distance : BitVec.ofInt 32 ((target : Int) - (cell + 1 : Nat)) = imm at fetches
  have number : imm.toInt = (target : Int) - (cell + 1 : Nat) := by
    rw [← distance, BitVec.toInt_ofInt, Int.bmod_eq_of_le (by omega) (by omega)]
  -- The distance counts from the immediate, and the counter is past it already.
  have arrives : (machine.registers.get slotPC + BitVec.ofNat 64 2 +
      (imm.signExtend 64 - 1)).toInt = target := by
    have one : (1 : Word).toInt = 1 := rfl
    have two : (BitVec.ofNat 64 2).toInt = 2 := rfl
    have start : (machine.registers.get slotPC).toInt = cell := counter
    rw [BitVec.toInt_add, BitVec.toInt_add, BitVec.toInt_sub, one, two, start,
      BitVec.toInt_signExtend_of_le (by decide), number]
    simp only [Int.bmod_add_bmod, Int.add_bmod_bmod]
    rw [Int.bmod_eq_of_le (by omega) (by omega)]
    omega
  have leap : ∀ moved : Machine, (jump (imm.signExtend 64 - 1)).run.run moved =
      (.ok (), { moved with
        registers := assign moved.registers slotPC
          (moved.registers.get slotPC + (imm.signExtend 64 - 1)) }) := fun moved => rfl
  have run : (execute prog settings ⟨⟨op, reg, .unused, 0⟩, imm, slot, 0⟩).run.run
      (machine.fetched 2) =
        (jump (imm.signExtend 64 - 1)).run.run (machine.fetched 2) := by
    rcases taken with rfl | ⟨rfl, zero⟩
    · rfl
    · have value : (machine.fetched 2).registers.get slot = 0 := zero
      simp only [execute, run_bind, run_get, value]
      rfl
  refine ⟨_, step_completes fetches (run.trans (leap _)), ?_, rfl⟩
  have pointer : (machine.fetched 2).registers.get slotPC =
      machine.registers.get slotPC + BitVec.ofNat 64 2 :=
    (get_assign _ _ _ _).trans (if_pos rfl)
  show ((assign _ slotPC _).get slotPC).toInt = target
  rw [get_assign, if_pos rfl, pointer, arrives]

namespace Piece

/-- A call of the interface through which a piece is written. -/
inductive Edit where
  | emit (instr : Instruction)
  | emitImmediate (instr : Instruction) (value : BitVec 32)
  | push (reg : Register)
  | pop (reg : Register)
  /-- A jump to a label that comes later. -/
  | jump (op : Opcode) (reg : Register)
  /-- Let an open jump lead to the end of the code. -/
  | fix (cell : Nat)
  /-- A jump to a label that came before. -/
  | jumpBack (op : Opcode) (reg : Register) (target : Nat)
  | label
  | call (target : Option Nat)
  | callNative (id : Int)
  | setLine (number : Int) (text : Text)

/-- The piece after a call. -/
def Edit.apply (piece : Piece) : Edit → Piece
  | .emit instr => (piece.emit instr).1
  | .emitImmediate instr value => (piece.emitImmediate instr value).1
  | .push reg => piece.emitPush reg
  | .pop reg => piece.emitPop reg
  | .jump op reg => (piece.emitJump op reg).1
  | .fix cell => (piece.fixJump cell).1
  | .jumpBack op reg target => piece.emitJumpBack op reg target
  | .label => piece.label.1
  | .call target => piece.emitCall target
  | .callNative id => piece.emitNativeCall id
  | .setLine number text => piece.setLine number text

/-- A label that was handed out: its cell, and the number of the call that set it. -/
structure Landmark where
  cell : Nat
  time : Nat
  deriving DecidableEq, Repr

/-- A piece under construction, and what its writer was handed. -/
structure Draft where
  piece : Piece
  /-- The calls so far, the first one first. -/
  edits : List Edit := []
  /-- The labels so far. -/
  labels : List Landmark := []
  /-- The immediates of the jumps that were left open. -/
  holes : List Nat := []
  /-- The immediates of jumps with the cells they were last told to lead to, the latest first. -/
  aims : List (Nat × Nat) := []
  /-- For each cell the number of the call that wrote it. -/
  born : List Nat := []
  /-- How many calls there were. -/
  clock : Nat := 0

namespace Draft

/-- A draft without code. -/
def blank (name : Text) : Draft := { piece := { name } }

/-- The calls that a writer may make: instructions through the call for their kind, jumps fixed at
the cells that were handed out, and jumps back to labels. -/
def Allows (draft : Draft) : Edit → Prop
  | .emit instr => instr.op.isDefined ∧ instr.op.hasImmediate = false
  | .emitImmediate instr _ => instr.op.hasImmediate
  | .jump op _ => op.leaps
  | .fix cell => cell ∈ draft.holes
  | .jumpBack op _ target => op.leaps ∧ ∃ label ∈ draft.labels, label.cell = target
  | _ => True

/-- The label that a call sets. -/
def labelled (draft : Draft) : Edit → List Landmark
  | .label | .fix _ => [⟨draft.piece.label.2, draft.clock⟩]
  | _ => []

/-- The cell that a call hands out to be fixed later. -/
def opened (draft : Draft) : Edit → List Nat
  | .jump op reg => [(draft.piece.emitJump op reg).2]
  | _ => []

/-- Where a call makes a jump lead. -/
def aimed (draft : Draft) : Edit → List (Nat × Nat)
  | .fix cell => [(cell, draft.piece.label.2)]
  | .jumpBack _ _ target => [(draft.piece.size + 1, target)]
  | _ => []

/-- The draft after a call. Cells that stay keep the call that wrote them. -/
def after (draft : Draft) (edit : Edit) : Draft :=
  let piece := edit.apply draft.piece
  { piece
    edits := draft.edits ++ [edit]
    labels := draft.labels ++ draft.labelled edit
    holes := draft.holes ++ draft.opened edit
    aims := draft.aimed edit ++ draft.aims
    born := draft.born.take piece.size ++
      List.replicate (piece.size - draft.born.length) draft.clock
    clock := draft.clock + 1 }

/-- The drafts that calls lead to. -/
inductive Written : Draft → Prop where
  | blank (name : Text) : Written (blank name)
  | after {draft : Draft} {edit : Edit} (written : Written draft) (allowed : draft.Allows edit) :
    Written (draft.after edit)

end Draft

/-- What holds of the code of a piece and its tables. -/
structure Tidy (piece : Piece) : Prop where
  formed : piece.code.WellFormed
  /-- Every cell has its entry in the line table. -/
  cells : piece.lineOf.size = piece.size
  lines : ∀ line, some line ∈ piece.lineOf → line < piece.lines.size
  current : ∀ line, piece.currentLine = some line → line < piece.lines.size
  depth : piece.depth = Code.netShift piece.code.toList
  barrier : piece.barrier ≤ piece.size
  /-- The linker finds the immediates of calls where they were recorded. -/
  calls : ∀ reloc ∈ piece.relocations, piece.VacantAt reloc.cell

/-- The immediate of a jump stands at a cell. -/
def LeapsAt (piece : Piece) (cell : Nat) (imm : BitVec 32) : Prop :=
  ∃ before op reg, cell = before + 1 ∧ op.leaps ∧
    piece.code[before]? = some (.instruction ⟨op, reg, .unused, 0⟩) ∧
    piece.code[cell]? = some (.immediate imm)

/-- The barrier of another piece is not lower, and the jumps are still there, with their distances
except for one that was fixed. -/
structure Spares (fixed : Option Nat) (piece later : Piece) : Prop where
  barrier : piece.barrier ≤ later.barrier
  leaps : ∀ cell imm, piece.LeapsAt cell imm →
    ∃ other, later.LeapsAt cell other ∧ (fixed ≠ some cell → other = imm)

variable {piece later : Piece} {fixed : Option Nat}

/-- Cells that stay hold the same jumps. -/
theorem LeapsAt.congr {imm : BitVec 32} (leaps : piece.LeapsAt cell imm)
    (same : ∀ index ≤ cell, later.code[index]? = piece.code[index]?) :
    later.LeapsAt cell imm := by
  obtain ⟨before, op, reg, rfl, leap, here, next⟩ := leaps
  exact ⟨before, op, reg, rfl, leap, (same before (Nat.le_succ _)).trans here,
    (same _ (Nat.le_refl _)).trans next⟩

theorem VacantAt.congr (vacant : piece.VacantAt cell)
    (same : ∀ index ≤ cell, later.code[index]? = piece.code[index]?) : later.VacantAt cell := by
  obtain ⟨call, here, op, next⟩ := vacant
  exact ⟨call, (same _ (Nat.sub_le _ _)).trans here, op, (same _ (Nat.le_refl _)).trans next⟩

/-- A change of the lines, the barrier or the depth that leaves the code. -/
theorem Spares.same (code : later.code = piece.code) (barrier : piece.barrier ≤ later.barrier) :
    Spares fixed piece later where
  barrier := barrier
  leaps cell imm leaps := ⟨imm, leaps.congr fun _ _ => by rw [code], fun _ => rfl⟩

theorem tidy_empty (name : Text) : Tidy { name } where
  formed := Code.wellFormed_empty
  cells := rfl
  lines := by simp
  current := by simp
  depth := rfl
  barrier := Nat.le_refl _
  calls := by simp

theorem Tidy.label (tidy : piece.Tidy) : piece.label.1.Tidy :=
  { tidy with barrier := Nat.le_refl _ }

theorem Tidy.setLine (tidy : piece.Tidy) (number : Int) (text : Text) :
    (piece.setLine number text).Tidy := by
  have extended : ∀ (lines : Array SourceLine) (currentLine : Option Nat),
      piece.lines.size ≤ lines.size → (∀ line, currentLine = some line → line < lines.size) →
      Tidy { piece with lines, currentLine } := fun lines currentLine more inside =>
    { tidy with
      lines := fun line mem => Nat.lt_of_lt_of_le (tidy.lines line mem) more
      current := inside }
  unfold Piece.setLine
  split
  · next latest found =>
    have filled : 0 < piece.lines.size := by
      by_contra none
      have empty : piece.lines = #[] := Array.size_eq_zero_iff.mp (Nat.eq_zero_of_not_pos none)
      simp [empty] at found
    split
    · refine extended piece.lines _ (Nat.le_refl _) fun line same => ?_
      obtain rfl := Option.some.inj same
      omega
    · refine extended _ _ (by simp) fun line same => ?_
      obtain rfl := Option.some.inj same
      simp
  · next none =>
    have empty : piece.lines.size = 0 := by simpa using none
    refine extended _ _ (by simp [empty]) fun line same => ?_
    obtain rfl := Option.some.inj same
    simp

theorem spares_setLine (number : Int) (text : Text) :
    Spares fixed piece (piece.setLine number text) := by
  unfold Piece.setLine
  split
  · split <;> exact .same rfl (Nat.le_refl _)
  · exact .same rfl (Nat.le_refl _)

section Extend

variable {instr : Instruction} {imm : BitVec 32} {more : List Relocation}

/-- One more instruction with its immediate keeps a piece tidy; only a call is left to the
linker. -/
theorem Tidy.extend (tidy : piece.Tidy) (defined : instr.op.isDefined)
    (calls : ∀ reloc ∈ more, reloc.cell = piece.size + 1 ∧ instr.op = .call ∧
      imm = 0) :
    (piece.extend (instr.cells imm) more
      (piece.depth + instr.shift imm)).Tidy where
  formed := by
    have whole : Code.Formed false (instr.cells imm) := by
      unfold Instruction.cells
      cases wide : instr.op.hasImmediate <;> simp [Code.Formed, defined, wide]
    have formed := (Code.formed_append (instr.cells imm) tidy.formed).mpr whole
    simpa [Piece.extend, Code.WellFormed] using formed
  cells := by
    have cells := tidy.cells
    unfold Piece.size at cells
    simp [Piece.extend, Piece.size, cells]
  lines line mem := by
    simp only [Piece.extend, Array.mem_append, List.mem_toArray, List.mem_replicate] at mem
    rcases mem with old | ⟨-, new⟩
    · exact tidy.lines line old
    · exact tidy.current line new.symm
  current := tidy.current
  depth := by
    have sum := Code.netShift_append (instr.cells imm) tidy.formed
    rw [Code.netShift_cells, ← tidy.depth] at sum
    simpa [Piece.extend] using sum.symm
  barrier := by
    rw [size_extend_cells]
    exact Nat.le_add_right_of_le tidy.barrier
  calls reloc mem := by
    rcases List.mem_append.mp mem with old | new
    · have vacant := tidy.calls reloc old
      refine vacant.congr fun index inside => ?_
      rw [getElem?_extend_cells, if_pos (Nat.lt_of_le_of_lt inside vacant.lt)]
    · obtain ⟨place, op, rfl⟩ := calls reloc new
      rw [place]
      exact ⟨instr, stands_extend.here, op, stands_extend.operand (by rw [op]; rfl)⟩

theorem spares_extend :
    Spares fixed piece (piece.extend (instr.cells imm) more depth) where
  barrier := Nat.le_refl _
  leaps cell value leaps := by
    refine ⟨value, leaps.congr fun index inside => ?_, fun _ => rfl⟩
    obtain ⟨_, _, _, -, -, -, found⟩ := leaps
    have small : cell < piece.size := (Array.getElem?_eq_some_iff.mp found).1
    rw [getElem?_extend_cells, if_pos (Nat.lt_of_le_of_lt inside small)]

/-- A jump that was just added stands at the end. -/
theorem leapsAt_extend (leaps : op.leaps) (reg : Register) :
    (piece.extend (Instruction.cells ⟨op, reg, .unused, 0⟩ imm) more depth).LeapsAt
      (piece.size + 1) imm :=
  ⟨piece.size, op, reg, rfl, leaps, stands_extend.here,
    stands_extend.operand (Opcode.hasImmediate_of_leaps leaps)⟩

end Extend

theorem size_truncate (piece : Piece) : (piece.truncate (piece.size - 1)).size =
    piece.size - 1 := by
  simp [truncate, size]

/-- A pop that cancels the last push takes its shift back, too. -/
theorem Tidy.cancel (tidy : piece.Tidy) (cancels : piece.cancels reg) :
    Tidy { piece.truncate (piece.size - 1) with depth := piece.depth + 8 } := by
  obtain ⟨push, ends, op, -⟩ := back?_of_cancels cancels
  have free : piece.barrier < piece.size := by
    simp only [Piece.cancels, Bool.and_eq_true, decide_eq_true_eq] at cancels
    exact cancels.1
  obtain ⟨last, ends', code⟩ := @code_eq_push piece (Nat.zero_lt_of_lt free)
  obtain rfl := Option.some.inj (ends.symm.trans ends')
  have shorter : (piece.truncate (piece.size - 1)).code.WellFormed := tidy.formed.take ends
  refine ⟨shorter, ?_, fun line mem => ?_, tidy.current, ?_, ?_, fun reloc mem => ?_⟩
  · have cells := tidy.cells
    unfold Piece.size at cells
    simp [truncate, Piece.size, cells]
  · refine tidy.lines line ?_
    have taken : some line ∈ piece.lineOf.toList.take (piece.size - 1) := by
      rw [← Array.mem_toList_iff] at mem
      simpa [truncate] using mem
    simpa using List.mem_of_mem_take taken
  · have sum := Code.netShift_append [.instruction push] shorter
    rw [← Array.toList_push, ← code, ← tidy.depth] at sum
    have shift : Code.netShift [.instruction push] = -8 := by
      simp [Code.netShift, Instruction.shift, op]
    show piece.depth + 8 = Code.netShift (piece.truncate (piece.size - 1)).code.toList
    omega
  · show piece.barrier ≤ (piece.truncate (piece.size - 1)).size
    rw [size_truncate]
    omega
  · -- The cell that goes holds an instruction, so no immediate of a call does.
    have vacant := tidy.calls reloc mem
    have inside := vacant.lt
    have apart : reloc.cell ≠ piece.size - 1 := by
      obtain ⟨_, -, -, found⟩ := vacant
      intro same
      rw [same, show piece.code[piece.size - 1]? = some (.instruction push) from by
        rw [← ends, Array.back?]; rfl] at found
      simp at found
    refine vacant.congr fun index small => ?_
    show (piece.truncate (piece.size - 1)).code[index]? = _
    rw [getElem?_truncate, if_pos (by omega)]

theorem spares_cancel (cancels : piece.cancels reg) :
    Spares fixed piece { piece.truncate (piece.size - 1) with depth } where
  barrier := Nat.le_refl _
  leaps cell value leaps := by
    obtain ⟨push, ends, -, -⟩ := back?_of_cancels cancels
    refine ⟨value, leaps.congr fun index inside => ?_, fun _ => rfl⟩
    obtain ⟨_, _, _, -, -, -, found⟩ := leaps
    have small : cell < piece.size := (Array.getElem?_eq_some_iff.mp found).1
    have apart : cell ≠ piece.size - 1 := by
      intro same
      rw [same, show piece.code[piece.size - 1]? = some (.instruction push) from by
        rw [← ends, Array.back?]; rfl] at found
      simp at found
    show (piece.truncate (piece.size - 1)).code[index]? = _
    rw [getElem?_truncate, if_pos (by omega)]

theorem LeapsAt.branchAt {imm : BitVec 32} (leaps : piece.LeapsAt cell imm) :
    piece.BranchAt cell := by
  obtain ⟨before, op, reg, rfl, leap, here, next⟩ := leaps
  refine ⟨_, imm, here, ?_, next⟩
  cases op <;> first | exact .inl rfl | exact .inr rfl | contradiction

theorem Tidy.fix (tidy : piece.Tidy) {imm : BitVec 32}
    (leaps : piece.LeapsAt cell imm) : (piece.fixJump cell).1.Tidy := by
  have branch := leaps.branchAt
  have cells := getElem?_fixJump branch
  have size := size_fixJump branch
  obtain ⟨before, op, reg, rfl, leap, here, next⟩ := leaps
  have code : (piece.fixJump (before + 1 : Nat)).1.code = piece.code.setIfInBounds (before + 1)
      (.immediate (BitVec.ofInt 32 ((piece.size : Int) - (before + 1 : Nat)))) := by
    rw [fixJump_eq branch]
  refine ⟨?_, ?_, ?_, ?_, ?_, ?_, ?_⟩
  · rw [code, Code.WellFormed, Array.toList_setIfInBounds]
    exact Code.formed_set _ tidy.formed (by simpa using next)
  · rw [size, ← tidy.cells, fixJump_eq branch]
    rfl
  · rw [fixJump_eq branch]
    exact tidy.lines
  · rw [fixJump_eq branch]
    exact tidy.current
  · rw [depth_fixJump, code, Array.toList_setIfInBounds, tidy.depth]
    exact (Code.netShift_set _ (by simpa using here) leap (by simpa using next)).symm
  · exact Nat.le_of_eq ((barrier_fixJump _).trans size.symm)
  · intro reloc mem
    rw [fixJump_eq branch] at mem
    obtain ⟨call, first, op', second⟩ := tidy.calls reloc mem
    have apart : reloc.cell ≠ before + 1 := by
      intro same
      rw [same, Nat.add_sub_cancel, here] at first
      obtain rfl := Cell.instruction.inj (Option.some.inj first)
      dsimp only at op'
      rw [op'] at leap
      contradiction
    exact ⟨call, (here_fixJump branch).mpr first, op', by rw [cells, if_neg apart, second]⟩

theorem spares_fix {imm : BitVec 32} (leaps : piece.LeapsAt cell imm)
    (bounded : piece.barrier ≤ piece.size) : Spares (some cell) piece (piece.fixJump cell).1 where
  barrier := by
    rw [barrier_fixJump]
    exact bounded
  leaps other value there := by
    have cells := getElem?_fixJump leaps.branchAt
    obtain ⟨before, op, reg, rfl, leap, here, next⟩ := there
    have kept := (here_fixJump leaps.branchAt).mpr here
    by_cases same : before + 1 = cell
    · refine ⟨BitVec.ofInt 32 ((piece.size : Int) - cell),
        ⟨before, op, reg, rfl, leap, kept, ?_⟩, fun other => absurd (by rw [same]) other⟩
      rw [cells, if_pos same]
    · refine ⟨value, ⟨before, op, reg, rfl, leap, kept, ?_⟩, fun _ => rfl⟩
      rw [cells, if_neg same, next]

/-- A fixed jump leads to the end of the code. -/
theorem leapsAt_fix {imm : BitVec 32} (leaps : piece.LeapsAt cell imm) :
    (piece.fixJump cell).1.LeapsAt cell (BitVec.ofInt 32 ((piece.size : Int) - cell)) := by
  have cells := getElem?_fixJump leaps.branchAt cell
  have branch := leaps.branchAt
  obtain ⟨before, op, reg, rfl, leap, here, next⟩ := leaps
  refine ⟨before, op, reg, rfl, leap, (here_fixJump branch).mpr here, ?_⟩
  rw [cells, if_pos rfl]

/-- A pop that cancels the push at the end takes it away, and any other register instruction is put
at the end. -/
theorem emit_cases (piece : Piece) {instr : Instruction}
    (plain : instr.op.hasImmediate = false) :
    ((instr.op = .pop ∧ piece.cancels instr.first) ∧ (piece.emit instr).1 =
        { piece.truncate (piece.size - 1) with depth := piece.depth + 8 }) ∨
      ¬ (instr.op = .pop ∧ piece.cancels instr.first) ∧ (piece.emit instr).1 =
        piece.extend (instr.cells 0) [] (piece.depth + instr.shift 0) := by
  have cells : instr.cells 0 = [.instruction instr] := by
    simp [Instruction.cells, plain]
  by_cases push : instr.op = .push
  · have shift : instr.shift 0 = -8 := by rw [Instruction.shift, push]
    rw [shift, cells, emit, push]
    exact .inr ⟨by simp, push_eq_extend _⟩
  by_cases pop : instr.op = .pop
  · have shift : instr.shift 0 = 8 := by rw [Instruction.shift, pop]
    rw [shift, cells, emit, pop]
    dsimp only
    split
    · next cancels => exact .inl ⟨⟨rfl, cancels⟩, rfl⟩
    · next other => exact .inr ⟨fun both => other both.2, push_eq_extend _⟩
  · exact .inr ⟨fun both => pop both.1, emit_eq plain push pop⟩

theorem emitCall_eq (piece : Piece) (target : Option Nat) : piece.emitCall target =
    piece.extend (Instruction.cells ⟨.call, .unused, .unused, 0⟩ 0) [⟨target, piece.size + 1⟩]
      (piece.depth + Instruction.shift ⟨.call, .unused, .unused, 0⟩ 0) := by
  unfold emitCall
  rw [show piece.emitImmediate ⟨.call, .unused, .unused, 0⟩ 0 = (_, piece.size + 1) from
    Prod.ext (emitImmediate_eq rfl 0) rfl]
  simp [extend]

theorem emitJumpBack_eq_extend (piece : Piece) (leaps : op.leaps) (reg : Register)
    (target : Nat) : piece.emitJumpBack op reg target =
      piece.extend (Instruction.cells ⟨op, reg, .unused, 0⟩
        (BitVec.ofInt 32 ((target : Int) - (piece.size + 1 : Nat)))) []
        (piece.depth + Instruction.shift ⟨op, reg, .unused, 0⟩
          (BitVec.ofInt 32 ((target : Int) - (piece.size + 1 : Nat)))) := by
  have cells : ∀ imm, Instruction.cells ⟨op, reg, .unused, 0⟩ imm =
      [.instruction ⟨op, reg, .unused, 0⟩, .immediate imm] := fun imm =>
    if_pos (Opcode.hasImmediate_of_leaps leaps)
  rw [Instruction.shift_of_leaps leaps, Int.add_zero, cells, emitJumpBack, size_push,
    push_push_eq_extend]

theorem isDefined_of_hasImmediate (wide : op.hasImmediate) : op.isDefined := by
  cases op <;> first | rfl | contradiction

/-- The jump that a call fixes. -/
def Edit.fixes : Edit → Option Nat
  | .fix cell => some cell
  | _ => none

namespace Draft

variable {draft : Draft} {edit : Edit}

/-- What holds of a draft: its piece is tidy, and what was handed out is where it was. -/
structure Sound (draft : Draft) : Prop where
  tidy : draft.piece.Tidy
  labels : ∀ label ∈ draft.labels, label.cell ≤ draft.piece.barrier
  holes : ∀ cell ∈ draft.holes, ∃ imm, draft.piece.LeapsAt cell imm
  aims : ∀ cell target, draft.aims.lookup cell = some target →
    draft.piece.LeapsAt cell (BitVec.ofInt 32 ((target : Int) - cell)) ∧
      ∃ label ∈ draft.labels, label.cell = target

/-- An allowed call keeps the piece tidy and spares what was handed out. -/
theorem Sound.spares (sound : draft.Sound) (allowed : draft.Allows edit) :
    (edit.apply draft.piece).Tidy ∧ Spares edit.fixes draft.piece (edit.apply draft.piece) := by
  have tidy := sound.tidy
  have plain : ∀ instr : Instruction, instr.op.isDefined →
      instr.op.hasImmediate = false → (draft.piece.emit instr).1.Tidy ∧
        Spares none draft.piece (draft.piece.emit instr).1 := by
    intro instr defined plain
    rcases emit_cases draft.piece plain with ⟨⟨-, cancels⟩, same⟩ | ⟨-, same⟩
    · rw [same]
      exact ⟨tidy.cancel cancels, spares_cancel cancels⟩
    · rw [same]
      exact ⟨tidy.extend defined (by simp), spares_extend⟩
  have wide : ∀ (instr : Instruction) imm, instr.op.hasImmediate →
      (draft.piece.emitImmediate instr imm).1.Tidy ∧
        Spares none draft.piece (draft.piece.emitImmediate instr imm).1 := by
    intro instr imm wide
    rw [emitImmediate_eq wide]
    exact ⟨tidy.extend (isDefined_of_hasImmediate wide) (by simp), spares_extend⟩
  cases edit with
  | emit instr => exact plain instr allowed.1 allowed.2
  | emitImmediate instr imm => exact wide instr imm allowed
  | push reg => exact plain ⟨.push, reg, .unused, 0⟩ rfl rfl
  | pop reg => exact plain ⟨.pop, reg, .unused, 0⟩ rfl rfl
  | jump op reg =>
    exact wide ⟨op, reg, .unused, 0⟩ 0 (Opcode.hasImmediate_of_leaps allowed)
  | fix cell =>
    obtain ⟨imm, leaps⟩ := sound.holes cell allowed
    exact ⟨tidy.fix leaps, spares_fix leaps tidy.barrier⟩
  | jumpBack op reg target =>
    have defined := isDefined_of_hasImmediate (Opcode.hasImmediate_of_leaps allowed.1)
    show (draft.piece.emitJumpBack op reg target).Tidy ∧
      Spares none draft.piece (draft.piece.emitJumpBack op reg target)
    rw [emitJumpBack_eq_extend _ allowed.1]
    exact ⟨tidy.extend defined (by simp), spares_extend⟩
  | label => exact ⟨tidy.label, .same rfl tidy.barrier⟩
  | call target =>
    show (draft.piece.emitCall target).Tidy ∧ Spares none draft.piece (draft.piece.emitCall target)
    rw [emitCall_eq]
    exact ⟨tidy.extend rfl (by simp), spares_extend⟩
  | callNative id => exact wide ⟨.call, .unused, .unused, 0⟩ _ rfl
  | setLine number text => exact ⟨tidy.setLine number text, spares_setLine number text⟩

/-- A call that sets a label sets it at the end of the code, and moves no cell. -/
theorem Sound.labelled (sound : draft.Sound) (allowed : draft.Allows edit) {label : Landmark}
    (new : label ∈ draft.labelled edit) : label = ⟨draft.piece.size, draft.clock⟩ ∧
      (edit.apply draft.piece).size = draft.piece.size ∧
      (edit.apply draft.piece).barrier = draft.piece.size := by
  cases edit with
  | label => exact ⟨List.mem_singleton.mp new, rfl, rfl⟩
  | fix cell =>
    obtain ⟨imm, leaps⟩ := sound.holes cell allowed
    exact ⟨List.mem_singleton.mp new, size_fixJump leaps.branchAt, barrier_fixJump _⟩
  | _ => simp [Draft.labelled] at new

/-- A jump that is handed out to be fixed later is there. -/
theorem opened_leaps (allowed : draft.Allows edit) (new : cell ∈ draft.opened edit) :
    ∃ imm, (edit.apply draft.piece).LeapsAt cell imm := by
  cases edit with
  | jump op reg =>
    obtain rfl : cell = draft.piece.size + 1 := List.mem_singleton.mp new
    refine ⟨0, ?_⟩
    show (draft.piece.emitJump op reg).1.LeapsAt _ 0
    have leaps : op.leaps := allowed
    have wide : (⟨op, reg, .unused, 0⟩ : Instruction).op.hasImmediate :=
      Opcode.hasImmediate_of_leaps leaps
    rw [emitJump, emitImmediate_eq wide]
    exact leapsAt_extend leaps reg
  | _ => simp [Draft.opened] at new

/-- A jump that is told where to lead leads there, to a label. -/
theorem Sound.aimed (sound : draft.Sound) (allowed : draft.Allows edit) {target : Nat}
    (new : (draft.aimed edit).lookup cell = some target) :
    (edit.apply draft.piece).LeapsAt cell (BitVec.ofInt 32 ((target : Int) - cell)) ∧
      ∃ label ∈ draft.labels ++ draft.labelled edit, label.cell = target := by
  cases edit with
  | fix hole =>
    obtain ⟨imm, leaps⟩ := sound.holes hole allowed
    by_cases same : cell = hole
    · subst same
      obtain rfl : draft.piece.size = target := by simpa [Draft.aimed, label] using new
      exact ⟨leapsAt_fix leaps, ⟨draft.piece.size,
        draft.clock⟩, by simp [Draft.labelled, label], rfl⟩
    · have differs : (cell == hole) = false := by simp [same]
      simp [Draft.aimed, List.lookup_cons, differs] at new
  | jumpBack op reg aim =>
    obtain ⟨leaps, known, mem, rfl⟩ := allowed
    by_cases same : cell = draft.piece.size + 1
    · subst same
      obtain rfl : known.cell = target := by simpa [Draft.aimed] using new
      refine ⟨?_, known, List.mem_append_left _ mem, rfl⟩
      show (draft.piece.emitJumpBack op reg known.cell).LeapsAt _ _
      rw [emitJumpBack_eq_extend _ leaps]
      exact leapsAt_extend leaps reg
    · have differs : (cell == draft.piece.size + 1) = false := by simp [same]
      simp [Draft.aimed, List.lookup_cons, differs] at new
  | _ => simp [Draft.aimed] at new

/-- The age of a cell after a call: what it was, or the time of the call for a new cell. -/
theorem age_after (ages : draft.born.length = draft.piece.size) {index age : Nat}
    (found : (draft.after edit).born[index]? = some age) :
    draft.born[index]? = some age ∨ (draft.piece.size ≤ index ∧
      index < (edit.apply draft.piece).size ∧ age = draft.clock) := by
  have inside := (List.getElem?_eq_some_iff.mp found).1
  simp only [Draft.after, List.length_append, List.length_take, List.length_replicate] at inside
  simp only [Draft.after, List.getElem?_append, List.length_take] at found
  split at found
  · next before =>
    rw [List.getElem?_take] at found
    split at found
    · exact .inl found
    · contradiction
  · next behind =>
    have new := (List.mem_replicate.mp (List.mem_of_getElem? found)).2
    exact .inr ⟨by omega, by omega, new⟩

theorem length_after (draft : Draft) (edit : Edit) :
    (draft.after edit).born.length = (edit.apply draft.piece).size := by
  simp only [Draft.after, List.length_append, List.length_take, List.length_replicate]
  omega

/-- A call keeps a draft sound. -/
theorem sound_after (sound : draft.Sound) (allowed : draft.Allows edit) :
    (draft.after edit).Sound := by
  obtain ⟨tidy, spares⟩ := sound.spares allowed
  constructor
  case tidy => exact tidy
  case labels =>
    intro label mem
    rcases List.mem_append.mp mem with old | new
    · exact Nat.le_trans (sound.labels label old) spares.barrier
    · obtain ⟨rfl, -, barrier⟩ := sound.labelled allowed new
      exact Nat.le_of_eq barrier.symm
  case holes =>
    intro cell mem
    rcases List.mem_append.mp mem with old | new
    · obtain ⟨imm, leaps⟩ := sound.holes cell old
      obtain ⟨other, kept, -⟩ := spares.leaps cell imm leaps
      exact ⟨other, kept⟩
    · exact opened_leaps allowed new
  case aims =>
    intro cell target aimed
    rw [Draft.after, List.lookup_append] at aimed
    cases now : (draft.aimed edit).lookup cell with
    | some other =>
      obtain rfl : other = target := by simpa [now] using aimed
      exact sound.aimed allowed now
    | none =>
      have before : draft.aims.lookup cell = some target := by simpa [now] using aimed
      obtain ⟨leaps, label, mem, place⟩ := sound.aims cell target before
      obtain ⟨other, kept, same⟩ := spares.leaps cell _ leaps
      have unfixed : edit.fixes ≠ some cell := by
        intro fixes
        cases edit with
        | fix hole =>
          obtain rfl : hole = cell := Option.some.inj fixes
          simp [Draft.aimed] at now
        | _ => simp [Edit.fixes] at fixes
      rw [same unfixed] at kept
      exact ⟨kept, label, List.mem_append_left _ mem, place⟩

theorem sound_blank (name : Text) : (blank name).Sound where
  tidy := tidy_empty name
  labels := by simp [blank]
  holes := by simp [blank]
  aims := by simp [blank]

/-- Every draft that was written through the calls is sound. -/
theorem Written.sound (written : draft.Written) : draft.Sound := by
  induction written with
  | blank name => exact sound_blank name
  | after _ allowed ih => exact sound_after ih allowed

end Draft

end Piece

end TinLang
