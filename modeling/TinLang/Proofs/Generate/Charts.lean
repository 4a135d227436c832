import TinLang.Proofs.Generate.Balance

/-!
# Charts of jumps and labels

What jumps, labels and returns do to the levels of a generator. A jump starts as a hole at the
level of the end; where it is fixed, the end has the same level. Behind a jump or a return control
does not come to the end of the code, so the depth tracked there may be set to any value.
-/
namespace TinLang

namespace Piece

variable {piece : Piece} {level : Nat → Int} {holes more : List (Nat × Int)}

/-- The order of the holes does not matter. -/
theorem Levelled.reorder (levelled : piece.Levelled level holes)
    (same : ∀ hole, hole ∈ more ↔ hole ∈ holes) : piece.Levelled level more :=
  { levelled with
    leap := fun cell instr imm stands leaps =>
      (levelled.leap cell instr imm stands leaps).imp_left (same _).mpr
    hole := fun hole mem => levelled.hole hole ((same hole).mp mem) }

theorem setsPointer_of_leaps {instr : Instruction} (leaps : instr.op.leaps) :
    instr.setsPointer = false := by
  obtain ⟨op, first, second, modifier⟩ := instr
  cases op <;> first | contradiction | rfl

theorem isDefined_of_leaps {op : Opcode} (leaps : op.leaps) : op.isDefined := by
  cases op <;> first | contradiction | rfl

/-- An instruction at the end that control does not fall behind seals the code. -/
theorem sealed_extend {instr : Instruction} {imm : BitVec 32}
    {relocations : List Relocation} {depth : Int} (barrier : piece.barrier ≤ piece.size)
    (stops : instr.op.falls = false) :
    (piece.extend (instr.cells imm) relocations depth).Sealed := by
  have wide : 0 < instr.width := by unfold Instruction.width; split <;> decide
  refine ⟨?_, piece.size, instr, imm, stands_extend, size_extend_cells.symm, stops⟩
  rw [size_extend_cells]
  exact Nat.lt_of_le_of_lt barrier (Nat.lt_add_of_pos_right wide)

theorem emitJump_eq {op : Opcode} (leaps : op.leaps) (reg : Register) :
    (piece.emitJump op reg).1 = piece.extend (Instruction.cells ⟨op, reg, .unused, 0⟩ 0) []
      piece.depth := by
  have shift := @Instruction.shift_of_leaps ⟨op, reg, .unused, 0⟩ leaps 0
  have emitted := @emitImmediate_eq piece ⟨op, reg, .unused, 0⟩
    (Opcode.hasImmediate_of_leaps leaps) 0
  rwa [shift, Int.add_zero] at emitted

theorem emitJumpBack_eq (start : Nat) : piece.emitJumpBack .jump .unused start =
    piece.extend (Instruction.cells ⟨.jump, .unused, .unused, 0⟩
      (BitVec.ofInt 32 ((start : Int) - (piece.size + 1)))) [] piece.depth := by
  have size : ((piece.push (.instruction ⟨.jump, .unused, .unused, 0⟩)).size : Int) =
      piece.size + 1 := by
    rw [size_push]
    rfl
  rw [emitJumpBack, size, push_push_eq_extend]
  rfl

end Piece

namespace Generator

variable {gen : Generator} {hand : Hand} {level : Nat → Int}

/-- Labels stand where they were, at their levels, when the piece is extended. -/
theorem Charts.extend {later : Generator} {hand' : Hand} {level' : Nat → Int}
    {instr : Instruction} {imm : BitVec 32} {relocations : List Relocation} {depth : Int}
    (charts : gen.Charts hand level)
    (piece : later.piece = gen.piece.extend (instr.cells imm) relocations depth)
    (levelled : later.piece.Levelled level' (hand'.holes ++ later.exits))
    (labels : ∀ label ∈ hand'.labels ++ later.starts, label ∈ hand.labels ++ gen.starts)
    (agree : ∀ cell ≤ gen.piece.size, level' cell = level cell) :
    later.Charts hand' level' := by
  refine ⟨levelled, fun label mem => ?_⟩
  obtain ⟨before, bounds, even⟩ := charts.labels label (labels label mem)
  have inside := Nat.le_trans before charts.levelled.barrier
  rw [piece]
  exact ⟨before, Piece.bounds_extend bounds, (agree _ inside).trans even⟩

/-- A jump that has no end yet is a hole at the level of the end. -/
theorem Charts.jump (charts : gen.Charts hand level) (below : gen.piece.depth ≤ 0)
    {op : Opcode} (leaps : op.leaps) (reg : Register) :
    ∃ level', Charts
      { hand with holes := (gen.piece.size + 1, gen.piece.depth) :: hand.holes }
      { gen with piece := (gen.piece.emitJump op reg).1 } level' := by
  have more : ∀ hole ∈ hand.holes ++ gen.exits,
      hole ∈ (gen.piece.size + 1, gen.piece.depth) :: (hand.holes ++ gen.exits) :=
    fun hole mem => List.mem_cons_of_mem _ mem
  obtain ⟨level', levelled, agree⟩ := @Piece.Levelled.extend _ _ _
    ((gen.piece.size + 1, gen.piece.depth) :: (hand.holes ++ gen.exits))
    ⟨op, reg, .unused, 0⟩ 0 [] gen.piece.depth charts.levelled
    (Piece.isDefined_of_leaps leaps) (Piece.setsPointer_of_leaps leaps) below
    (fun _ => by rw [Instruction.shift_of_leaps leaps, Int.add_zero])
    (fun giveBack => by rw [show op = .giveBack from giveBack] at leaps; contradiction)
    (fun _ => .inl List.mem_cons_self) more
    (fun hole mem => (List.mem_cons.mp mem).symm.imp_right fun same => ⟨same, leaps⟩)
  rw [← Piece.emitJump_eq leaps] at levelled
  exact ⟨level', charts.extend (Piece.emitJump_eq leaps reg) levelled (fun _ => id) agree⟩

/-- A jump back leads to a label at the level of the end. -/
theorem Charts.jumpBack (charts : gen.Charts hand level) (below : gen.piece.depth ≤ 0)
    {start : Nat} (label : (start, gen.piece.depth) ∈ hand.labels ++ gen.starts) :
    ∃ level', Charts hand
      { gen with piece := gen.piece.emitJumpBack .jump .unused start } level' := by
  obtain ⟨before, bounds, even⟩ := charts.labels _ label
  obtain ⟨level', levelled, agree⟩ := @Piece.Levelled.extend _ _ _ (hand.holes ++ gen.exits)
    ⟨.jump, .unused, .unused, 0⟩ (BitVec.ofInt 32 ((start : Int) - (gen.piece.size + 1))) []
    gen.piece.depth charts.levelled rfl rfl below (fun falls => nomatch falls)
    (fun giveBack => nomatch giveBack) (fun _ => .inr ⟨start, ⟨before, bounds, rfl⟩, even⟩)
    (fun _ => id) (fun _ => .inl)
  rw [← Piece.emitJumpBack_eq] at levelled
  exact ⟨level', charts.extend (Piece.emitJumpBack_eq start) levelled (fun _ => id) agree⟩

/-- A return gives back all of the frame. -/
theorem Charts.giveBack (charts : gen.Charts hand level) (all : gen.piece.depth = 0) :
    ∃ level', Charts hand { gen with
      piece := (gen.piece.emit ⟨.giveBack, .unused, .unused, 0⟩).1 } level' := by
  have emitted : (gen.piece.emit ⟨.giveBack, .unused, .unused, 0⟩).1 =
      gen.piece.extend (Instruction.cells ⟨.giveBack, .unused, .unused, 0⟩ 0) []
        (gen.piece.depth + 0) := Piece.emit_eq rfl (by simp) (by simp)
  obtain ⟨level', levelled, agree⟩ := @Piece.Levelled.extend _ _ _ (hand.holes ++ gen.exits)
    ⟨.giveBack, .unused, .unused, 0⟩ 0 [] (gen.piece.depth + 0) charts.levelled rfl rfl
    (Int.le_of_eq all) (fun falls => nomatch falls) (fun _ => all) (fun leaps => nomatch leaps)
    (fun _ => id) (fun _ => .inl)
  rw [← emitted] at levelled
  exact ⟨level', charts.extend emitted levelled (fun _ => id) agree⟩

/-- A label at the end has the level of the end. -/
theorem Charts.label (charts : gen.Charts hand level) :
    Charts { hand with labels := (gen.piece.size, gen.piece.depth) :: hand.labels }
      { gen with piece := gen.piece.label.1 } level := by
  refine ⟨charts.levelled.label, fun label mem => ?_⟩
  rcases List.mem_cons.mp mem with rfl | old
  · exact ⟨Nat.le_refl _, .inl rfl, charts.levelled.depth⟩
  · obtain ⟨before, bounds, even⟩ := charts.labels label old
    exact ⟨Nat.le_trans before charts.levelled.barrier, bounds, even⟩

/-- A jump in hand is fixed where the end has its level. -/
theorem Charts.land {cell : Nat} {holes : List (Nat × Int)} {labels : List (Nat × Int)}
    (charts : gen.Charts ⟨(cell, gen.piece.depth) :: holes, labels⟩ level)
    (landing : Nat) : Charts ⟨holes, labels⟩
      { gen with piece := (gen.piece.fixJump cell).1, landing } level := by
  refine ⟨charts.levelled.fixJump, fun label mem => ?_⟩
  obtain ⟨before, bounds, even⟩ := charts.labels label mem
  have branch : gen.piece.BranchAt cell := charts.levelled.branchAt List.mem_cons_self
  refine ⟨?_, Piece.bounds_fixJump branch bounds, even⟩
  rw [Piece.barrier_fixJump]
  exact Nat.le_trans before charts.levelled.barrier

/-- Behind the end of sealed code any depth may be tracked. -/
theorem Charts.redepth (charts : gen.Charts hand level) (sealed' : gen.piece.Sealed)
    (depth : Int) :
    ∃ level', Charts hand { gen with piece := { gen.piece with depth } } level' := by
  obtain ⟨level', levelled, agree⟩ := charts.levelled.redepth sealed' depth
  refine ⟨level', levelled, fun label mem => ?_⟩
  obtain ⟨before, bounds, even⟩ := charts.labels label mem
  exact ⟨before, bounds, (agree _ (Nat.lt_of_le_of_lt before sealed'.barrier)).trans even⟩

/-- Cells may pass between the hand and the loops around. -/
theorem Charts.regroup {later : Generator} {hand' : Hand} (charts : gen.Charts hand level)
    (piece : later.piece = gen.piece)
    (holes : ∀ hole, hole ∈ hand'.holes ++ later.exits ↔ hole ∈ hand.holes ++ gen.exits)
    (labels : ∀ label ∈ hand'.labels ++ later.starts, label ∈ hand.labels ++ gen.starts) :
    later.Charts hand' level := by
  refine ⟨?_, fun label mem => ?_⟩
  · rw [piece]
    exact charts.levelled.reorder holes
  · rw [piece]
    exact charts.labels label (labels label mem)

variable {ctx : FunctionContext}

/-- After a step that gives back a part of the frame, the depth is that of the rest. -/
theorem Balanced.lifted (balanced : gen.Balanced ctx 0 hand) {step : Piece → Piece}
    {frame : Int} (moves : Piece.Moves step (frame - gen.frame)) :
    (ctx.Loose ∧ frame < (step gen.piece).depth) ∨ ((step gen.piece).depth = frame ∧
      ∃ level, Charts hand { gen with piece := step gen.piece } level) := by
  have below := balanced.frame
  rw [moves.depth]
  rcases balanced.depth with ⟨may, high⟩ | ⟨right, level, charts⟩
  · exact .inl ⟨may, by omega⟩
  · exact .inr ⟨by omega, charts.change moves (by omega)⟩

/-- Only the chart and what the loops jump to change. -/
theorem Balanced.rechart {later : Generator} {hand' : Hand} (balanced : gen.Balanced ctx 0 hand)
    (same : later.errors = gen.errors ∧ later.frame = gen.frame ∧
      later.scopes = gen.scopes)
    (loops : ∀ loop ∈ later.loops, ∃ old ∈ gen.loops, loop.depth = old.depth)
    (depth : later.piece.depth = gen.piece.depth)
    (charts : ∀ level, gen.Charts hand level → gen.piece.depth = gen.frame →
      gen.piece.depth ≤ 0 → ∃ level', later.Charts hand' level') :
    later.Balanced ctx 0 hand' := by
  obtain ⟨errors, frame, scopes⟩ := same
  have below := balanced.frame
  refine ⟨errors.trans balanced.errors, frame ▸ below, fun loop mem => ?_,
    scopes ▸ balanced.scopes, ?_⟩
  · obtain ⟨old, known, even⟩ := loops loop mem
    rw [frame, even]
    exact balanced.loops old known
  · rw [frame, depth]
    refine balanced.depth.imp_right fun ⟨right, level, known⟩ => ⟨right, ?_⟩
    have right : gen.piece.depth = gen.frame := by omega
    exact charts level known right (right ▸ below)

theorem Balanced.jump (balanced : gen.Balanced ctx 0 hand) {op : Opcode} (leaps : op.leaps)
    (reg : Register) : Balanced ctx 0
      { hand with holes := (gen.piece.size + 1, gen.frame) :: hand.holes }
      { gen with piece := (gen.piece.emitJump op reg).1 } := by
  refine balanced.rechart ⟨rfl, rfl, rfl⟩ (fun loop mem => ⟨loop, mem, rfl⟩)
    (by rw [Piece.emitJump_eq leaps]; rfl) fun level charts right below => ?_
  have jumped := charts.jump below leaps reg
  rwa [right] at jumped

theorem Balanced.jumpBack (balanced : gen.Balanced ctx 0 hand) {start : Nat}
    (label : (start, gen.frame) ∈ hand.labels ++ gen.starts) : Balanced ctx 0 hand
      { gen with piece := gen.piece.emitJumpBack .jump .unused start } := by
  refine balanced.rechart ⟨rfl, rfl, rfl⟩ (fun loop mem => ⟨loop, mem, rfl⟩)
    (by rw [Piece.emitJumpBack_eq]; rfl) fun level charts right below => ?_
  rw [← right] at label
  exact charts.jumpBack below label

theorem Balanced.label (balanced : gen.Balanced ctx 0 hand) : Balanced ctx 0
    { hand with labels := (gen.piece.size, gen.frame) :: hand.labels }
    { gen with piece := gen.piece.label.1 } := by
  refine balanced.rechart ⟨rfl, rfl, rfl⟩ (fun loop mem => ⟨loop, mem, rfl⟩) rfl
    fun level charts right _ => ?_
  have labelled := charts.label
  rw [right] at labelled
  exact ⟨level, labelled⟩

theorem Balanced.land {cell : Nat} {holes labels : List (Nat × Int)}
    (balanced : gen.Balanced ctx 0 ⟨(cell, gen.frame) :: holes, labels⟩)
    (landing : Nat) : Balanced ctx 0 ⟨holes, labels⟩
      { gen with piece := (gen.piece.fixJump cell).1, landing } := by
  refine balanced.rechart ⟨rfl, rfl, rfl⟩ (fun loop mem => ⟨loop, mem, rfl⟩)
    (Piece.depth_fixJump _) fun level charts right _ => ?_
  rw [← right] at charts
  exact ⟨level, charts.land landing⟩

theorem Balanced.regroup {later : Generator} {hand' : Hand}
    (balanced : gen.Balanced ctx 0 hand)
    (same : later = { gen with loops := later.loops })
    (loops : ∀ loop ∈ later.loops, loop.depth = gen.frame ∨
      ∃ old ∈ gen.loops, loop.depth = old.depth)
    (holes : ∀ hole, hole ∈ hand'.holes ++ later.exits ↔ hole ∈ hand.holes ++ gen.exits)
    (labels : ∀ label ∈ hand'.labels ++ later.starts, label ∈ hand.labels ++ gen.starts) :
    later.Balanced ctx 0 hand' := by
  have below := balanced.frame
  rw [same]
  refine ⟨balanced.errors, below, fun loop mem => ?_, balanced.scopes, ?_⟩
  · rcases loops loop mem with even | ⟨old, known, even⟩
    · rw [even]
      exact ⟨Int.le_refl _, below⟩
    · rw [even]
      exact balanced.loops old known
  · exact balanced.depth.imp_right fun ⟨right, level, charts⟩ =>
      ⟨right, level, charts.regroup rfl holes labels⟩

/-- Behind the end of sealed code the depth may follow the frame. -/
theorem Balanced.redepth (balanced : gen.Balanced ctx 0 hand)
    (sealed' : (ctx.Loose ∧ gen.frame < gen.piece.depth) ∨ gen.piece.Sealed)
    {frame : Int} (negative : frame ≤ 0)
    (loops : ∀ loop ∈ gen.loops, frame ≤ loop.depth) : Balanced ctx 0 hand
      { gen with
        piece := { gen.piece with depth := gen.piece.depth + (frame - gen.frame) }
        frame } := by
  refine ⟨balanced.errors, negative, fun loop mem =>
    ⟨loops loop mem, (balanced.loops loop mem).2⟩, balanced.scopes, ?_⟩
  dsimp only
  rcases balanced.depth with ⟨may, high⟩ | ⟨right, level, charts⟩
  · exact .inl ⟨may, by omega⟩
  · rcases sealed' with ⟨may, high⟩ | sealed'
    · exact .inl ⟨may, by omega⟩
    · obtain ⟨level', moved⟩ := charts.redepth sealed'
        (gen.piece.depth + (frame - gen.frame))
      exact .inr ⟨by omega, level', moved.congr rfl rfl⟩

end Generator

end TinLang
