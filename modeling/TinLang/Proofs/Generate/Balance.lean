import TinLang.Proofs.Generate.Expression
import TinLang.Proofs.Generate.Level
import TinLang.Proofs.Layout

/-!
# Balanced expressions

The code of an expression leaves its value on the operand stack and nothing else.
`Generate.Turns` states of one step of a generator how many bytes it takes from the operand stack
and how many it leaves there, as long as it reports nothing; the levels of all cells follow along.

An immediate has 32 bits, so the space for a call with an enormous result is reserved with a wrong
distance. The tracked depth is then too high for the rest of the statement, and the check at its
end reports it. So a generator is balanced when the depth is right, or when it is too high.
-/
namespace TinLang

namespace Piece

/-- A step keeps labels and levels of a piece, and moves its depth by a distance. -/
structure Moves (step : Piece → Piece) (distance : Int) : Prop where
  barrier : ∀ piece, (step piece).barrier = piece.barrier
  depth : ∀ piece, (step piece).depth = piece.depth + distance
  levelled : ∀ (piece : Piece) level holes, piece.Levelled level holes → piece.depth ≤ 0 →
    ∃ level', (step piece).Levelled level' holes ∧ ∀ cell ≤ piece.barrier,
      level' cell = level cell ∧ (piece.Bounds cell → (step piece).Bounds cell)

variable {piece : Piece}

/-- A step that adds a plain instruction. -/
theorem moves_extend (instr : Instruction) (imm : BitVec 32)
    (relocations : Piece → List Relocation) {step : Piece → Piece} (defined : instr.op.isDefined)
    (pointer : instr.setsPointer = false) (falls : instr.op.falls)
    (leaps : instr.op.leaps = false)
    (same : ∀ piece, step piece = piece.extend (instr.cells imm) (relocations piece)
      (piece.depth + instr.shift imm)) :
    Moves step (instr.shift imm) where
  barrier piece := by rw [same]; rfl
  depth piece := by rw [same]; rfl
  levelled piece level holes levelled below := by
    rw [same]
    obtain ⟨level', kept, agree⟩ := @Levelled.extend_plain piece level holes instr imm
      (relocations piece) _ levelled defined pointer below falls leaps rfl
    exact ⟨level', kept, fun cell inside =>
      ⟨agree cell (Nat.le_trans inside levelled.barrier), bounds_extend⟩⟩

theorem emit_eq {instr : Instruction} (plain : instr.op.hasImmediate = false)
    (push : instr.op ≠ .push) (pop : instr.op ≠ .pop) :
    (piece.emit instr).1 =
      piece.extend (instr.cells 0) [] (piece.depth + instr.shift 0) := by
  have shift := Instruction.shift_of_ne push pop (by rintro op; rw [op] at plain; contradiction) 0
  have cells : instr.cells 0 = [.instruction instr] := by
    simp [Instruction.cells, plain]
  rw [shift, cells, Int.add_zero, ← push_eq_extend]
  unfold emit
  split
  · next op => exact absurd op push
  · next op => exact absurd op pop
  · rfl

theorem emitImmediate_eq {instr : Instruction} (wide : instr.op.hasImmediate)
    (imm : BitVec 32) : (piece.emitImmediate instr imm).1 =
      piece.extend (instr.cells imm) []
        (piece.depth + instr.shift imm) := by
  have cells : instr.cells imm = [.instruction instr, .immediate imm] :=
    if_pos wide
  have depth : ∀ depth : Int, Piece.push (Piece.push { piece with depth } (.instruction instr))
      (.immediate imm) = piece.extend [.instruction instr, .immediate imm] [] depth :=
    fun depth => (push_push_eq_extend _ _).trans rfl
  rw [cells]
  unfold emitImmediate Instruction.shift
  dsimp only
  split
  · next pointer =>
    rw [pointer.1, if_pos pointer.2]
    exact depth _
  · next other =>
    split
    · next op => rw [op] at wide; contradiction
    · next op => rw [op] at wide; contradiction
    · next op =>
      rw [if_neg fun first => other ⟨op, first⟩, Int.add_zero]
      exact depth piece.depth
    · rw [Int.add_zero]
      exact depth piece.depth

theorem moves_emit {instr : Instruction} (defined : instr.op.isDefined)
    (pointer : instr.setsPointer = false) (falls : instr.op.falls)
    (plain : instr.op.hasImmediate = false) (push : instr.op ≠ .push)
    (pop : instr.op ≠ .pop) : Moves (fun piece => (piece.emit instr).1) 0 := by
  have leaps : instr.op.leaps = false := by
    cases found : instr.op.leaps with
    | false => rfl
    | true => exact absurd (plain.symm.trans (Opcode.hasImmediate_of_leaps found)) (by simp)
  have shift := Instruction.shift_of_ne push pop (by rintro op; rw [op] at plain; contradiction) 0
  have moves := moves_extend instr 0 (fun _ => []) defined pointer falls leaps
    fun _ => emit_eq plain push pop
  rwa [shift] at moves

theorem moves_emitImmediate {instr : Instruction} (wide : instr.op.hasImmediate)
    (pointer : instr.setsPointer = false) (falls : instr.op.falls)
    (leaps : instr.op.leaps = false) (imm : BitVec 32) :
    Moves (fun piece => (piece.emitImmediate instr imm).1)
      (instr.shift imm) := by
  have defined : instr.op.isDefined := by
    cases op : instr.op <;> simp_all [Opcode.hasImmediate, Opcode.isDefined]
  exact moves_extend instr imm (fun _ => []) defined pointer falls leaps
    fun _ => emitImmediate_eq wide imm

theorem moves_emitPush (reg : Register) : Moves (·.emitPush reg) (-8) :=
  moves_extend ⟨.push, reg, .unused, 0⟩ 0 (fun _ => []) rfl rfl rfl rfl
    fun _ => push_eq_extend _

theorem moves_emitPop {reg : Register} (other : reg ≠ .stackPointer) :
    Moves (·.emitPop reg) 8 := by
  have pointer : Instruction.setsPointer ⟨.pop, reg, .unused, 0⟩ = false := by
    simp [Instruction.setsPointer, Instruction.strays, other]
  have pushed : Moves (fun piece => Piece.push { piece with depth := piece.depth + 8 }
      (.instruction ⟨.pop, reg, .unused, 0⟩)) 8 :=
    moves_extend ⟨.pop, reg, .unused, 0⟩ 0 (fun _ => []) rfl pointer rfl rfl
      fun _ => push_eq_extend _
  have cases : ∀ piece : Piece, (piece.cancels reg = true ∧ piece.emitPop reg =
        Piece.truncate { piece with depth := piece.depth + 8 } (piece.size - 1)) ∨
      piece.emitPop reg = Piece.push { piece with depth := piece.depth + 8 }
        (.instruction ⟨.pop, reg, .unused, 0⟩) := by
    intro piece
    unfold emitPop emit
    dsimp only
    split
    · next cancels => exact .inl ⟨cancels, rfl⟩
    · exact .inr rfl
  refine ⟨fun piece => ?_, fun piece => ?_, fun piece level holes levelled below => ?_⟩
  · rcases cases piece with ⟨-, same⟩ | same <;> rw [same] <;> rfl
  · rcases cases piece with ⟨-, same⟩ | same <;> rw [same] <;> rfl
  · rcases cases piece with ⟨cancels, same⟩ | same
    · rw [same]
      refine ⟨level, levelled.truncate cancels, fun cell inside => ⟨rfl, fun bounds => ?_⟩⟩
      exact bounds_truncate cancels inside bounds
    · rw [same]
      exact pushed.levelled piece level holes levelled below

theorem moves_emitCall (target : Option Nat) : Moves (·.emitCall target) 0 := by
  refine moves_extend ⟨.call, .unused, .unused, 0⟩ 0 (fun piece => [⟨target, piece.size + 1⟩])
    rfl rfl rfl rfl fun piece => ?_
  unfold emitCall
  rw [show piece.emitImmediate ⟨.call, .unused, .unused, 0⟩ 0 = (_, piece.size + 1) from
    Prod.ext (emitImmediate_eq rfl 0) rfl]
  simp [extend]

/-- The lines of a piece do not matter. -/
theorem moves_setLine (number : Int) (text : Text) : Moves (·.setLine number text) 0 := by
  have same : ∀ piece : Piece, (piece.setLine number text).code = piece.code ∧
      (piece.setLine number text).barrier = piece.barrier ∧
      (piece.setLine number text).depth = piece.depth := by
    intro piece
    unfold setLine
    split
    · split <;> exact ⟨rfl, rfl, rfl⟩
    · exact ⟨rfl, rfl, rfl⟩
  refine ⟨fun piece => (same piece).2.1, fun piece => ?_, fun piece level holes levelled _ => ?_⟩
  · rw [(same piece).2.2, Int.add_zero]
  · obtain ⟨code, barrier, depth⟩ := same piece
    refine ⟨level, levelled.congr code barrier depth, fun cell _ => ⟨rfl, fun bounds => ?_⟩⟩
    rwa [Bounds, size, code]

end Piece

/-- The space for some call does not fit its immediate. The checks of a function see every
statement, but not the initial values of global variables that main starts with, so only the
generators of other functions are loose. -/
def FunctionContext.Loose (ctx : FunctionContext) : Prop :=
  (ctx.function.name ≠ "main" ∨
    ∀ place ∈ ctx.environment.globals, place.declaration.value.isNone) ∧
  ∃ function ∈ ctx.environment.functions,
    2 ^ 31 < ctx.environment.bytesOf (some function.result) + function.block

/-- A variable is a place, either in the frame or that of a parameter, and a constant a literal. -/
def LocalMeaning.Known (ctx : FunctionContext) : LocalMeaning → Prop
  | .variable type offset => Placed type ∧ ((-(2 ^ 31) < offset ∧ offset ≤ 0) ∨
      ∃ parameter ∈ ctx.function.params,
        type = parameter.type ∧ offset = 16 + parameter.offset)
  | .constant named => named.value.literalType?.isSome

/-- Cells that the generator of a statement has in hand, each with its level: jumps that have no end
yet, and labels. -/
structure Hand where
  holes : List (Nat × Int) := []
  labels : List (Nat × Int) := []

namespace Generator

/-- The jumps out of the loops around, each with the depth of its loop. -/
def exits (gen : Generator) : List (Nat × Int) :=
  gen.loops.flatMap fun loop => loop.exits.map fun cell => (cell, loop.depth)

/-- The labels of the loops around, each with the depth of its loop. -/
def starts (gen : Generator) : List (Nat × Int) :=
  gen.loops.map fun loop => (loop.start, loop.depth)

/-- Every cell has its level. The jumps in hand, and those out of the loops around, have no end
yet. -/
structure Charts (hand : Hand) (gen : Generator) (level : Nat → Int) : Prop where
  levelled : gen.piece.Levelled level (hand.holes ++ gen.exits)
  labels : ∀ label ∈ hand.labels ++ gen.starts, label.1 ≤ gen.piece.barrier ∧
    gen.piece.Bounds label.1 ∧ level label.1 = label.2

/-- The tracked depth is that of the frame with some bytes on the operand stack. In a loose
generator it may also be too high, after a distance that did not fit its immediate. -/
structure Balanced (ctx : FunctionContext) (bytes : Nat) (hand : Hand) (gen : Generator) :
    Prop where
  errors : gen.errors = 0
  frame : gen.frame ≤ 0
  /-- The bodies of loops have deeper frames. -/
  loops : ∀ loop ∈ gen.loops, gen.frame ≤ loop.depth ∧ loop.depth ≤ 0
  scopes : ∀ scope ∈ gen.scopes, ∀ entry ∈ scope, entry.2.Known ctx
  depth : (ctx.Loose ∧ gen.frame < gen.piece.depth + bytes) ∨
    (gen.piece.depth + bytes = gen.frame ∧ ∃ level, gen.Charts hand level)

/-- Only the code of the piece differs. -/
def Alike (gen later : Generator) : Prop :=
  ∃ piece : Piece, later = { gen with piece } ∧ piece.barrier = gen.piece.barrier

theorem Alike.refl (gen : Generator) : gen.Alike gen :=
  ⟨gen.piece, rfl, rfl⟩

theorem Alike.trans {gen later last : Generator} (first : gen.Alike later)
    (second : later.Alike last) : gen.Alike last := by
  obtain ⟨piece, rfl, barrier⟩ := first
  obtain ⟨piece', rfl, barrier'⟩ := second
  exact ⟨piece', rfl, barrier'.trans barrier⟩

variable {gen : Generator} {hand : Hand} {step : Piece → Piece} {distance : Int}

/-- Only the piece and the loops matter to the chart. -/
theorem Charts.congr {level : Nat → Int} {later : Generator} (charts : gen.Charts hand level)
    (piece : later.piece = gen.piece) (loops : later.loops = gen.loops) :
    later.Charts hand level := by
  obtain ⟨levelled, labels⟩ := charts
  refine ⟨?_, ?_⟩
  · rw [exits, piece, loops]
    exact levelled
  · rw [starts, piece, loops]
    exact labels

/-- A step of the piece keeps the chart. -/
theorem Charts.change {level : Nat → Int} (charts : gen.Charts hand level)
    (moves : Piece.Moves step distance) (below : gen.piece.depth ≤ 0) :
    ∃ level', Charts hand { gen with piece := step gen.piece } level' := by
  obtain ⟨level', levelled, agree⟩ := moves.levelled _ level _ charts.levelled below
  refine ⟨level', levelled, fun label mem => ?_⟩
  obtain ⟨before, bounds, even⟩ := charts.labels label mem
  obtain ⟨same, kept⟩ := agree label.1 before
  exact ⟨Nat.le_trans before (Nat.le_of_eq (moves.barrier _).symm), kept bounds, same.trans even⟩

/-- The tracked depth moves with the bytes on the operand stack. -/
theorem Balanced.change {ctx : FunctionContext} {before after : Nat}
    (balanced : gen.Balanced ctx before hand) (moves : Piece.Moves step distance)
    (sum : (before : Int) = distance + after) :
    Balanced ctx after hand { gen with piece := step gen.piece } := by
  refine ⟨balanced.errors, balanced.frame, balanced.loops, balanced.scopes, ?_⟩
  have moved : (step gen.piece).depth + after = gen.piece.depth + before := by
    rw [moves.depth, sum, Int.add_assoc]
  dsimp only
  rw [moved]
  rcases balanced.depth with high | ⟨depth, level, charts⟩
  · exact .inl high
  · have frame := balanced.frame
    exact .inr ⟨depth, charts.change moves (by omega)⟩

end Generator

/-- The sizes around a function fit the immediates that the generator makes of them. -/
structure FunctionContext.Measured (ctx : FunctionContext) : Prop where
  sound : ctx.Sound
  members : ∀ struct, ∀ mem ∈ (ctx.environment.structs.get struct).members,
    mem.shape.leaves = ctx.environment.structs.leavesOf mem.type
  values : ∀ type, ctx.environment.bytesOf type < 2 ^ 31
  blocks : ∀ function ∈ ctx.environment.functions, function.block < 2 ^ 31
  reserves : ¬ ctx.Loose → ∀ function ∈ ctx.environment.functions,
    ctx.environment.bytesOf (some function.result) + function.block ≤ 2 ^ 31
  main : ctx.function.name = "main" → ctx.function.result = .void ∨
    ctx.environment.bytesOf (some ctx.function.result) = wordSize

namespace Generate

variable {α β : Type} {ctx : FunctionContext}

/-- A step takes some bytes from the operand stack and leaves some there, according to its
result, unless it reports a problem. -/
def Turns (ctx : FunctionContext) (before : Nat) (step : Generate α) (after : α → Nat)
    (yields : α → Prop := fun _ => True) : Prop :=
  ∀ rest hand (gen : Generator), gen.Balanced ctx (rest + before) hand →
    (step ctx gen).Finds fun result =>
      result.2.Balanced ctx (rest + after result.1) hand ∧ gen.Alike result.2 ∧ yields result.1

namespace Turns

variable {before bytes : Nat} {after : α → Nat} {yields : α → Prop}

theorem pure {value : α} (yielded : yields value) (sum : before = after value) :
    Turns ctx before (pure value) after yields :=
  fun _ _ _ balanced => ⟨sum ▸ balanced, .refl _, yielded⟩

/-- Counted otherwise. -/
theorem congr {step : Generate α} {other : α → Nat} (turns : Turns ctx before step after yields)
    (sum : bytes = before) (same : ∀ value, yields value → other value = after value) :
    Turns ctx bytes step other yields := by
  subst sum
  refine fun rest hand gen balanced => (turns rest hand gen balanced).mono ?_
  rintro ⟨value, later⟩ ⟨kept, alike, yielded⟩
  exact ⟨by rw [same value yielded]; exact kept, alike, yielded⟩

/-- More bytes below stay where they are. -/
theorem under {step : Generate α} (stay : Nat) (turns : Turns ctx before step after yields) :
    Turns ctx (stay + before) step (fun value => stay + after value) yields := by
  intro rest hand gen balanced
  rw [← Nat.add_assoc] at balanced
  refine (turns (rest + stay) hand gen balanced).mono ?_
  rintro ⟨value, later⟩ ⟨kept, alike, yielded⟩
  rw [Nat.add_assoc] at kept
  exact ⟨kept, alike, yielded⟩

/-- One step after another, while some bytes below stay. -/
theorem bind {step : Generate α} {next : α → Generate β} {between : α → Prop} {last : β → Nat}
    {wanted : β → Prop} (stay : Nat) (first : Turns ctx before step after between)
    (sum : bytes = stay + before)
    (later : ∀ value, between value → Turns ctx (stay + after value) (next value) last wanted) :
    Turns ctx bytes (step >>= next) last wanted := by
  subst sum
  intro rest hand gen balanced
  refine (first.under stay rest hand gen balanced).andThen ?_
  rintro ⟨value, between⟩ ⟨kept, alike, yielded⟩
  exact (later value yielded rest hand between kept).mono
    fun _ ⟨last, alike', found⟩ => ⟨last, alike.trans alike', found⟩

/-- One step after another, each with all bytes that matter. -/
theorem andThen {step : Generate α} {next : α → Generate β} {between : α → Prop} {last : β → Nat}
    {wanted : β → Prop} (first : Turns ctx before step after between)
    (later : ∀ value, between value → Turns ctx (after value) (next value) last wanted) :
    Turns ctx before (step >>= next) last wanted :=
  first.bind 0 (Nat.zero_add _).symm fun value yielded =>
    (later value yielded).congr (Nat.zero_add _) fun _ _ => rfl

/-- A step that takes nothing, and what follows it with the bytes below. -/
theorem onTop {step : Generate α} {next : α → Generate β} {between : α → Prop} {last : β → Nat}
    {wanted : β → Prop} (first : Turns ctx 0 step after between)
    (later : ∀ value, between value → Turns ctx (bytes + after value) (next value) last wanted) :
    Turns ctx bytes (step >>= next) last wanted :=
  first.bind bytes rfl later

/-- A step that leaves the operand stack alone, and what follows it. -/
theorem look {step : Generate α} {next : α → Generate β} {between : α → Prop} {last : β → Nat}
    {wanted : β → Prop} (first : Turns ctx 0 step (fun _ => 0) between)
    (later : ∀ value, between value → Turns ctx bytes (next value) last wanted) :
    Turns ctx bytes (step >>= next) last wanted :=
  first.bind bytes rfl later

theorem ite {test : Prop} [Decidable test] {yes no : Generate α}
    (first : test → Turns ctx before yes after yields)
    (second : ¬ test → Turns ctx before no after yields) :
    Turns ctx before (if test then yes else no) after yields := by
  split
  · next holds => exact first holds
  · next fails => exact second fails

theorem read {next : FunctionContext → Generate α}
    (turns : Turns ctx before (next ctx) after yields) :
    Turns ctx before (read >>= next) after yields := turns

/-- After a report nothing is promised. -/
theorem reported {next : Unit → Generate β} {last : β → Nat} {wanted : β → Prop} (span : Span)
    (cause : ProblemCause) : Turns ctx bytes (report span cause >>= next) last wanted :=
  fun _ _ _ _ => trivial

end Turns

theorem turns_refuse {bytes : Nat} {after : Option ValueType → Nat}
    {yields : Option ValueType → Prop} (span : Span) (cause : ProblemCause) :
    Turns ctx bytes (refuse span cause) after yields :=
  .reported _ _

theorem turns_environment :
    Turns ctx 0 environment (fun _ => 0) fun found => found = ctx.environment :=
  fun _ _ _ balanced => ⟨balanced, .refl _, rfl⟩

theorem turns_stringOffset (text : Text) : Turns ctx 0 (stringOffset text) fun _ => 0 :=
  fun _ _ _ balanced _ => ⟨balanced, .refl _, trivial⟩

theorem turns_change {step : Piece → Piece} {distance : Int} {before after : Nat}
    (moves : Piece.Moves step distance) (sum : (before : Int) = distance + after) :
    Turns ctx before (change step) fun _ => after := by
  intro rest hand gen balanced
  refine ⟨balanced.change moves ?_, ⟨_, rfl, moves.barrier _⟩, trivial⟩
  rw [Int.natCast_add, Int.natCast_add, sum]
  exact Int.add_left_comm _ _ _

/-- An instruction without an immediate that leaves the stack pointer alone. -/
theorem turns_emit {op : Opcode} {first second : Register} {modifier : UInt8}
    (defined : op.isDefined) (falls : op.falls) (plain : op.hasImmediate = false)
    (stack : op ≠ .push ∧ op ≠ .pop)
    (pointer : Instruction.setsPointer ⟨op, first, second, modifier⟩ = false) :
    Turns ctx 0 (emit op first second modifier) fun _ => 0 :=
  turns_change (Piece.moves_emit defined pointer falls plain stack.1 stack.2) rfl

/-- An instruction with an immediate that leaves the stack pointer alone. -/
theorem turns_emitNumber {op : Opcode} {first second : Register} {modifier : UInt8} {number : Int}
    (falls : op.falls) (leaps : op.leaps = false) (wide : op.hasImmediate)
    (other : op ≠ .increase ∨ first ≠ .stackPointer)
    (pointer : Instruction.setsPointer ⟨op, first, second, modifier⟩ = false) :
    Turns ctx 0 (emitNumber op first second modifier number) fun _ => 0 := by
  have moves := @Piece.moves_emitImmediate ⟨op, first, second, modifier⟩ wide pointer falls leaps
    (.ofInt 32 number)
  have shift : Instruction.shift ⟨op, first, second, modifier⟩ (.ofInt 32 number) = 0 := by
    unfold Instruction.shift
    split
    · next same => dsimp only at same; rw [same] at wide; contradiction
    · next same => dsimp only at same; rw [same] at wide; contradiction
    · next same => exact if_neg (other.resolve_left fun differs => differs same)
    · rfl
  exact turns_change moves (by rw [shift]; rfl)

theorem turns_push (reg : Register) : Turns ctx 0 (push reg) fun _ => wordSize :=
  turns_change (Piece.moves_emitPush reg) rfl

theorem turns_pop {reg : Register} (other : reg ≠ .stackPointer) :
    Turns ctx wordSize (pop reg) fun _ => 0 :=
  turns_change (Piece.moves_emitPop other) rfl

theorem turns_increase {reg : Register} (other : reg ≠ .stackPointer) (number : Int) :
    Turns ctx 0 (increase reg number) fun _ => 0 :=
  turns_emitNumber rfl rfl rfl (.inr other)
    (by simp [Instruction.setsPointer, Instruction.strays, Opcode.setsFreely, Opcode.isBinary])

/-- The stack pointer moves up by a distance that fits its immediate. -/
theorem turns_giveUp {count : Nat} (small : count < 2 ^ 31) :
    Turns ctx count (increase .stackPointer count) fun _ => 0 := by
  have moves := @Piece.moves_emitImmediate ⟨.increase, .stackPointer, .unused, 0⟩ rfl rfl rfl rfl
    (.ofInt 32 count)
  have shift : Instruction.shift ⟨.increase, .stackPointer, .unused, 0⟩ (.ofInt 32 count) =
    count := by
    show (BitVec.ofInt 32 (count : Int)).toInt = count
    rw [BitVec.toInt_ofInt, Int.bmod_eq_of_le (by omega) (by omega)]
  exact turns_change moves (by rw [shift, Int.natCast_zero, Int.add_zero])

/-- The stack pointer moves down by a distance; if that does not fit its immediate, it ends up too
high. -/
theorem turns_reserve {count : Nat} (fits : ctx.Loose ∨ count ≤ 2 ^ 31) :
    Turns ctx 0 (increase .stackPointer (-(count : Int))) fun _ => count := by
  intro rest hand gen balanced
  have moves := @Piece.moves_emitImmediate ⟨.increase, .stackPointer, .unused, 0⟩ rfl rfl rfl rfl
    (.ofInt 32 (-(count : Int)))
  have shift : Instruction.shift ⟨.increase, .stackPointer, .unused, 0⟩
      (.ofInt 32 (-(count : Int))) = (-(count : Int)).bmod (2 ^ 32) := by
    show (BitVec.ofInt 32 (-(count : Int))).toInt = _
    rw [BitVec.toInt_ofInt]
  rw [shift] at moves
  have least : -(count : Int) ≤ (-(count : Int)).bmod (2 ^ 32) := by
    rw [Int.bmod_def]
    have wrapped := Int.emod_add_mul_ediv (-(count : Int)) (2 ^ 32 : Nat)
    split <;> omega
  rcases Int.lt_or_eq_of_le least with high | exact'
  · have loose : ctx.Loose := fits.resolve_right fun small => by
      rw [Int.bmod_eq_of_le (by omega) (by omega)] at high
      omega
    have moved := moves.depth gen.piece
    have depth : gen.frame ≤ gen.piece.depth + rest := by
      rcases balanced.depth with ⟨-, above⟩ | ⟨depth, -⟩ <;> omega
    refine ⟨⟨balanced.errors, balanced.frame, balanced.loops, balanced.scopes,
      .inl ⟨loose, ?_⟩⟩, ⟨_, rfl, moves.barrier _⟩, trivial⟩
    show gen.frame < _ + ((rest + count : Nat) : Int)
    rw [moved]
    omega
  · exact turns_change moves (by omega) rest hand gen balanced

theorem turns_setNumber {reg : Register} (other : reg ≠ .stackPointer) (number : Int) :
    Turns ctx 0 (setNumber reg number) fun _ => 0 :=
  turns_emitNumber rfl rfl rfl (.inr other)
    (by simp [Instruction.setsPointer, Instruction.strays, other])

theorem turns_setDataAddress {reg : Register} (other : reg ≠ .stackPointer)
    (offset : Int) : Turns ctx 0 (setDataAddress reg offset) fun _ => 0 :=
  turns_emitNumber rfl rfl rfl (.inr other)
    (by simp [Instruction.setsPointer, Instruction.strays, other])

theorem turns_pushNumber (number : Int) : Turns ctx 0 (pushNumber number) fun _ => wordSize :=
  .look (turns_setNumber (by decide) _) fun _ _ => turns_push _

end Generate

end TinLang
