import TinLang.Proofs.LineTable
import TinLang.Proofs.Simulation.Expressions

/-!
# Frames and calls under way

The variables of a function lie in its frame down to the depth that the generator tracks, its
parameters between the header of the frame and the end of the argument block. Between two statements
the operand stack is empty, and nothing has changed above the argument block. `Activation.Acts` says
of the code of a statement that it does what its execution says: it goes on behind the statement,
stands before a jump out of the innermost loop, comes back to the condition of that loop, or returns
from the function.
-/
namespace TinLang

namespace Generate

/-- Where the names of a function lie: variables in the frame down to a depth, parameters from the
header of the frame up to some height, and no two of them overlap. -/
structure Scoped (env : Environment) (height : Nat) (scopes : List Scope) (depth : Int) :
    Prop where
  places : ∀ entry ∈ scopes.flatten, ∀ type (offset : Int), entry.2 = .variable type offset →
    ∃ kind, type = some kind ∧ kind ≠ .void ∧ kind.pointer = 0 ∧
      (depth ≤ offset ∧ offset + env.structs.sizeOf kind ≤ 0 ∨
        16 ≤ offset ∧ offset + env.structs.sizeOf kind ≤ height)
  constants : ∀ entry ∈ scopes.flatten, ∀ constant, entry.2 = .constant constant →
    (Value.ofLiteral? constant.value).isSome
  apart : scopes.flatten.Pairwise fun entry other => ∀ type (offset : Int) kind (place : Int),
    entry.2 = .variable type offset → other.2 = .variable kind place →
      offset + env.sizeOf type ≤ place ∨ place + env.sizeOf kind ≤ offset

namespace Scoped

variable {env : Environment} {height : Nat} {scopes : List Scope} {depth : Int}

theorem mono (names : Scoped env height scopes depth) {lower : Int} (below : lower ≤ depth) :
    Scoped env height scopes lower where
  places entry mem type offset same := by
    obtain ⟨kind, known, nonvoid, direct, region⟩ := names.places entry mem type offset same
    exact ⟨kind, known, nonvoid, direct, region.imp_left fun inside => ⟨by omega, inside.2⟩⟩
  constants := names.constants
  apart := names.apart

/-- The same names in other scopes. -/
theorem congr (names : Scoped env height scopes depth) {others : List Scope}
    (same : others.flatten = scopes.flatten) : Scoped env height others depth where
  places := same ▸ names.places
  constants := same ▸ names.constants
  apart := same ▸ names.apart

theorem nil : Scoped env height [] depth :=
  ⟨fun _ mem => absurd mem List.not_mem_nil, fun _ mem => absurd mem List.not_mem_nil, .nil⟩

/-- One more constant. -/
theorem addConstant (names : Scoped env height scopes depth) {others : List Scope} {name : Text}
    {constant : Constant} (literal : (Value.ofLiteral? constant.value).isSome)
    (same : others.flatten = (name, .constant constant) :: scopes.flatten) :
    Scoped env height others depth := by
  refine ⟨fun entry mem type offset stands => ?_, fun entry mem other stands => ?_, ?_⟩
  · rcases List.mem_cons.mp (same ▸ mem) with rfl | outer
    · cases stands
    · exact names.places entry outer type offset stands
  · rcases List.mem_cons.mp (same ▸ mem) with rfl | outer
    · obtain rfl := LocalMeaning.constant.inj stands
      exact literal
    · exact names.constants entry outer other stands
  · rw [same]
    refine List.pairwise_cons.mpr ⟨fun other _ type offset kind place stands => ?_, names.apart⟩
    cases stands

/-- One more variable, which overlaps no other. -/
theorem addVariable (names : Scoped env height scopes depth) {others : List Scope} {name : Text}
    {kind : ValueType} {offset : Int} (nonvoid : kind ≠ .void) (direct : kind.pointer = 0)
    (region : depth ≤ offset ∧ offset + env.structs.sizeOf kind ≤ 0 ∨
      16 ≤ offset ∧ offset + env.structs.sizeOf kind ≤ height)
    (apart : ∀ entry ∈ scopes.flatten, ∀ type (place : Int), entry.2 = .variable type place →
      offset + env.structs.sizeOf kind ≤ place ∨ place + env.sizeOf type ≤ offset)
    (same : others.flatten = (name, .variable (some kind) offset) :: scopes.flatten) :
    Scoped env height others depth := by
  refine ⟨fun entry mem type place stands => ?_, fun entry mem other stands => ?_, ?_⟩
  · rcases List.mem_cons.mp (same ▸ mem) with rfl | outer
    · obtain ⟨rfl, rfl⟩ := LocalMeaning.variable.inj stands
      exact ⟨kind, rfl, nonvoid, direct, region⟩
    · exact names.places entry outer type place stands
  · rcases List.mem_cons.mp (same ▸ mem) with rfl | outer
    · cases stands
    · exact names.constants entry outer other stands
  · rw [same]
    refine List.pairwise_cons.mpr ⟨fun other mem type start found place stands known =>
      ?_, names.apart⟩
    obtain ⟨rfl, rfl⟩ := LocalMeaning.variable.inj stands
    exact apart other mem found place known

end Scoped

end Generate

/-- The jumps out of the loops around that are not fixed yet. -/
def Generator.openExits (gen : Generator) : List Nat := gen.loops.flatMap LoopFrame.exits

theorem Generator.openExits_congr {gen other : Generator} (loops : gen.loops = other.loops) :
    gen.openExits = other.openExits := congrArg (List.flatMap LoopFrame.exits) loops

/-- A generator between two statements: names lie where the frame has room for them, and the jumps
out of the loops around are there to be fixed. -/
structure Generator.Orderly (env : Environment) (height : Nat) (gen : Generator) : Prop where
  bounded : gen.piece.barrier ≤ gen.piece.size
  names : Generate.Scoped env height gen.scopes gen.frame
  inner : gen.scopes ≠ []
  frame : gen.frame ≤ 0
  loops : ∀ loop ∈ gen.loops, gen.frame ≤ loop.depth ∧ loop.depth ≤ 0 ∧
    loop.start ≤ gen.piece.settled
  exits : ∀ cell ∈ gen.openExits, cell < gen.piece.settled ∧ gen.piece.BranchAt cell
  distinct : gen.openExits.Nodup

/-- How a generator goes on, while some jumps are open beside those out of the loops around. -/
structure Generator.Moves (env : Environment) (height : Nat) (holes : List Nat) (before : Generator)
    (more : List Nat) (after : Generator) : Prop where
  orderly : after.Orderly env height
  follows : before.piece.Follows after.piece (holes ++ before.openExits) (more ++ after.openExits)
  loops : ∃ exits, after.loops = before.loops.modifyHead fun loop =>
    { loop with exits := loop.exits ++ exits }
  scopes : ∃ added, after.scopes = before.scopes.modifyHead (added ++ ·)
  frame : after.frame ≤ before.frame
  fresh : ∀ cell ∈ after.openExits, cell ∈ before.openExits ∨ before.piece.settled ≤ cell

/-- How a generator goes on behind a statement. -/
abbrev Generator.Goes (env : Environment) (height : Nat) (before after : Generator) : Prop :=
  Moves env height [] before [] after

namespace Piece

variable {piece later : Piece} {final : Code} {holes more before after : List Nat}

/-- The order of the holes does not matter. -/
theorem Completes.mono (complete : piece.Completes final holes)
    (inside : ∀ hole ∈ holes, hole ∈ more) :
    piece.Completes final more where
  cells index small := (complete.cells index small).imp_right fun open' =>
    open'.imp_left fun hole => ⟨inside index hole.1, hole.2⟩
  calls := complete.calls

theorem Follows.congr (follows : piece.Follows later before after)
    (same : ∀ hole ∈ more, hole ∈ after) :
    piece.Follows later before more where
  bounded := follows.bounded
  settled := follows.settled
  branches := follows.branches
  completes final others complete := follows.completes final others (complete.mono fun hole mem =>
    (List.mem_append.mp mem).elim (List.mem_append_left _)
      fun inner => List.mem_append_right _ (same hole inner))

/-- The immediate of a jump that is not open any more is final. -/
theorem Completes.closed {index : Nat} {instr : Instruction} {value : BitVec 32}
    (complete : piece.Completes final holes) (small : index < piece.settled)
    (before : piece.code[index - 1]? = some (.instruction instr))
    (jump : instr.op = .jump ∨ instr.op = .jumpZero)
    (found : piece.code[index]? = some (.immediate value)) (hole : index ∉ holes) :
    final[index]? = some (.immediate value) := by
  rcases complete.cells index small with same | ⟨inside, -⟩ | ⟨other, first, call, -⟩
  · exact same.trans found
  · exact absurd inside hole
  · obtain rfl := Cell.instruction.inj (Option.some.inj (before.symm.trans first))
    rw [call] at jump
    rcases jump with wrong | wrong <;> cases wrong

/-- A jump back stands in the final code as it was emitted. -/
theorem Completes.back {op : Opcode} {reg : Register} {target : Int}
    (complete : (piece.emitJumpBack op reg target).Completes final holes)
    (bounded : piece.barrier ≤ piece.size) (jump : op = .jump ∨ op = .jumpZero)
    (hole : piece.size + 1 ∉ holes) :
    final[piece.size]? = some (.instruction ⟨op, reg, .unused, 0⟩) ∧
      final[piece.size + 1]? = some (.immediate
        (BitVec.ofInt 32 (target - (piece.size + 1 : Nat)))) := by
  let first : Piece := piece.push (.instruction ⟨op, reg, .unused, 0⟩)
  have size : first.size = piece.size + 1 := piece.size_push _
  have grown := (grows_push bounded (.instruction ⟨op, reg, .unused, 0⟩)).bounded
  have settled : (piece.emitJumpBack op reg target).settled = piece.size + 2 := by
    rw [emitJumpBack, settled_push grown, size_push]
    rfl
  have code : ∀ index, (piece.emitJumpBack op reg target).code[index]? =
      if index = first.size then some (.immediate (BitVec.ofInt 32 (target - first.size)))
      else first.code[index]? := fun index => first.getElem?_push _ index
  have here : (piece.emitJumpBack op reg target).code[piece.size]? =
      some (.instruction ⟨op, reg, .unused, 0⟩) := by
    rw [code, if_neg (by omega), getElem?_push, if_pos rfl]
  have next : (piece.emitJumpBack op reg target).code[piece.size + 1]? =
      some (.immediate (BitVec.ofInt 32 (target - (piece.size + 1 : Nat)))) := by
    rw [code, if_pos size.symm, size]
  exact ⟨complete.instruction (by omega) here, complete.closed (by omega) here jump next hole⟩

end Piece

theorem Piece.settled_emitJump {piece : Piece} (bounded : piece.barrier ≤ piece.size) (op : Opcode)
    (reg : Register) : (piece.emitJump op reg).1.settled = piece.size + 2 := by
  rw [emitJump, settled, pending_emitImmediate piece bounded, size_emitImmediate]
  rfl

theorem Piece.Follows.keep {piece later : Piece} {before after : List Nat}
    (follows : piece.Follows later before after)
    (cell : Nat) : piece.Follows later (cell :: before) (cell :: after) where
  bounded := follows.bounded
  settled := follows.settled
  branches := follows.branches
  completes final others complete := by
    have held := follows.completes final (others ++ [cell]) (by simpa using complete)
    simpa using held

namespace Generator

variable {env : Environment} {height : Nat} {before between after gen : Generator}

namespace Moves

variable {holes some more : List Nat}

theorem trans (first : Moves env height holes before some between)
    (second : Moves env height some between more after) :
    Moves env height holes before more after where
  orderly := second.orderly
  follows := first.follows.trans second.follows
  loops := by
    obtain ⟨exits, loops⟩ := first.loops
    obtain ⟨later, last⟩ := second.loops
    refine ⟨exits ++ later, ?_⟩
    rw [last, loops]
    cases before.loops with
    | nil => rfl
    | cons loop outer => simp [List.modifyHead]
  scopes := by
    obtain ⟨added, scopes⟩ := first.scopes
    obtain ⟨later, last⟩ := second.scopes
    refine ⟨later ++ added, ?_⟩
    rw [last, scopes]
    cases before.scopes with
    | nil => rfl
    | cons scope outer => simp [List.modifyHead]
  frame := Int.le_trans second.frame first.frame
  fresh cell mem := by
    have later := first.follows.settled
    rcases second.fresh cell mem with old | new
    · exact first.fresh cell old
    · exact .inr (Nat.le_trans later new)

/-- One more jump stays open. -/
theorem keep (moves : Moves env height holes before more after) (cell : Nat) :
    Moves env height (cell :: holes) before (cell :: more) after :=
  { moves with follows := moves.follows.keep cell }

/-- The loops around have the depths they had. -/
theorem depths (moves : Moves env height holes before more after) {loop : LoopFrame}
    (mem : loop ∈ after.loops) :
    ∃ old ∈ before.loops, old.depth = loop.depth ∧ old.start = loop.start := by
  obtain ⟨exits, loops⟩ := moves.loops
  rw [loops] at mem
  cases found : before.loops with
  | nil => simp [found] at mem
  | cons head outer =>
    rw [found, List.modifyHead_cons] at mem
    rcases List.mem_cons.mp mem with rfl | outside
    · exact ⟨head, List.mem_cons_self, rfl, rfl⟩
    · exact ⟨loop, List.mem_cons_of_mem _ outside, rfl, rfl⟩

end Moves

/-- What is known of the loops, the scopes and the frame stays the same. -/
theorem Orderly.moves (orderly : before.Orderly env height) {holes more : List Nat}
    (follows : before.piece.Follows after.piece (holes ++ before.openExits)
    (more ++ before.openExits))
    (loops : after.loops = before.loops) (scopes : after.scopes = before.scopes)
    (frame : after.frame = before.frame) : Moves env height holes before more after := by
  have exits := Generator.openExits_congr loops
  refine ⟨⟨follows.bounded, ?_, scopes ▸ orderly.inner, frame ▸ orderly.frame, ?_, ?_, exits ▸
    orderly.distinct⟩,
    exits ▸ follows, ⟨[], ?_⟩, ⟨[], ?_⟩, Int.le_of_eq frame, fun cell mem => .inl (exits ▸ mem)⟩
  · rw [scopes, frame]
    exact orderly.names
  · intro loop mem
    obtain ⟨above, low, start⟩ := orderly.loops loop (loops ▸ mem)
    exact ⟨frame ▸ above, low, Nat.le_trans start follows.settled⟩
  · intro cell mem
    obtain ⟨small, branch⟩ := orderly.exits cell (exits ▸ mem)
    exact ⟨Nat.lt_of_lt_of_le small follows.settled, follows.branches cell small branch⟩
  · rw [loops]
    cases before.loops <;> simp [List.modifyHead]
  · rw [scopes]
    cases before.scopes <;> simp [List.modifyHead]

/-- Code was added, and what is known of the loops, the scopes and the frame is the same. -/
theorem Orderly.goes (orderly : before.Orderly env height)
    (grows : before.piece.Grows after.piece) (loops : after.loops = before.loops)
    (scopes : after.scopes = before.scopes) (frame : after.frame = before.frame) :
    Goes env height before after :=
  orderly.moves (grows.follows _) loops scopes frame

theorem Orderly.refl (orderly : gen.Orderly env height) :
    Goes env height gen gen :=
  orderly.goes (.refl orderly.bounded) rfl rfl rfl

/-- A jump is left open. -/
theorem Orderly.opens (orderly : gen.Orderly env height) (op : Opcode) (reg : Register)
    (holes : List Nat) : Moves env height holes gen ((gen.piece.size + 1) :: holes)
      { gen with piece := (gen.piece.emitJump op reg).1 } :=
  orderly.moves (Piece.follows_emitJump orderly.bounded op reg (holes ++ gen.openExits)) rfl rfl rfl

/-- An open jump is fixed. -/
theorem Orderly.lands (orderly : gen.Orderly env height) {cell : Nat}
    (branch : gen.piece.BranchAt cell) (holes : List Nat) (landing : Nat) :
    Moves env height (cell :: holes) gen holes
      { gen with piece := (gen.piece.fixJump cell).1, landing } :=
  orderly.moves (Piece.follows_fixJump branch (holes ++ gen.openExits)) rfl rfl rfl

/-- Other lines of the source make no difference. -/
theorem Orderly.lined (orderly : gen.Orderly env height) (lines : Array SourceLine)
    (currentLine : Option Nat) : Goes env height gen
      { gen with piece := { gen.piece with lines, currentLine } } :=
  orderly.goes (Piece.grows_of_same orderly.bounded rfl rfl fun _ => id) rfl rfl rfl

/-- A jump out of the innermost loop is left open. -/
theorem Orderly.jump (orderly : before.Orderly env height) {loop : LoopFrame}
    {outer : List LoopFrame} {released : Piece} {depth : Int} (loops : before.loops = loop :: outer)
    (grows : before.piece.Grows released) : Goes env height before { before with
      piece := { (released.emitJump .jump .unused).1 with depth }
      loops := { loop with exits := loop.exits ++ [released.size + 1] } :: outer } := by
  let left : Piece := { (released.emitJump .jump .unused).1 with depth }
  have emitted := Piece.grows_emitImmediate grows.bounded ⟨.jump, .unused, .unused, 0⟩ 0
  have moved : (released.emitJump .jump .unused).1.Grows left :=
    Piece.grows_of_same emitted.bounded rfl rfl fun _ => id
  have settled : left.settled = released.size + 2 := Piece.settled_emitJump grows.bounded
    .jump .unused
  have branch : left.BranchAt (released.size + 1) :=
    moved.branchAt (by have known := settled; show released.size + 1 < left.settled; omega)
      (released.branchAt_emitJump .unused (.inl rfl))
  have small := grows.settled
  have small' := released.settled_le
  have known : before.openExits = loop.exits ++ outer.flatMap LoopFrame.exits := by
    rw [Generator.openExits, loops, List.flatMap_cons]
  have follows : before.piece.Follows left before.openExits ((released.size + 1) ::
    before.openExits) :=
    (grows.follows _).trans ((Piece.follows_emitJump grows.bounded .jump .unused _).trans
    (moved.follows _))
  have exits : ∀ {cell}, cell ∈ (loop.exits ++ [released.size + 1]) ++ outer.flatMap
    LoopFrame.exits ↔
      cell = released.size + 1 ∨ cell ∈ before.openExits := by
    intro cell
    rw [known]
    simp only [List.mem_append, List.mem_singleton]
    exact ⟨fun held => by tauto, fun held => by tauto⟩
  refine ⟨⟨follows.bounded, orderly.names, orderly.inner, orderly.frame, fun found mem => ?_,
    fun cell mem => ?_, ?_⟩, follows.congr fun cell mem =>
      ?_, ⟨[released.size + 1], by rw [loops]; rfl⟩,
    ⟨[], ?_⟩, Int.le_refl _, fun cell mem => ?_⟩
  · have later := follows.settled
    rcases List.mem_cons.mp mem with rfl | outside
    · obtain ⟨above, low, start⟩ := orderly.loops loop (by rw [loops]; exact List.mem_cons_self)
      exact ⟨above, low, Nat.le_trans start later⟩
    · obtain ⟨above, low, start⟩ := orderly.loops found
        (by rw [loops]; exact List.mem_cons_of_mem _ outside)
      exact ⟨above, low, Nat.le_trans start later⟩
  · rcases exits.mp mem with rfl | old
    · exact ⟨by rw [settled]; omega, branch⟩
    · obtain ⟨inside, found⟩ := orderly.exits cell old
      exact ⟨Nat.lt_of_lt_of_le inside follows.settled, follows.branches cell inside found⟩
  · have distinct := orderly.distinct
    have new : released.size + 1 ∉ before.openExits := fun mem => by
      have inside := (orderly.exits _ mem).1
      omega
    rw [known] at distinct new
    show ((loop.exits ++ [released.size + 1]) ++ outer.flatMap LoopFrame.exits).Nodup
    rw [List.append_assoc]
    exact List.nodup_middle.mpr (List.nodup_cons.mpr ⟨new, distinct⟩)
  · rcases exits.mp mem with rfl | old
    · exact List.mem_cons_self
    · exact List.mem_cons_of_mem _ old
  · cases before.scopes <;> simp [List.modifyHead]
  · rcases exits.mp mem with rfl | old
    · exact .inr (by omega)
    · exact .inl old

/-- Behind a scope the names and the frame are those before it. -/
theorem Orderly.leave (orderly : before.Orderly env height)
    (goes : Goes env height { before with scopes := [] :: before.scopes } between)
    (grows : between.piece.Grows after.piece) (loops : after.loops = between.loops)
    (scopes : after.scopes = between.scopes.tail) (frame : after.frame = before.frame) :
    Goes env height before after ∧ after.scopes = before.scopes := by
  have exits := Generator.openExits_congr loops
  have outer : after.scopes = before.scopes := by
    obtain ⟨added, inner⟩ := goes.scopes
    rw [scopes, inner]
    rfl
  refine ⟨⟨⟨grows.bounded, ?_, outer ▸ orderly.inner, frame ▸ orderly.frame, ?_, ?_,
    exits ▸ goes.orderly.distinct⟩, ?_, ?_, ⟨[], ?_⟩, Int.le_of_eq frame,
    fun cell mem => goes.fresh cell (exits ▸ mem)⟩, outer⟩
  · rw [outer, frame]
    exact orderly.names
  · intro loop mem
    obtain ⟨old, known, same, start⟩ := goes.depths (loops ▸ mem)
    obtain ⟨above, low, begins⟩ := orderly.loops old known
    have later := Nat.le_trans goes.follows.settled grows.settled
    rw [frame, ← same, ← start]
    exact ⟨above, low, Nat.le_trans begins later⟩
  · intro cell mem
    obtain ⟨small, branch⟩ := goes.orderly.exits cell (exits ▸ mem)
    exact ⟨Nat.lt_of_lt_of_le small grows.settled, grows.branchAt small branch⟩
  · rw [exits]
    exact goes.follows.trans (grows.follows _)
  · obtain ⟨added, inner⟩ := goes.loops
    exact ⟨added, loops.trans inner⟩
  · rw [outer]
    cases before.scopes <;> simp [List.modifyHead]

/-- Code was added, the frame has grown, and one more name is known. -/
theorem Orderly.declare (orderly : before.Orderly env height) {piece : Piece} {frame : Int}
    {name : Text} {meaning : LocalMeaning} (grows : before.piece.Grows piece)
    (lower : frame ≤ before.frame)
    (names : Generate.Scoped env height (before.scopes.modifyHead ([(name, meaning)] ++ ·)) frame) :
    Goes env height before { before with
      piece, frame, scopes := before.scopes.modifyHead ([(name, meaning)] ++ ·) } := by
  have below := orderly.frame
  refine ⟨⟨grows.bounded, names, ?_, Int.le_trans lower below, fun loop mem =>
    ?_, fun cell mem => ?_,
    orderly.distinct⟩, grows.follows _, ⟨[], ?_⟩, ⟨_, rfl⟩, lower, fun cell mem => .inl mem⟩
  · have inner := orderly.inner
    dsimp only
    cases scopes : before.scopes with
    | nil => exact absurd scopes inner
    | cons scope outer => simp [List.modifyHead]
  · obtain ⟨least, most, start⟩ := orderly.loops loop mem
    exact ⟨Int.le_trans lower least, most, Nat.le_trans start grows.settled⟩
  · obtain ⟨small, branch⟩ := orderly.exits cell mem
    exact ⟨Nat.lt_of_lt_of_le small grows.settled, grows.branchAt small branch⟩
  · cases before.loops <;> simp [List.modifyHead]

end Generator

namespace Generate

variable {env : Environment} {height : Nat} {ctx : FunctionContext} {gen later : Generator}

theorem Emits.goes {α : Type} {step : Generate α} {value : α} (emits : Emits step)
    (orderly : gen.Orderly env height)
    (done : step ctx gen = .done (value, later)) :
    Generator.Goes env height gen later := by
  obtain ⟨piece, rfl, emitted⟩ := emits done orderly.bounded
  exact orderly.goes emitted.toGrows rfl rfl rfl

theorem emits_release (depth : Int) : Emits (release depth) :=
  (Emits.look fun _ gen => ⟨gen, rfl⟩).bind fun _ =>
    .ite (fun _ => emits_increase _ _) fun _ => .pure _

theorem declare_done {span : Span} {name : Text} {meaning : LocalMeaning}
    (done : declare span name meaning ctx gen = .done ((), later))
    (inner : gen.scopes ≠ []) :
    later = { gen with scopes := gen.scopes.modifyHead ([(name, meaning)] ++ ·) } := by
  obtain ⟨_, _, look, done⟩ := bind_done.mp done
  obtain ⟨rfl, rfl⟩ := Prod.mk.inj (Task.done.inj look)
  cases scopes : gen.scopes with
  | nil => exact absurd scopes inner
  | cons scope outer =>
    rw [scopes] at done
    dsimp only at done
    split at done
    · cases done
    · exact (Prod.mk.inj (Task.done.inj done)).2.symm

/-- A declared name is one more. -/
theorem flatten_declared {name : Text} {meaning : LocalMeaning} {scopes : List Scope}
    (inner : scopes ≠ []) :
    (scopes.modifyHead ([(name, meaning)] ++ ·)).flatten = (name, meaning) :: scopes.flatten := by
  cases scopes with
  | nil => exact absurd rfl inner
  | cons scope outer => rfl

theorem checkDepth_done {span : Span} (done : checkDepth span ctx gen = .done ((), later)) :
    later = gen := by
  obtain ⟨_, _, look, done⟩ := bind_done.mp done
  obtain ⟨rfl, rfl⟩ := Prod.mk.inj (Task.done.inj look)
  split at done
  · cases done
  · exact (Prod.mk.inj (Task.done.inj done)).2.symm

theorem setLine_done {number : Nat} (done : setLine number ctx gen = .done ((), later)) :
    ∃ lines currentLine, later = { gen with piece := { gen.piece with lines, currentLine } } := by
  obtain ⟨-, rfl⟩ := Prod.mk.inj (Task.done.inj done)
  obtain ⟨lines, currentLine, same⟩ := gen.piece.setLine_eq number (gen.file.line number)
  exact ⟨lines, currentLine, by dsimp only; rw [same]⟩

end Generate

/-- The names of the whole program stand for places in the data segment that do not overlap. -/
structure Environment.Houses (env : Environment) (dataSize : Nat) : Prop where
  hosts : env.Hosts env.referents
  direct : ∀ entry ∈ env.referents, entry.2.Direct
  inside : ∀ entry ∈ env.referents, ∀ (addr : Int) type, entry.2 = .place addr type →
    (Memory.dataBase : Int) ≤ addr ∧
      addr + env.structs.sizeOf type ≤ Memory.dataBase + dataSize

/-- A call under way: where its code runs, what the code depends on, the end of the argument block
above the frame, and what was shown when the call began. -/
structure Activation where
  /-- Where the code runs. -/
  site : Site
  /-- What the code depends on. -/
  context : FunctionContext
  /-- The end of the argument block above the frame. -/
  height : Nat
  /-- What was shown when the call began. -/
  entered : Shown

/-- With an empty operand stack no push waits to be executed. -/
theorem Site.Shows.pending_eq_nil {site : Site} {piece : Piece} {machine : Machine} {shown : Shown}
    (shows : site.Shows piece machine shown) (empty : shown.stack = []) : piece.pending = [] := by
  obtain ⟨rest, stack, -⟩ := shows.plain
  rw [empty] at stack
  exact List.map_eq_nil_iff.mp (List.append_eq_nil_iff.mp stack.symm).1

namespace Activation

open Generate

variable {act : Activation} {gen later : Generator} {shown : Shown} {machine : Machine}

/-- The declarations of the program. -/
abbrev environment (act : Activation) : Environment := act.context.environment

/-- The scene of the code behind that of a generator, some jumps of which are looked at elsewhere.
-/
def scene (act : Activation) (gen : Generator) (others : List Nat) : Scene :=
  ⟨act.site, others ++ gen.openExits, act.context, gen.scopes⟩

/-- The program has nothing to do with pointers, its names stand where they should, and functions
that are called do what calls of them mean. -/
structure Set (act : Activation) (bound : Nat) : Prop where
  program : act.environment.Direct
  houses : act.environment.Houses act.site.dataSize
  roof : act.entered.base + act.height ≤ act.site.top
  answers : act.site.Answers act.environment bound
  listed : act.context.function ∈ act.environment.functions
  block : act.context.function.name ≠ "main" →
    act.height = 16 + act.context.function.block ∧ act.entered.base + 16 +
      act.environment.space act.context.function ≤ act.site.top

/-- What is shown between two statements when the frame has some depth. -/
structure At (act : Activation) (depth : Int) (shown : Shown) : Prop where
  empty : shown.stack = []
  base : shown.base = act.entered.base
  floor : (shown.floor : Int) = act.entered.base + depth
  kept : ∀ place, place < Memory.dataBase → act.entered.base ≤ place →
    (place < act.entered.base + 16 ∨ act.entered.base + act.height ≤ place) →
      shown.bytes place = act.entered.bytes place

/-- The names of a function stand where its code finds them. -/
theorem At.stands {bound : Nat} (at' : act.At gen.frame shown) (set : act.Set bound)
    (orderly : gen.Orderly act.environment act.height) (others : List Nat) :
    (act.scene gen others).Stands shown.base shown.floor
      (act.entered.base + act.height) := by
  have floor := at'.floor
  have base := at'.base
  have roof := set.roof
  have below := act.site.below
  have lower := orderly.frame
  have locals : ∀ entry ∈ frameReferents shown.base gen.scopes, ∀ (addr : Int) type,
      entry.2 = .place addr type → type ≠ .void ∧ type.pointer = 0 ∧
        ((shown.floor : Int) ≤ addr ∧
            addr + act.environment.structs.sizeOf type ≤ shown.base ∨
          (shown.base : Int) + 16 ≤ addr ∧ addr + act.environment.structs.sizeOf type ≤
            (act.entered.base + act.height : Nat)) := by
    intro entry mem addr type stands
    obtain ⟨⟨name, meaning⟩, listed, rfl⟩ := List.mem_map.mp mem
    rcases meaning with ⟨found, offset⟩ | value
    · obtain ⟨rfl, rfl⟩ := Referent.place.inj stands
      obtain ⟨kind, rfl, nonvoid, direct, region⟩ := orderly.names.places _ listed _ _ rfl
      refine ⟨nonvoid, direct, ?_⟩
      rw [Option.getD_some]
      exact region.imp (fun inside => by omega) fun inside => by omega
    · cases stands
  refine ⟨set.program, ⟨fun entry mem addr type stands => ?_, ?_⟩, fun entry mem => ?_,
    fun entry mem addr type stands => (locals entry mem addr type stands).2.2,
    set.houses.inside, by omega, by omega, roof⟩
  · rcases List.mem_append.mp mem with inner | outer
    · obtain ⟨nonvoid, -, region⟩ := locals entry inner addr type stands
      exact ⟨nonvoid, by omega⟩
    · exact set.houses.hosts.placed entry outer addr type stands
  · refine List.pairwise_append.mpr ⟨List.pairwise_map.mpr (orderly.names.apart.imp_of_mem ?_),
      set.houses.hosts.apart, fun entry inner other outer addr type place kind stands stands' => ?_⟩
    · rintro ⟨name, meaning⟩ ⟨other, another⟩ listed listed' apart addr type place kind
        stands stands'
      rcases meaning with ⟨found, offset⟩ | value
      · rcases another with ⟨found', offset'⟩ | value'
        · obtain ⟨rfl, rfl⟩ := Referent.place.inj stands
          obtain ⟨rfl, rfl⟩ := Referent.place.inj stands'
          obtain ⟨kind, rfl, -⟩ := orderly.names.places _ listed _ _ rfl
          obtain ⟨kind', rfl, -⟩ := orderly.names.places _ listed' _ _ rfl
          have apart : offset + act.environment.structs.sizeOf kind ≤ offset' ∨
            offset' + act.environment.structs.sizeOf kind' ≤ offset := apart _ _ _ _ rfl rfl
          show (shown.base : Int) + offset + act.environment.structs.sizeOf kind ≤
            shown.base + offset' ∨
            (shown.base : Int) + offset' + act.environment.structs.sizeOf kind' ≤
              shown.base + offset
          exact apart.imp (fun inside => by omega) fun inside => by omega
        · cases stands'
      · cases stands
    · obtain ⟨-, -, region⟩ := locals entry inner addr type stands
      obtain ⟨least, -⟩ := set.houses.inside other outer place kind stands'
      refine .inl ?_
      show addr + act.environment.structs.sizeOf type ≤ place
      omega
  · rcases List.mem_append.mp mem with inner | outer
    · obtain ⟨⟨name, meaning⟩, listed, rfl⟩ := List.mem_map.mp inner
      rcases meaning with ⟨found, offset⟩ | value
      · exact (locals _ inner _ _ rfl).2.1
      · exact orderly.names.constants _ listed value rfl
    · exact set.houses.direct entry outer

/-- A machine stands behind the code of a generator between two statements. -/
structure Starts (act : Activation) (gen : Generator) (machine : Machine) (shown : Shown) :
    Prop where
  shows : act.site.Shows gen.piece machine shown
  at' : act.At gen.frame shown
  live : gen.piece.Live gen.landing

/-- The store of a generator's names. -/
def store (act : Activation) (gen : Generator) (shown : Shown) : Store :=
  act.environment.storeIn gen.scopes shown

/-- A machine stands at a cell outside the scopes that were opened since, whose names are still
known to a store. -/
def Leaps (act : Activation) (cell : Nat) (depth : Int) (gen : Generator) (store : Store)
    (last : Machine) : Prop :=
  ∃ shown inner, act.site.Plain cell last shown ∧ act.At depth shown ∧
    store = { act.store gen shown with
      locals := inner ++ (act.store gen shown).locals }

/-- What is shown when a value is returned: the frame is given back, and the value is where the
caller, or the end of the program, expects it. -/
structure Returned (act : Activation) (value : Value) (shown : Shown) : Prop where
  empty : shown.stack = []
  level : shown.floor = shown.base
  base : shown.base = act.entered.base
  type : value.type = act.context.function.result
  count : value.words.length = act.environment.structs.leavesOf act.context.function.result
  words : act.context.function.name ≠ "main" →
    shown.bytes.Spells (shown.base + 16 + act.context.function.block) value.words.reverse
  register : act.context.function.name = "main" → ∀ word, value.words = [word] → shown.a = word
  bytes : act.context.function.name ≠ "main" → ∀ place, place < Memory.dataBase →
    act.entered.base ≤ place → (place < act.entered.base + 16 ∨
      act.entered.base + 16 + act.environment.space act.context.function ≤ place) →
      shown.bytes place = act.entered.bytes place

/-- A machine is about to return a value. -/
def Returns (act : Activation) (value : Value) (store : Store) (last : Machine) : Prop :=
  ∃ stop shown, act.site.Plain stop last shown ∧
    act.site.code[stop]? = some (.instruction ⟨.giveBack, .unused, .unused, 0⟩) ∧
    act.Returned value shown ∧
    store.globals = shown.bytes.bindings act.environment.structs act.environment.referents ∧
    store.output = shown.output

/-- Where a machine stands when a statement has ended as its flow says. -/
def Ends (act : Activation) (before after : Generator) (halts : Bool) (store : Store)
    (last : Machine) : Flow → Prop
  | .next => halts = false ∧ ∃ shown, act.Starts after last shown ∧
      store = act.store after shown
  | .leave => ∃ loop ∈ after.loops.head?, ∃ cell ∈ loop.exits,
      act.site.code[cell - 1]? = some (.instruction ⟨.jump, .unused, .unused, 0⟩) ∧
      0 < cell ∧ act.Leaps (cell - 1) loop.depth before store last
  | .again => ∃ loop ∈ before.loops.head?, act.Leaps loop.start loop.depth before store last
  | .result value => act.Returns value store last

/-- The code of a statement goes on in an orderly way and does what an execution says. -/
structure Acts (act : Activation) (bound : Nat) (step : Generate Bool) (eval : Eval Flow) :
    Prop where
  goes : ∀ ⦃gen halts later⦄,
    step act.context gen = .done (halts, later) →
    gen.Orderly act.environment act.height →
    gen.Goes act.environment act.height later
  meets : ∀ ⦃gen halts later⦄ (others : List Nat),
    step act.context gen = .done (halts, later) →
    gen.Orderly act.environment act.height →
    (∀ cell ∈ others, cell < gen.piece.settled) →
    later.piece.Completes act.site.code (others ++ later.openExits) →
    ∀ ⦃machine shown⦄, act.Starts gen machine shown →
      machine.Meets act.site.program act.site.settings bound
        (fun flow store last => act.Ends gen later halts store last flow)
        (eval.run.run (act.store gen shown))

variable {bound : Nat} {before between after : Generator} {store : Store} {flow : Flow}
  {halts : Bool}

/-- Where an execution jumps out of a statement it jumps out of the statements around it. -/
theorem Ends.moves (ends : act.Ends before between halts store machine flow)
    (jumps : flow ≠ .next) {holes more : List Nat}
    (goes : between.Moves act.environment act.height holes more after) (last : Bool) :
    act.Ends before after last store machine flow := by
  cases flow with
  | next => exact absurd rfl jumps
  | leave =>
    obtain ⟨loop, mem, cell, exit, ends⟩ := ends
    obtain ⟨exits, loops⟩ := goes.loops
    refine ⟨{ loop with exits := loop.exits ++ exits }, ?_, cell, List.mem_append_left _ exit, ends⟩
    rw [loops, List.head?_modifyHead]
    exact Option.mem_map_of_mem _ mem
  | again => exact ends
  | result value => exact ends

/-- What a statement jumps out of is jumped out of from the statements before it. -/
theorem Ends.from (ends : act.Ends between after halts store machine flow)
    {holes more : List Nat} (goes : before.Moves act.environment act.height holes more between)
    (last : Bool)
    (next : flow = .next → last = halts) : act.Ends before after last store machine flow := by
  have leaps : ∀ cell depth, act.Leaps cell depth between store machine →
      act.Leaps cell depth before store machine := by
    rintro cell depth ⟨shown, inner, plain, at', same⟩
    obtain ⟨added, scopes⟩ := goes.scopes
    obtain ⟨more, locals⟩ : ∃ more, (act.store between shown).locals =
        more ++ (act.store before shown).locals := by
      refine ⟨shown.bytes.bindings act.environment.structs
        (frameReferents shown.base (if before.scopes = [] then [] else [added])), ?_⟩
      show shown.bytes.bindings _ (frameReferents shown.base between.scopes) = _ ++
        shown.bytes.bindings _ (frameReferents shown.base before.scopes)
      rw [← bindings_append, scopes, frameReferents, frameReferents, frameReferents,
        ← List.map_append]
      cases before.scopes with
      | nil => rfl
      | cons scope outer => simp [List.modifyHead]
    refine ⟨shown, inner ++ more, plain, at', ?_⟩
    rw [same, locals, List.append_assoc]
    rfl
  cases flow with
  | next => exact ⟨next rfl ▸ ends.1, ends.2⟩
  | leave =>
    obtain ⟨loop, mem, cell, exit, jump, some, reached⟩ := ends
    exact ⟨loop, mem, cell, exit, jump, some, leaps _ _ reached⟩
  | again =>
    obtain ⟨loop, mem, reached⟩ := ends
    obtain ⟨exits, loops⟩ := goes.loops
    rw [loops, List.head?_modifyHead] at mem
    obtain ⟨old, known, rfl⟩ := Option.map_eq_some_iff.mp mem
    exact ⟨old, known, leaps _ _ reached⟩
  | result value => exact ends

/-- What is shown after code that leaves the frame is still between two statements. -/
theorem At.quiet {depth : Int} {final : Shown} (at' : act.At depth shown)
    (quiet : Quiet shown.floor (act.entered.base + act.height) shown final)
    (below : depth ≤ 0) (empty : final.stack = []) : act.At depth final where
  empty := empty
  base := quiet.base.trans at'.base
  floor := by rw [quiet.floor, at'.floor]
  kept place small high region := by
    have floor := at'.floor
    have base := at'.base
    rw [quiet.bytes place (by omega) small (by omega), at'.kept place small high region]

/-- Code that leaves the operand stack and the frame as they were is that of a statement behind
which the next one follows. -/
theorem Acts.of_runs {step : Generate Bool} {eval : Eval Flow} (emits : Emits step)
    (set : act.Set bound)
    (runs : ∀ (gen : Generator) (others : List Nat) (shown : Shown),
      (act.scene gen others).Stands shown.base shown.floor
        (act.entered.base + act.height) → shown.stack = [] →
      (act.scene gen others).Runs bound shown step eval fun halts flow final =>
        halts = false ∧ flow = .next ∧ final.stack = [] ∧
          Quiet shown.floor (act.entered.base + act.height) shown final) :
    act.Acts bound step eval where
  goes _ _ _ done orderly := emits.goes orderly done
  meets gen halts later others done orderly _ complete machine shown starts := by
    obtain ⟨piece, rfl, emitted⟩ := emits done orderly.bounded
    refine (runs gen others shown (starts.at'.stands set orderly others) starts.at'.empty done rfl
      complete starts.shows).mono ?_
    rintro flow _ last ⟨final, shows, rfl, rfl, rfl, empty, quiet⟩
    exact ⟨rfl, final, ⟨shows, starts.at'.quiet quiet orderly.frame empty,
      emitted.live _ starts.live⟩, rfl⟩

end Activation

end TinLang
