import TinLang.Proofs.Generate.BalanceStatement

/-!
# Charts of functions

The code of a function has a chart when its locals fit the immediates. No path falls off its end:
either the last instruction is a return and no jump lands behind it, or one is added.
-/
namespace TinLang

namespace Code

theorem cell_of_instruction? {code : Code} {index : Int} {instr : Instruction}
    (found : code.instruction? index = some instr) :
    ∃ cell : Nat, (cell : Int) = index ∧ code[cell]? = some (.instruction instr) := by
  unfold instruction? cell? at found
  split at found
  · next other there =>
    split at there
    · contradiction
    · exact ⟨index.toNat, by omega, Option.some.inj found ▸ there⟩
  · contradiction

end Code

namespace Piece

variable {piece : Piece} {level : Nat → Int} {holes : List (Nat × Int)}

theorem levelled_empty (name : Text) : Levelled { name } (fun _ => 0) [] where
  start := rfl
  depth := rfl
  formed := Code.wellFormed_empty
  barrier := Nat.le_refl 0
  below _ _ found := by simp at found
  next _ _ _ stands := by simpa using stands.here
  leap _ _ _ stands := by simpa using stands.here
  returns _ _ found := by simp at found
  pointer _ _ found := by simp at found
  hole _ mem := by simp at mem

/-- Behind a return no path goes on, unless a label stands there. -/
theorem sealed_of_lastOp? (levelled : piece.Levelled level holes)
    (last : piece.lastOp? = some .giveBack) (unlabelled : piece.barrier ≠ piece.size) :
    piece.Sealed := by
  refine ⟨Nat.lt_of_le_of_ne levelled.barrier unlabelled, ?_⟩
  obtain ⟨instr, found, op⟩ := Option.map_eq_some_iff.mp last
  have narrow : instr.width = 1 := by rw [Instruction.width, op]; rfl
  -- An immediate at the end would stand behind an instruction that has none.
  have plain : (piece.code.immediate? ((piece.size : Int) - 1)).isSome = false := by
    refine Bool.eq_false_iff.mpr fun imm => ?_
    rw [if_pos imm] at found
    obtain ⟨cell, place, here⟩ := Code.cell_of_instruction? found
    obtain ⟨value, there⟩ := Option.isSome_iff_exists.mp imm
    obtain ⟨other, next⟩ := levelled.formed.behind here (by rw [narrow, ← Piece.size]; omega)
    have same : (piece.size : Int) - 1 = (cell + instr.width : Nat) := by omega
    have natural : ¬ ((cell + instr.width : Nat) : Int) < 0 := by omega
    rw [same, Code.immediate?, Code.cell?, if_neg natural, Int.toNat_natCast, next] at there
    contradiction
  rw [if_neg (by rw [plain]; decide)] at found
  obtain ⟨cell, place, here⟩ := Code.cell_of_instruction? found
  obtain ⟨imm, stands⟩ := levelled.formed.stands here
  exact ⟨cell, instr, imm, stands, by omega, by rw [op]; rfl⟩

end Piece

theorem Environment.frameSize_eq (env : Environment) (function : Function) :
    env.frameSize function = env.roomOfAll function.declaration.body.statements := by
  rw [frameSize]
  cases function.declaration.body
  rfl

namespace Generate

variable {ctx : FunctionContext} {gen : Generator} {hand : Hand}

theorem ends_declareParameters (function : Function) {params : List Parameter}
    (own : ∀ parameter ∈ params, parameter ∈ ctx.function.params)
    (placed : ∀ parameter ∈ params, Placed parameter.type)
    (balanced : gen.Balanced ctx 0 hand) :
    Ends ctx (declareParameters function params) gen fun _ later =>
      gen.Settles ctx hand 0 later ∧ later.piece = gen.piece := by
  induction params generalizing gen with
  | nil => exact ⟨(Generator.Alike.refl gen).settles balanced, rfl⟩
  | cons parameter params ih =>
    have known : (LocalMeaning.variable parameter.type (16 + parameter.offset)).Known ctx :=
      ⟨placed parameter List.mem_cons_self,
        .inr ⟨parameter, own parameter List.mem_cons_self, rfl, rfl⟩⟩
    refine Ends.bind (ends_declare _ _ known balanced) fun _ between ⟨settles, piece⟩ => ?_
    refine (ih (fun other mem => own other (List.mem_cons_of_mem _ mem))
      (fun other mem => placed other (List.mem_cons_of_mem _ mem))
      settles.balanced).mono fun _ later ⟨more, same⟩ => ⟨settles.trans more, same.trans piece⟩

variable (measured : ctx.Measured)

include measured in
theorem turns_initialGlobal (place : Global) (value : Expr) (placed : place.type ≠ .void) :
    Turns ctx 0 (initialGlobal place value) fun _ => 0 := by
  refine .look (turns_setLine _) fun _ _ => turns_wanted measured value place.type _ ?_
  exact .look (turns_setDataAddress (by decide) _) fun _ _ =>
    turns_popTo measured .b 0 ⟨_, rfl, placed⟩

/-- The file that problems are reported in does not matter. -/
theorem balanced_file (balanced : gen.Balanced ctx 0 hand) (file : SourceFile) :
    gen.Settles ctx hand 0 { gen with file } :=
  ⟨⟨balanced.errors, balanced.frame, balanced.loops, balanced.scopes, balanced.depth.imp_right
    fun ⟨right, level, charts⟩ => ⟨right, level, charts.congr rfl rfl⟩⟩,
    (Int.sub_zero _).symm, rfl, .inl ⟨rfl, rfl⟩⟩

include measured in
theorem ends_initialGlobals {places : List Global} (placed : ∀ place ∈ places, place.type ≠ .void)
    (balanced : gen.Balanced ctx 0 hand) :
    Ends ctx (initialGlobals places) gen fun _ later =>
      gen.Settles ctx hand 0 later := by
  induction places generalizing gen with
  | nil => exact (Generator.Alike.refl gen).settles balanced
  | cons place places ih =>
    have rest : ∀ between, gen.Settles ctx hand 0 between →
        Ends ctx (initialGlobals places) between fun _ later =>
          gen.Settles ctx hand 0 later := fun between settles =>
      (ih (fun other mem => placed other (List.mem_cons_of_mem _ mem)) settles.balanced).mono
        fun _ later more => settles.trans more
    unfold initialGlobals
    dsimp only
    cases place.declaration.value with
    | none => exact rest gen ((Generator.Alike.refl gen).settles balanced)
    | some value =>
      refine .get (.modify ?_)
      have turned := balanced_file balanced place.file
      refine Ends.bind ((turns_initialGlobal measured place value
        (placed place List.mem_cons_self)).ends turned.balanced) ?_
      rintro - stored ⟨kept, alike, -⟩
      exact rest _ ((turned.trans (alike.settles kept)).trans (balanced_file kept gen.file))

/-- Without initial values nothing is stored. -/
theorem Ends.noGlobals {β : Type} {places : List Global} {next : Unit → Generate β}
    {ends : β → Generator → Prop} (none : ∀ place ∈ places, place.declaration.value.isNone)
    (later : Ends ctx (next ()) gen ends) :
    Ends ctx (initialGlobals places >>= next) gen ends := by
  have unchanged : initialGlobals places ctx gen = .done ((), gen) := by
    induction places with
    | nil => rfl
    | cons place places ih =>
      unfold initialGlobals
      rw [Option.isNone_iff_eq_none.mp (none place List.mem_cons_self)]
      exact ih fun other mem => none other (List.mem_cons_of_mem _ mem)
  have first : Ends ctx (initialGlobals places) gen fun _ last => last = gen := by
    rw [Ends, unchanged]
    rfl
  exact first.bind fun _ last same => same ▸ later

/-- Every cell has its level, and no path goes past the last cell. -/
def Completed (piece : Piece) : Prop := piece.Sealed ∧ ∃ level, piece.Levelled level []

/-- A generator outside of loops whose depth is that of its frame, which is empty. -/
structure Level (ctx : FunctionContext) (gen : Generator) : Prop where
  balanced : gen.Balanced ctx 0 {}
  frame : gen.frame = 0
  depth : gen.piece.depth = 0
  starts : gen.starts = []
  marked : gen.piece.barrier = gen.landing

theorem Level.charts {ctx : FunctionContext} (even : Level ctx gen) :
    ∃ level, gen.Charts {} level := by
  rcases even.balanced.depth with ⟨-, high⟩ | ⟨-, level, charts⟩
  · have frame := even.frame
    have depth := even.depth
    omega
  · exact ⟨level, charts⟩

/-- Outside of loops every jump has its end. -/
theorem levelled_of_charts {level : Nat → Int} (charts : gen.Charts {} level)
    (starts : gen.starts = []) : gen.piece.Levelled level [] := by
  have loops : gen.loops = [] := List.map_eq_nil_iff.mp starts
  have exits : gen.exits = [] := by rw [Generator.exits, loops]; rfl
  have levelled := charts.levelled
  rwa [exits, List.append_nil] at levelled

theorem Level.setLine {ctx : FunctionContext} (even : Level ctx gen) (number : Int) (text : Text) :
    Level ctx { gen with piece := gen.piece.setLine number text } := by
  have moves := Piece.moves_setLine number text
  exact ⟨even.balanced.change moves rfl, even.frame,
    (moves.depth _).trans ((Int.add_zero _).trans even.depth), even.starts,
    (moves.barrier _).trans even.marked⟩

theorem Ends.needsReturn {β : Type} {next : Bool → Generate β} {ends : β → Generator → Prop}
    (later : Ends ctx (next (decide (gen.piece.lastOp? ≠ some .giveBack) ||
      decide (gen.landing = gen.piece.size))) gen ends) :
    Ends ctx (needsReturn >>= next) gen ends := later

/-- A return is added to code that may go on. -/
theorem ends_giveBack (even : Level ctx gen) (number : Nat) :
    Ends ctx (do
      setLine number
      emit .giveBack .unused .unused
      closeScope) gen fun _ later => Completed later.piece := by
  have even := even.setLine number (gen.file.line number)
  refine .modify (.modify ?_)
  generalize gen.piece.setLine number (gen.file.line number) = piece at even
  obtain ⟨level, charts⟩ := even.charts
  obtain ⟨level', returned⟩ := charts.giveBack even.depth
  have levelled := levelled_of_charts returned even.starts
  refine ⟨?_, level', levelled⟩
  have emitted : (piece.emit ⟨.giveBack, .unused, .unused, 0⟩).1 = piece.extend
      (Instruction.cells ⟨.giveBack, .unused, .unused, 0⟩ 0) [] (piece.depth + 0) :=
    Piece.emit_eq rfl (by simp) (by simp)
  show Piece.Sealed (piece.emit ⟨.giveBack, .unused, .unused, 0⟩).1
  rw [emitted]
  exact Piece.sealed_extend charts.levelled.barrier rfl

include measured in
theorem ends_body {function : Function} (even : Level ctx gen)
    (small : ctx.environment.frameSize function < 2 ^ 31) :
    Ends ctx (do
      let depth := (← get).frame
      let halts ← statements function.declaration.body.statements
      endStatements depth halts
      if ← needsReturn then
        if !function.result.isVoid then
          report function.declaration.span (.missingReturn function.name)
        setLine function.declaration.body.span.stop.line
        emit .giveBack .unused .unused
      closeScope) gen fun _ later => Completed later.piece := by
  have room : (ctx.environment.roomOfAll function.declaration.body.statements : Int) <
      2 ^ 31 + gen.frame := by
    rw [even.frame]
    have body := ctx.environment.frameSize_eq function
    omega
  refine .get (Ends.bind (ends_statements measured _ {} gen even.balanced room) ?_)
  rintro halts done ⟨-, kept, ⟨low, high⟩, proceeds, stopped, leveled⟩
  have frame := even.frame
  have starts := proceeds.starts.trans even.starts
  have loops : done.loops = [] := List.map_eq_nil_iff.mp starts
  refine Ends.bind (ends_endStatements kept high (Int.le_of_eq frame) (by omega)
    (by simp [loops]) stopped) ?_
  rintro - ended ⟨kept, frame', proceeds', -, leveled'⟩
  have even' : Level ctx ended :=
    ⟨kept, frame'.trans frame, (leveled' (leveled (even.depth.trans frame.symm))).trans frame,
      proceeds'.starts.trans starts, proceeds'.marked (proceeds.marked even.marked)⟩
  refine .needsReturn ?_
  cases needed : decide (ended.piece.lastOp? ≠ some .giveBack) ||
      decide (ended.landing = ended.piece.size) with
  | true =>
    rw [if_pos rfl]
    exact .ite (fun _ => .reported) fun _ => ends_giveBack even' _
  | false =>
    rw [if_neg Bool.false_ne_true]
    simp only [Bool.or_eq_false_iff, decide_eq_false_iff_not, Decidable.not_not] at needed
    obtain ⟨last, behind⟩ := needed
    obtain ⟨level, charts⟩ := even'.charts
    have levelled := levelled_of_charts charts even'.starts
    exact ⟨Piece.sealed_of_lastOp? levelled last fun same => behind (even'.marked ▸ same),
      level, levelled⟩

include measured in
theorem ends_function {name : Text} {file : SourceFile}
    (small : ctx.environment.frameSize ctx.function < 2 ^ 31) :
    Ends ctx function { piece := { name }, file } fun _ later => Completed later.piece := by
  have start : Generator.Balanced ctx 0 {}
      { piece := { name }, file, scopes := [[]] } := by
    refine ⟨rfl, Int.le_refl 0, by simp, by simp, .inr ⟨rfl, fun _ => 0, ?_,
          by simp [Generator.starts]⟩⟩
    exact Piece.levelled_empty name
  refine .read (.modify ?_)
  refine Ends.bind (ends_declareParameters _ (fun _ => id) measured.sound.own start) ?_
  rintro - declared ⟨settles, piece⟩
  have even : Level ctx declared :=
    ⟨settles.balanced, settles.same, by rw [piece], settles.proceeds.starts,
      settles.proceeds.marked rfl⟩
  have even := even.setLine ctx.function.declaration.span.start.line
    (declared.file.line ctx.function.declaration.span.start.line)
  refine .modify ?_
  refine .ite (fun main => ?_) fun _ => ends_body measured even small
  refine .environment ?_
  by_cases loose : ctx.Loose
  · exact .noGlobals (loose.1.resolve_left fun other => other main) (ends_body measured even small)
  refine Ends.bind (ends_initialGlobals measured measured.sound.globals even.balanced)
    fun _ stored settles => ends_body measured ?_ small
  have frame := settles.same.trans even.frame
  refine ⟨settles.balanced, frame, ?_, settles.proceeds.starts.trans even.starts,
    settles.proceeds.marked even.marked⟩
  rcases settles.balanced.depth with ⟨may, -⟩ | ⟨depth, -⟩
  · exact absurd may loose
  · omega

end Generate

/-- The code of a function whose locals fit has a chart, as long as nothing is reported. -/
theorem Function.finds_generate {env : Environment} {function : Function}
    (measured : FunctionContext.Measured ⟨env, function⟩)
    (small : env.frameSize function < 2 ^ 31) :
    (function.generate env).Finds Generate.Completed :=
  (Generate.ends_function measured small).andThen fun _ completed => completed

end TinLang
