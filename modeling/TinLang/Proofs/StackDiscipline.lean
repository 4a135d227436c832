import TinLang.Proofs.Generate.BalanceFunction
import TinLang.Proofs.Machine.StackPointer
import TinLang.Proofs.RoundTrip
import TinLang.Semantics.Direct

/-!
# Stack discipline of built programs

In the code of every function that a build links, all paths to a cell have moved the stack pointer
by the same height, no path leaves the instructions, and a return gives back all of the frame. The
charts of the generators show it for the code before linking, and linking fills in only the
immediates of calls, which no path depends on.
-/
namespace TinLang

variable {function : Function} {piece : Piece}

namespace Task

variable {α : Type}

/-- What a task that reports nothing yields. -/
theorem Finds.result {finds : α → Prop} {task : Task α} (found : task.Finds finds) {shared : Shared}
    (quiet : (task.run shared).2.diagnostics = #[]) : finds (task.run shared).1 := by
  induction task generalizing shared with
  | done result => exact found
  | report diagnostic rest =>
    have reported := @clean_of_run _ _
      { shared with diagnostics := shared.diagnostics.push diagnostic } quiet
    simp at reported
  | intern text rest ih => exact ih _ (found _) quiet

/-- Tasks that report nothing each yield what they should. -/
theorem finds_runAll {item : Type} {tasks : item → Task α} {items : List item}
    {yields : item → α → Prop} (each : ∀ item ∈ items, (tasks item).Finds (yields item))
    {shared : Shared} (quiet : (runAll (items.map tasks) shared).2.diagnostics = #[]) :
    List.Forall₂ yields items (runAll (items.map tasks) shared).1 := by
  induction items generalizing shared with
  | nil => exact .nil
  | cons item items ih =>
    have first := (each item List.mem_cons_self).result (clean_of_runAll quiet)
    exact .cons first (ih (fun other mem => each other (List.mem_cons_of_mem _ mem)) quiet)

/-- A task finds what every result finds. -/
theorem Finds.intro {finds : α → Prop} (all : ∀ result, finds result) (task : Task α) :
    task.Finds finds := by
  induction task with
  | done result => exact all result
  | report => trivial
  | intern text rest ih => exact fun offset => ih offset

end Task

/-- The words of values, the argument blocks and the space that a call reserves fit the immediates
that count their bytes. The space is more than the block only by the words of the result; no check
follows the initial values of global variables, so it matters where there are some. -/
structure Environment.Fits (env : Environment) : Prop where
  values : ∀ struct ∈ env.structs, wordSize * struct.shape.leaves < 2 ^ 31
  blocks : ∀ function ∈ env.functions, function.block < 2 ^ 31
  reserves : (∃ place ∈ env.globals, place.declaration.value.isSome) →
    ∀ function ∈ env.functions,
      env.bytesOf (some function.result) + function.block ≤ 2 ^ 31

/-- A value has no more words than those of the largest struct. -/
theorem Environment.Fits.bytesOf_lt {env : Environment} (fits : env.Fits)
    (type : Option ValueType) : env.bytesOf type < 2 ^ 31 := by
  have zero : wordSize * 0 < 2 ^ 31 := by decide
  cases type with
  | none => exact zero
  | some type =>
    rw [Environment.bytesOf_some]
    cases struct : type.structName? with
    | some name =>
      rw [StructTable.leavesOf_of_structName? struct, StructTable.get]
      cases found : env.structs.get? name with
      | none => exact zero
      | some known => exact fits.values known (List.mem_of_find?_eq_some found)
    | none =>
      by_cases nothing : type = .void
      · subst nothing
        exact zero
      · rw [StructTable.leavesOf_of_scalar nothing struct]
        decide

namespace Build

variable {sources : List Source}

/-- The sizes around every function of a program that is built fit. -/
theorem measured_of_built (built : (ofSources sources).failure = none)
    (fits : (Checker.ofFiles (filesOf sources)).environment.Fits)
    (listed : function ∈ (Checker.ofFiles (filesOf sources)).environment.functions) :
    FunctionContext.Measured ⟨(Checker.ofFiles (filesOf sources)).environment, function⟩ := by
  have clean := clean_of_built built
  have settled := (Checker.settled_ofFiles clean).1
  refine ⟨around_ofFiles ((Checker.placed_ofFiles (filesOf sources)).params clean) listed,
    fun name mem inside => ?_, fits.bytesOf_lt, fits.blocks, fun strict called mem => ?_,
    fun main => ?_⟩
  · rw [settled.members name mem inside]
    rfl
  · by_contra large
    have strict := fun loose => strict ⟨loose, called, mem, Nat.lt_of_not_le large⟩
    obtain ⟨-, some⟩ := not_or.mp strict
    exact large (fits.reserves (by simpa [Option.isSome_iff_ne_none] using some) called mem)
  · refine (settled.main function listed main).2.imp_right fun whole => ?_
    rw [whole]
    exact Environment.bytesOf_of_isNumeric rfl

end Build

/-- Linking a piece changes no path. -/
theorem Piece.Sound.charted {prog : Program} {code : Code} {functions : Nat}
    {level : Nat → Int} (sound : piece.Sound functions) (charted : piece.code.Charted level)
    (formed : code.WellFormed)
    (relocated : Program.Relocated prog piece.code piece.relocations code) :
    code.Charted level := by
  refine charted.congr (fun cell instr => relocated.instruction_iff) ?_ ?_
  · intro cell instr found other
    refine relocated.getElem?_eq fun reloc mem same => ?_
    obtain ⟨call, there, op, -⟩ := sound.vacant reloc mem
    rw [same, Nat.add_sub_cancel] at there
    obtain rfl : instr = call := by simpa [found] using there
    exact other op
  · intro cell instr found call
    obtain ⟨imm, stands⟩ := formed.stands (relocated.instruction_iff.mpr found)
    exact ⟨imm, stands.operand (by rw [call]; rfl)⟩

/-- The linked code of every function of a program that is built has a chart. -/
theorem Build.charted_of_built {sources : List Source}
    (built : (ofSources sources).failure = none)
    (fits : (Checker.ofFiles (filesOf sources)).environment.Fits) {index : Nat}
    (declared : (Checker.ofFiles (filesOf sources)).environment.functions[index]? = some function)
    (linked : (ofSources sources).program.pieces[index]? = some piece)
    (frame : (Checker.ofFiles (filesOf sources)).environment.frameSize function < 2 ^ 31)
    (cells : piece.size < 2 ^ 31) : ∃ level, piece.code.Charted level := by
  have each : ∀ function ∈ (Checker.ofFiles (filesOf sources)).environment.functions,
      (function.generate (Checker.ofFiles (filesOf sources)).environment).Finds fun piece =>
        (Checker.ofFiles (filesOf sources)).environment.frameSize function < 2 ^ 31 →
          Generate.Completed piece := by
    intro function listed
    by_cases small : (Checker.ofFiles (filesOf sources)).environment.frameSize function < 2 ^ 31
    · exact (Function.finds_generate (measured_of_built built fits listed) small).mono
        fun _ completed _ => completed
    · exact .intro (fun _ other => absurd other small) _
  have generated := Task.finds_runAll each (quiet_of_built built)
  obtain ⟨_, _, _, pieces, relocated⟩ := Program.link_eq (link_of_built built)
  rw [pieces, Array.getElem?_map, Option.map_eq_some_iff] at linked
  obtain ⟨before, found, rfl⟩ := linked
  have there : (Task.runAll (tasks (Checker.ofFiles (filesOf sources)).environment)
      (checked (Checker.ofFiles (filesOf sources)))).1[index]? = some before := by
    simpa [unlinked] using found
  have mem := Array.mem_of_getElem? found
  have filled := relocated before mem
  obtain ⟨sealed', level, levelled⟩ : Generate.Completed before := by
    obtain ⟨inside, rfl⟩ := List.getElem?_eq_some_iff.mp declared
    obtain ⟨inside', rfl⟩ := List.getElem?_eq_some_iff.mp there
    exact generated.get inside inside' frame
  have small : before.size < 2 ^ 31 := by
    rw [Piece.size, ← filled.size_eq]
    exact cells
  exact ⟨level, (sound_unlinked built before mem).2.1.charted
    (levelled.charted sealed' small) (filled.wellFormed levelled.formed) filled⟩

/-- A source with a call in the initial value of a global variable, and a loop that is left and
begun again from bodies with locals. -/
def Build.climbing : List Source :=
  [⟨"climb.tin", "global start: int = twice(4);\nfun twice(n: int): int \x7b return n + n; \x7d\n" ++
    "fun main(): int \x7b\n  sum: int = start;\n  while sum < 99 \x7b\n    step: int = 3;\n" ++
    "    if step < sum \x7b far: int = 7; sum = sum + far; continue; \x7d\n" ++
    "    if sum == step \x7b break; \x7d\n    sum = sum + step;\n  \x7d\n  return sum;\n\x7d\n"⟩]

/-- The text of a struct that holds eight of the one before it and one of the first. -/
def Build.storey (below : Nat) : Text :=
  Text.join [65 + below.toUInt8] [Text.join [66 + below.toUInt8] ["struct ", " \x7ba:"], ";b:",
    ";c:", ";d:", ";e:",
    ";f:", ";g:", ";h:", ";i:A;\x7d\n"]

/-- A source with a variable of a struct of 2 ^ 64 - 16 characters, a size that wraps around. -/
def Build.towering : List Source :=
  [⟨"tower.tin", Text.join [] ["struct Y \x7ba:char;b:char;c:char;d:char;\x7d\nstruct Z \x7ba:Y;b:Y;c:Y;d:Y;\x7d\n",
    "struct A \x7ba:Z;b:Z;c:Z;d:Z;e:Z;f:Z;g:Z;\x7d\n", (List.range 19).flatMap storey, "fun main() \x7b top: T; \x7d\n"]⟩]

/-- The variable takes -8 bytes of the frame, so that main moves the stack pointer up. -/
theorem Build.towering_built :
    (ofSources towering).failure = none ∧ (∀ file ∈ (ofSources towering).files, file.isDirect) ∧
    (ofSources towering).program.data.size = 0 ∧
    ((ofSources towering).environment.map fun env => env.functions.map fun function =>
      (function.name, function.block, wrapSigned (env.frameSize function))) =
        some [(("main" : Text), 0, -8)] ∧
    ((ofSources towering).program.pieces.map fun piece => (piece.size, piece.code.take 3)) =
      #[(11, #[.instruction ⟨.increase, .stackPointer, .unused, 0⟩, .immediate 8,
        .instruction ⟨.move, .b, .basePointer, 0⟩])] ∧
    ((Machine.start? (ofSources towering).program {} {}).toOption.map fun start =>
      (start.outcome (ofSources towering).program {} 2).2) =
      some (some (.fault ⟨.pointerAbove 0x20008, "main", 0,
        some ⟨23, "fun main() \x7b top: T; \x7d"⟩⟩)) := by
  decide +kernel

end TinLang
