import TinLang.Proofs.Simulation.Programs

/-!
# What built programs mean

A program without pointers that is built runs as its sources say, as far as its stack reaches.
Whatever else there is in it, a run of it stops safely; and where everything is an integer, the run
ends exactly as the evaluation of the program does.
-/
namespace TinLang

theorem TypeExpr.isDirect_of_isInteger {type : TypeExpr} (integer : type.isInteger) :
    type.isDirect :=
  (Bool.and_eq_true_iff.mp integer).2

theorem Expr.isPlace_of_isName {value : Expr} (named : value.isName) : value.isPlace := by
  cases value with
  | name => rfl
  | _ => cases named

/-- A literal of an integer is no pointer. -/
theorem Expr.isDirect_of_literalType? {value : Expr} (integer : value.literalType? = some .int) :
    value.isDirect := by
  unfold Expr.literalType? at integer
  split at integer <;> first | rfl | cases integer

mutual

theorem Expr.isDirect_of_isIntegral {value : Expr} (integral : value.isIntegral) :
    value.isDirect := by
  cases value with
  | int | bool | name => rfl
  | float | string | character | null | index | member | cast | sizeof => cases integral
  | call _ callee arguments =>
    obtain ⟨prints, others⟩ := Bool.and_eq_true_iff.mp integral
    refine Bool.and_eq_true_iff.mpr ⟨?_, isDirectAll_of_isIntegralAll others⟩
    cases known : Native.ofName? callee with
    | none => rfl
    | some native =>
      rw [known] at prints
      rw [beq_iff_eq.mp prints]
      rfl
  | binary _ _ left right =>
    obtain ⟨first, second⟩ := Bool.and_eq_true_iff.mp integral
    exact Bool.and_eq_true_iff.mpr ⟨Expr.isDirect_of_isIntegral first, Expr.isDirect_of_isIntegral
      second⟩
  | unary _ op operand =>
    obtain ⟨plain, inner⟩ := Bool.and_eq_true_iff.mp integral
    exact Bool.and_eq_true_iff.mpr ⟨plain, Expr.isDirect_of_isIntegral inner⟩
  | step _ _ _ operand => exact @Expr.isPlace_of_isName operand integral
  | assign _ target value =>
    obtain ⟨named, inner⟩ := Bool.and_eq_true_iff.mp integral
    exact Bool.and_eq_true_iff.mpr ⟨Expr.isPlace_of_isName named, Expr.isDirect_of_isIntegral inner⟩

theorem isDirectAll_of_isIntegralAll {values : List Expr} (integral : isIntegralAll values) :
    isDirectAll values := by
  cases values with
  | nil => rfl
  | cons value values =>
    obtain ⟨first, others⟩ := Bool.and_eq_true_iff.mp integral
    exact Bool.and_eq_true_iff.mpr ⟨Expr.isDirect_of_isIntegral first, isDirectAll_of_isIntegralAll
      others⟩

end

theorem Expr.all_isDirect_of_isIntegral {value : Option Expr}
    (integral : value.all Expr.isIntegral) :
    value.all Expr.isDirect := by
  cases value with
  | none => rfl
  | some value => exact Expr.isDirect_of_isIntegral integral

theorem TypeExpr.all_isDirect_of_isInteger {type : Option TypeExpr}
    (integer : type.all TypeExpr.isInteger) :
    type.all TypeExpr.isDirect := by
  cases type with
  | none => rfl
  | some type => exact TypeExpr.isDirect_of_isInteger integer

theorem ConstDecl.isDirect_of_isIntegral {decl : ConstDecl} (integral : decl.isIntegral) :
    decl.isDirect := by
  obtain ⟨literal, integer⟩ := Bool.and_eq_true_iff.mp integral
  exact Bool.and_eq_true_iff.mpr ⟨Expr.isDirect_of_literalType? (beq_iff_eq.mp literal),
    TypeExpr.all_isDirect_of_isInteger integer⟩

mutual

theorem Stmt.isDirect_of_isIntegral {statement : Stmt} (integral : statement.isIntegral) :
    statement.isDirect := by
  cases statement with
  | declare =>
    obtain ⟨integer, value⟩ := Bool.and_eq_true_iff.mp integral
    exact Bool.and_eq_true_iff.mpr ⟨TypeExpr.isDirect_of_isInteger integer,
      Expr.all_isDirect_of_isIntegral value⟩
  | constant => exact ConstDecl.isDirect_of_isIntegral integral
  | evaluate => exact Expr.isDirect_of_isIntegral integral
  | branch =>
    obtain ⟨both, otherwise⟩ := Bool.and_eq_true_iff.mp integral
    obtain ⟨condition, body⟩ := Bool.and_eq_true_iff.mp both
    exact Bool.and_eq_true_iff.mpr ⟨Bool.and_eq_true_iff.mpr ⟨Expr.isDirect_of_isIntegral condition,
      Block.isDirect_of_isIntegral body⟩, isDirectOtherwise_of_isIntegralOtherwise otherwise⟩
  | loop =>
    obtain ⟨condition, body⟩ := Bool.and_eq_true_iff.mp integral
    exact Bool.and_eq_true_iff.mpr ⟨Expr.isDirect_of_isIntegral condition,
      Block.isDirect_of_isIntegral body⟩
  | leave | again => rfl
  | result => exact Expr.all_isDirect_of_isIntegral integral
  | block body => exact @Block.isDirect_of_isIntegral body integral

theorem isDirectOtherwise_of_isIntegralOtherwise {other : Option Stmt}
    (integral : isIntegralOtherwise other) :
    isDirectOtherwise other := by
  cases other with
  | none => rfl
  | some statement =>
    obtain ⟨alternative, inner⟩ := Bool.and_eq_true_iff.mp integral
    exact Bool.and_eq_true_iff.mpr ⟨alternative, Stmt.isDirect_of_isIntegral inner⟩

theorem Block.isDirect_of_isIntegral {block : Block} (integral : block.isIntegral) :
    block.isDirect := by
  cases block with
  | mk _ body => exact @isDirectStatements_of_isIntegralStatements body integral

theorem isDirectStatements_of_isIntegralStatements {body : List Stmt}
    (integral : isIntegralStatements body) :
    isDirectStatements body := by
  cases body with
  | nil => rfl
  | cons first rest =>
    obtain ⟨one, others⟩ := Bool.and_eq_true_iff.mp integral
    exact Bool.and_eq_true_iff.mpr ⟨Stmt.isDirect_of_isIntegral one,
      isDirectStatements_of_isIntegralStatements others⟩

end

/-- What a file of integers says of its declarations. -/
structure SourceFile.Integral (file : SourceFile) : Prop where
  structs : file.structs = []
  params : ∀ function ∈ file.funcs, ∀ param ∈ function.params, param.type.isInteger
  results : ∀ function ∈ file.funcs, ∀ type ∈ function.result, type.isInteger
  globals : ∀ place ∈ file.globals, place.type.isInteger

namespace SourceFile

variable {file : SourceFile}

theorem integral_of_isIntegral (integral : file.isIntegral) : file.Integral := by
  simp only [isIntegral, Bool.and_eq_true, List.all_eq_true, List.isEmpty_iff] at integral
  obtain ⟨⟨⟨structs, funcs⟩, globals⟩, -⟩ := integral
  refine ⟨structs, fun function listed => (funcs function listed).1.1,
    fun function listed type written => ?_,
    fun place listed => (globals place listed).1⟩
  have integer := (funcs function listed).1.2
  rwa [Option.mem_def.mp written] at integer

theorem isDirect_of_isIntegral (integral : file.isIntegral) : file.isDirect := by
  have empty := (integral_of_isIntegral integral).structs
  simp only [isIntegral, Bool.and_eq_true, List.all_eq_true] at integral
  obtain ⟨⟨⟨-, funcs⟩, globals⟩, consts⟩ := integral
  simp only [isDirect, Bool.and_eq_true, List.all_eq_true, empty]
  refine ⟨⟨⟨fun _ listed => absurd listed List.not_mem_nil, fun function listed => ?_⟩,
    fun place listed => ?_⟩, fun constant listed => ?_⟩
  · obtain ⟨⟨params, result⟩, body⟩ := funcs function listed
    exact ⟨⟨fun param inside => TypeExpr.isDirect_of_isInteger (params param inside),
      TypeExpr.all_isDirect_of_isInteger result⟩, Block.isDirect_of_isIntegral body⟩
  · obtain ⟨integer, value⟩ := globals place listed
    exact ⟨TypeExpr.isDirect_of_isInteger integer, Expr.all_isDirect_of_isIntegral value⟩
  · exact ConstDecl.isDirect_of_isIntegral (consts constant listed)

end SourceFile

namespace Check

/-- Files without structs have none to lay out. -/
theorem structs_of_structless {files : List SourceFile} (none : ∀ file ∈ files, file.structs = []) :
    (structs files).run {} = ((), {}) := by
  have entered : (files.forM fun file => file.structs.forM (enterStruct file.name)) =
    (pure () : Check Unit) := by
    induction files with
    | nil => rfl
    | cons file files ih =>
      have rest := ih fun other mem => none other (List.mem_cons_of_mem _ mem)
      rw [List.forM, none file List.mem_cons_self, rest]
      rfl
  rw [structs, entered]
  rfl

end Check

namespace Checker

variable {files : List SourceFile} (integral : ∀ file ∈ files, file.isIntegral)

include integral

theorem structs_of_isIntegral : (ofFiles files).environment.structs = [] := by
  rw [(rested_ofFiles files).structs, Check.structs_of_structless fun file known =>
    (SourceFile.integral_of_isIntegral (integral file known)).structs]

/-- A value of a program of integers takes one word at most. -/
theorem bytesOf_of_isIntegral (type : Option ValueType) : (ofFiles files).environment.bytesOf type ≤
    wordSize := by
  refine Nat.mul_le_mul_left wordSize (?_ : _ ≤ 1)
  cases type with
  | none => exact Nat.zero_le 1
  | some type =>
    show (ofFiles files).environment.structs.leavesOf type ≤ 1
    cases struct : type.structName? with
    | some name =>
      rw [StructTable.leavesOf_of_structName? struct, structs_of_isIntegral integral]
      exact Nat.zero_le 1
    | none =>
      by_cases nothing : type = .void
      · subst nothing
        exact Nat.zero_le 1
      · exact Nat.le_of_eq (StructTable.leavesOf_of_scalar nothing struct)

end Checker

namespace Build

variable {sources : List Source}

/-- A source with structs in structs that are passed and returned by value, numbers of all types,
and natives. -/
def wandering : List Source :=
  [⟨"wander.tin", "struct Step \x7b far: float; mark: char; \x7d\nstruct Walk \x7b last: Step; count: int; \x7d\n" ++
    "global walked: Walk;\nfun go(walk: Walk, far: float): Walk \x7b\n  walk.last.far = sqrt(walk.last.far + far);\n" ++
    "  walk.last.mark = 'x';\n  walk.count++;\n  if walk.count < 4 \x7b return go(walk, far); \x7d\n  return walk;\n\x7d\n" ++
    "fun main() \x7b\n  walked = go(walked, 2.5);\n  printi(9 / (4 - walked.count));\n  printc(walked.last.mark);\n\x7d\n"⟩]

/-- The sizes in a program of integers fit their immediates if its argument blocks and its frames
do: an argument block is of whole words, so there is always room for the word of the result. -/
theorem sized_of_isIntegral (built : (ofSources sources).failure = none)
    (integral : ∀ file ∈ filesOf sources, file.isIntegral)
    (blocks : ∀ function ∈ (Checker.ofFiles (filesOf sources)).environment.functions,
      function.block < 2 ^ 31)
    (frames : ∀ function ∈ (Checker.ofFiles (filesOf sources)).environment.functions,
      (Checker.ofFiles (filesOf sources)).environment.frameSize function < 2 ^ 31) :
    (Checker.ofFiles (filesOf sources)).environment.Sized := by
  have calls : ∀ function ∈ (Checker.ofFiles (filesOf sources)).environment.functions,
      (Checker.ofFiles (filesOf sources)).environment.bytesOf (some function.result) +
        function.block ≤ 2 ^ 31 := by
    intro function listed
    have one := Checker.bytesOf_of_isIntegral integral (some function.result)
    have words := (Checker.settled_ofFiles (clean_of_built built)).1.words function listed
    have small := blocks function listed
    unfold wordSize at one
    omega
  refine ⟨⟨fun struct listed => ?_, blocks, fun _ => calls⟩, calls, frames⟩
  rw [Checker.structs_of_isIntegral integral] at listed
  cases listed

/-- A program of integers that is built runs as its sources say, however large its stack is: unless
the stack overflows, the run ends just when the evaluation of the program ends, with the same
output, and with the value that main returns or with a division by zero. -/
theorem endsAs_of_isIntegral (built : (ofSources sources).failure = none)
    (integral : ∀ file ∈ filesOf sources, file.isIntegral)
    (blocks : ∀ function ∈ (Checker.ofFiles (filesOf sources)).environment.functions,
      function.block < 2 ^ 31)
    (frames : ∀ function ∈ (Checker.ofFiles (filesOf sources)).environment.functions,
      (Checker.ofFiles (filesOf sources)).environment.frameSize function < 2 ^ 31)
    (numbered : (ofSources sources).program.Numbered) {main : Function}
    (declared : main ∈ (Checker.ofFiles (filesOf sources)).environment.functions)
    (named : main.name = "main")
    {settings : Settings} (unlimited : settings.maxSteps = 0) (files : FileSystem) :
    ∃ start, Machine.start? (ofSources sources).program settings files = .ok start ∧
      (start.Overruns (ofSources sources).program settings ∨
        start.EndsAs (ofSources sources).program settings
          (Checker.ofFiles (filesOf sources)).environment main) := by
  have direct := fun file known => SourceFile.isDirect_of_isIntegral (integral file known)
  obtain ⟨start, entry, meets⟩ := meets_start built direct (sized_of_isIntegral built integral
    blocks frames)
    numbered declared named settings files
  exact ⟨start, entry, Machine.endsAs_of_meets unlimited meets⟩

/-- The program that climbs has only integers. -/
theorem endsAs_of_isIntegral_climbing :
    (ofSources climbing).failure = none ∧ (∀ file ∈ filesOf climbing, file.isIntegral) ∧
    (ofSources climbing).program.Numbered ∧
    ∃ main ∈ (Checker.ofFiles (filesOf climbing)).environment.functions, main.name = "main" ∧
      ∃ start, Machine.start? (ofSources climbing).program {} {} = .ok start ∧
        (start.Overruns (ofSources climbing).program {} ∨
          start.EndsAs (ofSources climbing).program {}
            (Checker.ofFiles (filesOf climbing)).environment main) := by
  have known : (ofSources climbing).failure = none ∧ (∀ file ∈ filesOf climbing, file.isIntegral) ∧
      (∀ function ∈ (Checker.ofFiles (filesOf climbing)).environment.functions,
        function.block < 2 ^ 31) ∧
      (∀ function ∈ (Checker.ofFiles (filesOf climbing)).environment.functions,
        (Checker.ofFiles (filesOf climbing)).environment.frameSize function < 2 ^ 31) ∧
      ((ofSources climbing).program.pieces.size < 2 ^ 31 ∧
        (∀ piece ∈ (ofSources climbing).program.pieces, piece.size < 2 ^ 31) ∧
        (ofSources climbing).program.data.size < 2 ^ 31) ∧
      ∃ main ∈ (Checker.ofFiles (filesOf climbing)).environment.functions, main.name = "main" := by
    decide +kernel
  obtain ⟨built, integral, blocks, frames, ⟨pieces, cells, data⟩, main, declared, named⟩ := known
  exact ⟨built, integral, ⟨pieces, cells, data⟩, main, declared, named,
    endsAs_of_isIntegral built integral blocks frames ⟨pieces, cells, data⟩ declared named rfl {}⟩

end Build

end TinLang
