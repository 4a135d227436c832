import TinLang.Proofs.DepthChecks
import TinLang.Proofs.Simulation.Endings
import TinLang.Proofs.Simulation.Functions

/-!
# Programs that are built

A build of sources without pointers
generates the code of each function without storing anything, and links it: the code that runs
completes the code that was generated. The global variables lie apart in the data segment, which is
zero at first. So a machine at the start of main meets the evaluation of the program.
-/
namespace TinLang

/-- A task that stores nothing and reports nothing is at its end. -/
theorem Task.Does.finds_done {α : Type} {reports : Diagnostic → Prop} {stores : Text → Prop}
    {yields : α → Prop} {task : Task α} (does : task.Does reports stores yields)
    (silent : ∀ text, ¬ stores text) : task.Finds fun result => task = .done result := by
  cases does with
  | done => exact rfl
  | report => trivial
  | intern stored => exact absurd stored (silent _)

/-- Linked code completes the code that was generated. -/
theorem Program.Relocated.completes {prog : Program} {piece : Piece} {code : Code} {functions : Nat}
    (relocated : Relocated prog piece.code piece.relocations code) (sound : piece.Sound functions)
    (targets : prog.TargetsPieces) : piece.Completes code [] where
  cells index _ := by
    by_cases named : ∃ reloc ∈ piece.relocations, reloc.cell = index
    · obtain ⟨reloc, mem, rfl⟩ := named
      exact .inr (.inr (sound.vacant reloc mem))
    · exact .inl (relocated.getElem?_eq fun reloc mem same => named ⟨reloc, mem, same⟩)
  calls reloc mem target named := by
    obtain ⟨last, listed, same, id, resolved, filled⟩ := relocated.filled mem
    obtain rfl : last = reloc := List.inj_on_of_nodup_map sound.distinct listed mem same
    obtain ⟨index, which, rfl, -⟩ := Program.resolve_eq targets resolved
    obtain rfl : index = target := Option.some.inj (which.symm.trans named)
    rw [filled, show ((index : Int) + 1) = ((index + 1 : Nat) : Int) from rfl, BitVec.ofInt_natCast]

theorem Expr.strings_of_isPlace {place : Expr} (direct : place.isPlace) : place.strings = [] := by
  induction place using Expr.isPlace.induct with
  | case1 => rfl
  | case2 _ object _ ih => exact ih direct
  | case3 place name mem => exact absurd direct (Expr.not_isPlace name mem)

mutual

/-- An expression that has nothing to do with pointers holds no string. -/
theorem Expr.strings_of_isDirect {value : Expr} (direct : value.isDirect) : value.strings = [] := by
  cases value with
  | int | float | character | bool | name | null | sizeof => rfl
  | string | index => cases direct
  | call _ _ arguments => exact strings_of_isDirectAll (Bool.and_eq_true_iff.mp direct).2
  | binary _ _ left right =>
    obtain ⟨first, second⟩ := Bool.and_eq_true_iff.mp direct
    rw [Expr.strings, Expr.strings_of_isDirect first, Expr.strings_of_isDirect second]
    rfl
  | unary _ _ operand => exact @Expr.strings_of_isDirect operand (Bool.and_eq_true_iff.mp direct).2
  | step _ _ _ operand => exact @Expr.strings_of_isPlace operand direct
  | assign _ target value =>
    obtain ⟨first, second⟩ := Bool.and_eq_true_iff.mp direct
    rw [Expr.strings, Expr.strings_of_isPlace first, Expr.strings_of_isDirect second]
    rfl
  | member _ object _ => exact @Expr.strings_of_isDirect object direct
  | cast _ _ value => exact @Expr.strings_of_isDirect value (Bool.and_eq_true_iff.mp direct).2

theorem strings_of_isDirectAll {values : List Expr} (direct : isDirectAll values) :
    Expr.stringsOfAll values = [] := by
  cases values with
  | nil => rfl
  | cons value values =>
    obtain ⟨first, second⟩ := Bool.and_eq_true_iff.mp direct
    rw [Expr.stringsOfAll, Expr.strings_of_isDirect first, strings_of_isDirectAll second]
    rfl

end

theorem Expr.stringsOf?_of_isDirect {value : Option Expr} (direct : value.all Expr.isDirect) :
    Expr.stringsOf? value = [] := by
  cases value with
  | none => rfl
  | some value => exact Expr.strings_of_isDirect direct

mutual

theorem Stmt.strings_of_isDirect {statement : Stmt} (direct : statement.isDirect) :
    statement.strings = [] := by
  cases statement with
  | declare _ _ _ value => exact Expr.stringsOf?_of_isDirect (Bool.and_eq_true_iff.mp direct).2
  | constant => exact Expr.strings_of_isDirect (Bool.and_eq_true_iff.mp direct).1
  | evaluate => exact Expr.strings_of_isDirect direct
  | branch _ condition body otherwise =>
    obtain ⟨both, third⟩ := Bool.and_eq_true_iff.mp direct
    obtain ⟨first, second⟩ := Bool.and_eq_true_iff.mp both
    rw [Stmt.strings, Expr.strings_of_isDirect first, Block.strings_of_isDirect second,
      strings_of_isDirectOtherwise third]
    rfl
  | loop _ condition body =>
    obtain ⟨first, second⟩ := Bool.and_eq_true_iff.mp direct
    rw [Stmt.strings, Expr.strings_of_isDirect first, Block.strings_of_isDirect second]
    rfl
  | leave | again => rfl
  | result _ value => exact Expr.stringsOf?_of_isDirect direct
  | block body => exact @Block.strings_of_isDirect body direct

theorem strings_of_isDirectOtherwise {other : Option Stmt} (direct : isDirectOtherwise other) :
    stringsOfOtherwise other = [] := by
  cases other with
  | none => rfl
  | some statement => exact Stmt.strings_of_isDirect (Bool.and_eq_true_iff.mp direct).2

theorem Block.strings_of_isDirect {block : Block} (direct : block.isDirect) :
    block.strings = [] := by
  cases block with
  | mk _ body => exact @strings_of_isDirectStatements body direct

theorem strings_of_isDirectStatements {body : List Stmt} (direct : isDirectStatements body) :
    stringsOfStatements body = [] := by
  cases body with
  | nil => rfl
  | cons first rest =>
    obtain ⟨one, others⟩ := Bool.and_eq_true_iff.mp direct
    rw [stringsOfStatements, Stmt.strings_of_isDirect one, strings_of_isDirectStatements others]
    rfl

end

/-- The numbers of a program's pieces, their cells and the bytes of its data segment fit the
immediates that hold them. -/
structure Program.Numbered (prog : Program) : Prop where
  pieces : prog.pieces.size < 2 ^ 31
  cells : ∀ piece ∈ prog.pieces, piece.size < 2 ^ 31
  data : prog.data.size < 2 ^ 31

namespace Build

variable {sources : List Source}

/-- The code of a function of a program without string literals that is built is generated without a
pause, and completed by the linker. -/
theorem completes_of_built (built : (ofSources sources).failure = none)
    (silent : ∀ text, ¬ LiteralOf (filesOf sources) text)
    (numbered : (ofSources sources).program.Numbered) {index : Nat} {function : Function}
    (declared : (Checker.ofFiles (filesOf sources)).environment.functions[index]? = some function) :
    ∃ piece linked,
      function.generate (Checker.ofFiles (filesOf sources)).environment = .done piece ∧
      (ofSources sources).program.pieces[index]? = some linked ∧ linked.name = function.name ∧
      linked.size = piece.size ∧ piece.Completes linked.code [] := by
  have each : ∀ function ∈ (Checker.ofFiles (filesOf sources)).environment.functions,
      (function.generate (Checker.ofFiles (filesOf sources)).environment).Finds fun piece =>
        function.generate (Checker.ofFiles (filesOf sources)).environment = .done piece :=
    fun function listed => (does_generate listed).finds_done silent
  have generated : List.Forall₂ (fun function piece =>
        function.generate (Checker.ofFiles (filesOf sources)).environment = .done piece)
      (Checker.ofFiles (filesOf sources)).environment.functions
      (Task.runAll (tasks (Checker.ofFiles (filesOf sources)).environment)
        (checked (Checker.ofFiles (filesOf sources)))).1 :=
    Task.finds_runAll each (quiet_of_built built)
  have sound := (runAll_tasks (filesOf sources)).1
  obtain ⟨-, -, -, pieces, relocated⟩ := Program.link_eq (link_of_built built)
  have few : (unlinked (filesOf sources)).pieces.size < 2 ^ 31 := by
    have small := numbered.pieces
    rwa [pieces, Array.size_map] at small
  obtain ⟨inside, rfl⟩ := List.getElem?_eq_some_iff.mp declared
  have inside' := generated.length_eq ▸ inside
  have found : (unlinked (filesOf sources)).pieces[index]? = some (Task.runAll
      (tasks (Checker.ofFiles (filesOf sources)).environment)
      (checked (Checker.ofFiles (filesOf sources)))).1[index] := by
    show (List.toArray _)[index]? = _
    rw [List.getElem?_toArray, List.getElem?_eq_getElem inside']
  obtain ⟨whole, named⟩ := sound.get inside inside'
  refine ⟨_, { ((unlinked (filesOf sources)).linkPiece _).1 with relocations := [] },
    generated.get inside inside', ?_, named, (relocated _ (Array.mem_of_getElem? found)).size_eq,
    (relocated _ (Array.mem_of_getElem? found)).completes whole.1 (targetsPieces_unlinked few)⟩
  rw [pieces, Array.getElem?_map, found]
  rfl

end Build

theorem SourceFile.literalless {files : List SourceFile} (direct : ∀ file ∈ files, file.isDirect)
    (text : Text) :
    ¬ LiteralOf files text := by
  rintro ⟨file, known, inside⟩
  have parts := direct file known
  simp only [SourceFile.isDirect, Bool.and_eq_true, List.all_eq_true] at parts
  obtain ⟨⟨⟨-, funcs⟩, globals⟩, consts⟩ := parts
  simp only [SourceFile.strings, List.mem_append, List.mem_flatMap] at inside
  obtain (⟨decl, listed, held⟩ | ⟨decl, listed, held⟩) | ⟨decl, listed, held⟩ := inside
  · rw [Expr.strings_of_isDirect (Bool.and_eq_true_iff.mp (consts decl listed)).1] at held
    cases held
  · rw [Expr.stringsOf?_of_isDirect (globals decl listed).2] at held
    cases held
  · rw [Block.strings_of_isDirect (funcs decl listed).2] at held
    cases held

/-- Types without pointers. -/
def Kinds.direct : Kinds where
  written type := type.isDirect
  kind type := type.pointer = 0
  resolves _ _ _ plain resolved :=
    (Environment.pointer_of_resolve? resolved).trans (beq_iff_eq.mp plain)

theorem SourceFile.writes_of_isDirect {file : SourceFile} (direct : file.isDirect) :
    file.Writes .direct := by
  simp only [SourceFile.isDirect, Bool.and_eq_true, List.all_eq_true] at direct
  obtain ⟨⟨⟨structs, funcs⟩, globals⟩, -⟩ := direct
  exact ⟨structs, fun function listed => (funcs function listed).1.1,
    fun function listed type written => by
      have plain := (funcs function listed).1.2
      rwa [Option.mem_def.mp written] at plain,
    fun place listed => (globals place listed).1⟩

namespace Checker

variable {files : List SourceFile}

theorem placed_of_isDirect (direct : ∀ file ∈ files, file.isDirect) :
    (ofFiles files).Placed .direct :=
  placed_of_writes fun file known => SourceFile.writes_of_isDirect (direct file known)

/-- Nothing that the files declare is a pointer. -/
theorem direct_ofFiles (clean : (ofFiles files).problems = #[])
    (direct : ∀ file ∈ files, file.isDirect)
    (sized : (ofFiles files).environment.Sized) : (ofFiles files).environment.Direct where
  ready := ready_ofFiles clean
  members := StructTable.members_get (placed_of_isDirect direct).members
  params := (placed_of_isDirect direct).inputs
  results function listed :=
    ((placed_of_isDirect direct).results function listed).elim (fun void => void ▸ rfl) id
  values := sized.bytesOf_lt
  calls := sized.calls

/-- The global variables lie apart in the data segment, and the constants are literals. -/
theorem houses_ofFiles (clean : (ofFiles files).problems = #[])
    (direct : ∀ file ∈ files, file.isDirect) :
    (ofFiles files).environment.Houses (ofFiles files).program.data.size := by
  obtain ⟨-, stored⟩ := settled_ofFiles clean
  have placed : ∀ entry ∈ (ofFiles files).environment.referents, ∀ (addr : Int) type,
      entry.2 = .place addr type → ∃ place ∈ (ofFiles files).environment.globals,
        addr = Memory.dataBase + place.offset ∧ type = place.type := by
    intro entry mem addr type stands
    rcases List.mem_append.mp mem with inside | inside <;>
      obtain ⟨found, listed, rfl⟩ := List.mem_map.mp inside
    · obtain ⟨rfl, rfl⟩ := Referent.place.inj stands
      exact ⟨found, listed, rfl, rfl⟩
    · cases stands
  have apart := List.pairwise_map.mp stored.pairwise
  refine ⟨⟨fun entry mem addr type stands => ?_, ?_⟩, fun entry mem => ?_,
    fun entry mem addr type stands => ?_⟩
  · obtain ⟨place, listed, rfl, rfl⟩ := placed entry mem addr type stands
    exact ⟨(ready_ofFiles clean).globals place listed, by omega⟩
  · refine List.pairwise_append.mpr ⟨List.pairwise_map.mpr
      (apart.imp fun {first second} before addr type
      other kind stands stands' => ?_), List.pairwise_map.mpr (List.pairwise_of_forall_mem_list
        fun _ _ _ _ _ _ _ _ stands => by cases stands),
      fun entry _ other mem addr type place kind _ stands => ?_⟩
    · obtain ⟨rfl, rfl⟩ := Referent.place.inj stands
      obtain ⟨rfl, rfl⟩ := Referent.place.inj stands'
      dsimp only at before
      omega
    · obtain ⟨constant, -, rfl⟩ := List.mem_map.mp mem
      cases stands
  · rcases List.mem_append.mp mem with inside | inside <;>
      obtain ⟨found, listed, rfl⟩ := List.mem_map.mp inside
    · exact ((placed_of_isDirect direct).globals found listed).2
    · obtain ⟨file, known, decl, declared, same⟩ := (sound_ofFiles files).constants found listed
      refine Expr.ofLiteral?_isSome ((placed_ofFiles files).constants found listed) ?_
      have parts := direct file known
      simp only [SourceFile.isDirect, Bool.and_eq_true, List.all_eq_true] at parts
      rw [same]
      exact (Bool.and_eq_true_iff.mp (parts.2 decl declared)).1
  · obtain ⟨place, listed, rfl, rfl⟩ := placed entry mem addr type stands
    have bounds := stored.mem (List.mem_map_of_mem listed)
    dsimp only at bounds
    omega

/-- A name is that of one global variable at most. -/
theorem global?_of_mem (clean : (ofFiles files).problems = #[]) {place : Global}
    (listed : place ∈ (ofFiles files).environment.globals) :
    (ofFiles files).environment.global? place.name = some place := by
  obtain ⟨other, found⟩ := Option.isSome_iff_exists.mp (List.find?_isSome.mpr
    ⟨place, listed, beq_iff_eq.mpr rfl⟩ : ((ofFiles files).environment.global? place.name).isSome)
  have named : other.name = place.name := by simpa using List.find?_some found
  rw [List.inj_on_of_nodup_map (settled_ofFiles clean).1.globals (List.mem_of_find?_eq_some found)
    listed named] at found
  exact found

/-- The data segment of files without literals is zero where the global variables are. -/
theorem zeros_ofFiles (short : (ofFiles files).program.data.size + 8 ≤ 2 ^ 63) {place : Global}
    (listed : place ∈ (ofFiles files).environment.globals) {index : Nat}
    (inside : index < (ofFiles files).environment.structs.sizeOf place.type) :
    (ofFiles files).program.data.toList[place.offset + index]? = some 0 := by
  have stands := (arranged_of_files short).stands _ (List.mem_append_left _
    (List.mem_map_of_mem listed))
  have bytes := stands.2 index (by rwa [StructTable.tenantOf, List.length_replicate])
  exact bytes.trans (by rw [StructTable.tenantOf, List.getElem?_replicate, if_pos inside])

end Checker

namespace Machine

/-- What main sees at the start. -/
def starting (prog : Program) (settings : Settings) : Shown where
  a := 0
  b := 0
  c := 0
  d := 0
  stack := []
  floor := Memory.stackBase + settings.effectiveStackSize
  base := Memory.stackBase + settings.effectiveStackSize
  bytes := (Memory.initial settings.effectiveStackSize prog.data { limit :=
    settings.heapLimit }).byteAt
  output := #[]

theorem effectiveStackSize_le (settings : Settings) : settings.effectiveStackSize ≤
    Memory.maxStackSize := by
  unfold Settings.effectiveStackSize
  split
  · decide
  · exact Nat.min_le_right _ _

end Machine

namespace Build

variable {sources : List Source}

/-- The data segment of a program that is built is that of its check. -/
theorem data_of_built (built : (ofSources sources).failure = none) :
    (ofSources sources).program.data = (Checker.ofFiles (filesOf sources)).program.data := by
  obtain ⟨-, segment, -⟩ := Program.link_eq (link_of_built built)
  have same : (unlinked (filesOf sources)).segment =
    (Checker.ofFiles (filesOf sources)).program.segment := by
    show (Task.runAll _ _).2.program.segment = _
    rw [(runAll_tasks (filesOf sources)).2]
  rw [Program.data, segment, same]
  rfl

/-- The pieces of a program that is built have the names of its functions. -/
theorem names_of_built (built : (ofSources sources).failure = none) (index : Nat) :
    ((ofSources sources).program.pieces[index]?).map Piece.name =
      ((Checker.ofFiles (filesOf sources)).environment.functions[index]?).map Function.name := by
  obtain ⟨-, -, -, pieces, -⟩ := Program.link_eq (link_of_built built)
  have sound := (runAll_tasks (filesOf sources)).1
  have names : List.Forall₂ Eq ((Checker.ofFiles (filesOf sources)).environment.functions.map
    Function.name)
      ((Task.runAll (tasks (Checker.ofFiles (filesOf sources)).environment)
        (checked (Checker.ofFiles (filesOf sources)))).1.map Piece.name) :=
    List.forall₂_map_left_iff.mpr (List.forall₂_map_right_iff.mpr (sound.imp fun _ _ named =>
      named.2.symm))
  rw [List.forall₂_eq_eq_eq] at names
  rw [pieces, Array.getElem?_map, Option.map_map, ← List.getElem?_map, names, List.getElem?_map,
    ← List.getElem?_toArray]
  rfl

/-- A function of a program that is built is found by its name. -/
theorem lookup?_of_built (built : (ofSources sources).failure = none) {index : Nat}
    {function : Function}
    (declared : (Checker.ofFiles (filesOf sources)).environment.functions[index]? = some function) :
    (ofSources sources).program.lookup? function.name = some index := by
  refine Program.lookup?_eq_some ((names_of_built built index).trans (congrArg _ declared))
    fun other later same => ?_
  rw [names_of_built built] at same
  have distinct := (Checker.sound_ofFiles (filesOf sources)).names
  rw [← List.getElem?_map] at same
  have first := congrArg (Option.map Function.name) declared
  rw [← List.getElem?_map] at first
  obtain ⟨inside, named⟩ := List.getElem?_eq_some_iff.mp first
  obtain ⟨inside', named'⟩ := List.getElem?_eq_some_iff.mp same
  exact absurd (distinct.getElem_inj_iff.mp (named.trans named'.symm)) (Nat.ne_of_lt later)

end Build

/-- Before a program starts, memory holds its store. -/
theorem Checker.storeIn_starting {files : List SourceFile}
    (roomy : (ofFiles files).environment.Roomy)
    (short : (ofFiles files).program.data.size + 8 ≤ 2 ^ 63) {prog : Program}
    (data : prog.data = (ofFiles files).program.data) (settings : Settings) :
    (ofFiles files).environment.storeIn [] (Machine.starting prog settings) =
    (ofFiles files).environment.store := by
  unfold Environment.storeIn Environment.store
  refine congrArg (fun globals => (⟨[], globals, #[]⟩ : Store)) ?_
  rw [Bytes.bindings, Environment.referents, List.map_append, List.map_map, List.map_map]
  refine congrArg₂ _ (List.map_congr_left fun place listed => ?_) rfl
  refine congrArg (fun words => (place.name, Binding.variable ⟨place.type, words⟩)) ?_
  refine roomy.read_zeros (roomy.globals place listed) fun byte low high => ?_
  show (Memory.initial _ prog.data _).byteAt byte = 0
  rw [Memory.initial, Memory.byteAt_setBytes, Bytes.overwrite, if_pos (by omega), data]
  have zero := zeros_ofFiles short listed (show byte - (Memory.dataBase + place.offset) <
    _ by omega)
  rw [show place.offset + (byte - (Memory.dataBase + place.offset)) =
    byte - Memory.dataBase by omega] at zero
  rw [zero]
  rfl

namespace Machine

/-- At the start of a piece, the machine shows what main sees. -/
theorem plain_start {site : Site} (files : FileSystem)
    (top : site.top = Memory.stackBase + site.settings.effectiveStackSize)
    (data : site.dataSize = site.program.data.size) :
    site.Plain 0 (start site.program site.settings files site.index) (starting site.program
      site.settings) where
  running := rfl
  piece := rfl
  counter := by
    simp only [start, get_assign]
    rfl
  registers reg slot names shows := by
    have pointer : (Memory.initial site.settings.effectiveStackSize site.program.data
        { limit := site.settings.heapLimit }).stackTop = Memory.stackBase +
          site.settings.effectiveStackSize :=
      Memory.stackTop_setBytes _ _
    simp only [start, get_assign, pointer]
    cases reg <;> cases names <;> rfl
  top := top ▸ Memory.stackTop_setBytes _ _
  dataSize := data ▸ Memory.dataSize_setBytes _ _
  low := Nat.le_add_right _ _
  high := Nat.le_refl _
  highest := Nat.le_of_eq top.symm
  words := trivial
  bytes _ _ := rfl
  output := rfl

end Machine

theorem Block.isDirect_statements {block : Block} (direct : block.isDirect) :
    isDirectStatements block.statements := by
  cases block
  exact direct

namespace Build

variable {sources : List Source}

/-- The functions of a program that is built have the code that is run. -/
theorem hosts_of_built (built : (ofSources sources).failure = none)
    (direct : ∀ file ∈ filesOf sources, file.isDirect)
    (sized : (Checker.ofFiles (filesOf sources)).environment.Sized)
    (numbered : (ofSources sources).program.Numbered) {site : Site}
    (prog : site.program = (ofSources sources).program)
    (data : site.dataSize = site.program.data.size) :
    site.Hosts (Checker.ofFiles (filesOf sources)).environment where
  program := Checker.direct_ofFiles (clean_of_built built) direct sized
  houses := by
    rw [data, prog, data_of_built built]
    exact Checker.houses_ofFiles (clean_of_built built) direct
  direct function listed := by
    obtain ⟨known, inside⟩ := (Checker.sound_ofFiles (filesOf sources)).functions function listed
    have parts := direct function.file known
    simp only [SourceFile.isDirect, Bool.and_eq_true, List.all_eq_true] at parts
    exact Block.isDirect_statements (parts.1.1.2 function.declaration inside).2
  frames := sized.frames
  code index function known := by
    obtain ⟨piece, linked, generated, found, -, -, complete⟩ :=
      completes_of_built built (SourceFile.literalless direct) numbered known
    refine ⟨piece, linked.code, generated, ?_, numbered.cells linked (Array.mem_of_getElem? found),
      complete⟩
    rw [prog, found]
    rfl

/-- At the start of main, a machine meets the evaluation of a program that is built. -/
theorem meets_start (built : (ofSources sources).failure = none)
    (direct : ∀ file ∈ filesOf sources, file.isDirect)
    (sized : (Checker.ofFiles (filesOf sources)).environment.Sized)
    (numbered : (ofSources sources).program.Numbered) {main : Function}
    (declared : main ∈ (Checker.ofFiles (filesOf sources)).environment.functions)
    (named : main.name = "main") (settings : Settings) (files : FileSystem) :
    ∃ start, Machine.start? (ofSources sources).program settings files = .ok start ∧
      ∀ bound, start.Meets (ofSources sources).program settings bound
        (fun value store last => last.Ended value store.output ∧
          value.words.length = if main.result = .void then 0 else 1)
        ((Checker.ofFiles (filesOf sources)).environment.outcome main bound) := by
  have clean := clean_of_built built
  have data := data_of_built built
  obtain ⟨index, declared⟩ := List.mem_iff_getElem?.mp declared
  obtain ⟨piece, linked, generated, found, -, size, -⟩ :=
    completes_of_built built (SourceFile.literalless direct) numbered declared
  have entry : Machine.start? (ofSources sources).program settings files =
      .ok (Machine.start (ofSources sources).program settings files index) := by
    obtain ⟨isLinked, -⟩ := Program.link_eq (link_of_built built)
    have there := lookup?_of_built built declared
    rw [named] at there
    have some : linked.size ≠ 0 := size ▸ Nat.ne_of_gt (Generate.generate_size generated)
    rw [Machine.start?, if_pos isLinked, there]
    dsimp only
    rw [found]
    exact if_neg some
  have stack := Machine.effectiveStackSize_le settings
  have whole : Memory.maxStackSize = Memory.dataBase - Memory.stackBase := rfl
  have above : Memory.stackBase ≤ Memory.dataBase := by decide
  let site : Site := {
    program := (ofSources sources).program
    settings
    index
    code := linked.code
    top := Memory.stackBase + settings.effectiveStackSize
    dataSize := (ofSources sources).program.data.size
    found := by rw [found]; rfl
    small := numbered.cells linked (Array.mem_of_getElem? found)
    few := numbered.pieces
    below := by omega
    data := numbered.data }
  have globals : ∀ place ∈ (Checker.ofFiles (filesOf sources)).environment.globals,
      place.declaration.value.all Expr.isDirect := by
    intro place listed
    obtain ⟨known, inside⟩ := (Checker.sound_ofFiles (filesOf sources)).globals place listed
    have parts := direct place.file known
    simp only [SourceFile.isDirect, Bool.and_eq_true, List.all_eq_true] at parts
    exact (parts.1.2 place.declaration inside).2
  refine ⟨_, entry, fun bound => ?_⟩
  have hosts := @hosts_of_built _ built direct sized numbered site rfl rfl
  have short : (Checker.ofFiles (filesOf sources)).program.data.size + 8 ≤ 2 ^ 63 := by
    have few := numbered.data
    rw [data] at few
    omega
  have meets := hosts.meets_main declared named globals
    (fun place => Checker.global?_of_mem clean) (Machine.plain_start files rfl rfl) rfl rfl rfl
    (Checker.storeIn_starting hosts.program.roomy short data settings) bound
  refine meets.mono ?_
  rintro value store last ⟨result, ended, count, single⟩
  refine ⟨?_, ?_⟩
  · exact ⟨ended.running, by rw [ended.stack, ended.top], by rw [ended.frame, ended.top],
      ended.output,
      fun word same => ended.result.trans (single word same)⟩
  · have settled := (Checker.settled_ofFiles clean).1
    rcases (settled.main main (List.mem_of_getElem? declared) named).2 with void | int
    · rw [count, void]
      rfl
    · rw [count, int]
      rfl

end Build

end TinLang
