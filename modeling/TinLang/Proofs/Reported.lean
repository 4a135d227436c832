import TinLang.Proofs.Build
import TinLang.Proofs.Grammar.Extents
import TinLang.Proofs.Layout

/-!
# Where problems are reported

Every diagnostic of a build names one of its sources and the place of a token of that source. A
syntax error is at the token where reading failed. A problem of a declaration is at the first token
of a node of the file that the declaration stands in, also when the check comes to it from another
file: a draft of a struct keeps its file (`Checker.Located`), and the initial value of a global
variable is generated in the file of the variable although main holds its code.
-/
namespace TinLang

/-- A position is that of a node of one of some files, and the file has the given name. -/
def NodeOf (files : List SourceFile) (name : Text) (position : Position) : Prop :=
  ∃ file ∈ files, name = file.name ∧ position ∈ file.places

/-- Positions are those of nodes of a file. -/
def NodesOf (files : List SourceFile) (name : Text) (positions : List Position) : Prop :=
  ∀ position ∈ positions, NodeOf files name position

section Nodes

variable {files : List SourceFile} {file : SourceFile}

theorem nodesOf_declaration {decl : Declaration} (known : file ∈ files)
    (declared : decl ∈ file.declarations) : NodesOf files file.name decl.places :=
  fun _ mem => ⟨file, known, rfl, List.mem_flatMap.mpr ⟨decl, declared, mem⟩⟩

theorem nodesOf_struct {decl : StructDecl} (known : file ∈ files)
    (declared : decl ∈ file.structs) :
    NodesOf files file.name (Declaration.struct decl).places :=
  nodesOf_declaration known (by simp [SourceFile.declarations, declared])

theorem nodesOf_constant {decl : ConstDecl} (known : file ∈ files)
    (declared : decl ∈ file.consts) :
    NodesOf files file.name (Declaration.constant decl).places :=
  nodesOf_declaration known (by simp [SourceFile.declarations, declared])

theorem nodesOf_global {decl : GlobalDecl} (known : file ∈ files)
    (declared : decl ∈ file.globals) :
    NodesOf files file.name (Declaration.global decl).places :=
  nodesOf_declaration known (by simp [SourceFile.declarations, declared])

theorem nodesOf_function {decl : FuncDecl} (known : file ∈ files)
    (declared : decl ∈ file.funcs) :
    NodesOf files file.name (Declaration.function decl).places :=
  nodesOf_declaration known (by simp [SourceFile.declarations, declared])

end Nodes

/-- The problems of a check are at nodes of the files, and its drafts are structs of theirs. -/
structure Checker.Located (files : List SourceFile) (checker : Checker) : Prop where
  problems : ∀ problem ∈ checker.problems, NodeOf files problem.file problem.position
  drafts : ∀ draft ∈ checker.drafts,
    NodesOf files draft.file (Declaration.struct draft.declaration).places

namespace Check

variable {α β : Type} {files : List SourceFile}

/-- A step that leaves a check located. -/
abbrev Locates (files : List SourceFile) (step : Check α) : Prop :=
  Leads (Checker.Located files) step (Checker.Located files)

theorem locates_pure (value : α) : Locates files (pure value) := fun _ => id

theorem locates_get : Locates files get := fun _ => id

theorem locates_report {file : Text} {span : Span} (cause : ProblemCause)
    (node : NodeOf files file span.start) : Locates files (report file span cause) := by
  refine fun checker located => { located with problems := fun problem mem => ?_ }
  rcases Array.mem_push.mp mem with old | rfl
  · exact located.problems problem old
  · exact node

theorem locates_extend (change : Environment → Environment) : Locates files (extend change) :=
  fun _ located => { located with }

theorem locates_resolve {file : Text} {type : TypeExpr}
    (node : NodeOf files file type.span.start) : Locates files (resolve file type) := by
  refine .bind locates_get fun checker => ?_
  split
  · exact locates_pure _
  · exact .bind (locates_report _ node) fun _ => locates_pure _

theorem locates_enterStruct {file : Text} {decl : StructDecl}
    (nodes : NodesOf files file (Declaration.struct decl).places) :
    Locates files (enterStruct file decl) := by
  have node := nodes _ (List.mem_cons_self ..)
  refine .at fun checker located => ?_
  split
  · exact locates_report _ node checker located
  · split
    · exact locates_report _ node checker located
    · refine { located with drafts := fun draft mem => ?_ }
      rcases List.mem_append.mp mem with old | new
      · exact located.drafts draft old
      · rw [List.mem_singleton.mp new]
        exact nodes

theorem locates_mark (name : Text) (progress : LayoutProgress) :
    Locates files (mark name progress) := by
  refine fun checker located => { located with drafts := fun draft mem => ?_ }
  obtain ⟨before, old, rfl⟩ := List.mem_map.mp mem
  have nodes := located.drafts before old
  split
  · exact nodes
  · exact nodes

theorem locates_placeMember (struct : Text) (offset : Nat) (name : Text) (type : ValueType) :
    Locates files (placeMember struct offset name type) :=
  .bind locates_get fun _ => .bind (locates_extend _) fun _ => locates_pure _

theorem locates_placeMembers {layout : Text → Check Bool} {file : Text} (struct : Text)
    (offset : Nat) (seen : List Text) {fields : List Field}
    (nodes : NodesOf files file (fields.flatMap Field.places))
    (inner : ∀ name, Locates files (layout name)) :
    Locates files (placeMembers layout file struct offset seen fields) := by
  induction fields generalizing offset seen with
  | nil => exact .bind (locates_extend _) fun _ => locates_pure _
  | cons field fields ih =>
    have node : NodeOf files file field.span.start := nodes _ (by simp [Field.places])
    have written : NodeOf files file field.type.span.start := nodes _ (by simp [Field.places])
    have later : NodesOf files file (fields.flatMap Field.places) := fun position mem =>
      nodes position (List.mem_append_right _ mem)
    unfold placeMembers
    refine .ite (fun _ => .bind (locates_report _ node) fun _ => locates_pure _) fun _ => ?_
    refine .bind (locates_resolve written) fun type => ?_
    split
    · exact locates_pure _
    · next type =>
      refine .ite (fun _ => .bind (locates_report _ node) fun _ => locates_pure _) fun _ => ?_
      have rest : ∀ complete : Bool, Locates files (if complete then do
          let next ← placeMember struct offset field.name type
          placeMembers layout file struct next (field.name :: seen) fields
        else return false) :=
        fun _ => .ite (fun _ => .bind (locates_placeMember _ _ _ _) fun _ => ih _ _ later)
          fun _ => locates_pure _
      dsimp only
      split
      · exact .bind (inner _) fun _ => rest _
      · exact .bind (locates_pure _) fun _ => rest _

/-- A struct is laid out in its own file, whichever struct holds it. -/
theorem locates_layoutStruct (depth : Nat) (name : Text) :
    Locates files (layoutStruct depth name) := by
  induction depth generalizing name with
  | zero => exact locates_pure _
  | succ depth ih =>
    refine .at fun checker located => ?_
    split
    · exact located
    · next draft found =>
      have nodes := located.drafts draft (List.mem_of_find?_eq_some found)
      split
      · exact located
      · exact located
      · have reported : Locates files (do
            report draft.file draft.declaration.span (.containsItself name)
            return false) :=
          .bind (locates_report _ (nodes _ (List.mem_cons_self ..))) fun _ => locates_pure _
        exact reported checker located
      · have laid : Locates files (do
            mark name .busy
            let complete ←
              placeMembers (layoutStruct depth) draft.file name 0 [] draft.declaration.members
            mark name (if complete then .done else .failed)
            return complete) :=
          .bind (locates_mark _ _) fun _ => .bind (locates_placeMembers _ _ _
            (fun position mem => nodes position (List.mem_cons_of_mem _ mem)) ih) fun _ =>
              .bind (locates_mark _ _) fun _ => locates_pure _
        exact laid checker located

theorem locates_structs : Locates files (structs files) :=
  .bind (.forM fun _ known => .forM fun _ declared =>
    locates_enterStruct (nodesOf_struct known declared)) fun _ => .bind locates_get fun _ =>
      .forM fun _ _ => .bind (locates_layoutStruct _ _) fun _ => locates_pure _

theorem locates_parameterTypes {file : Text} {fields : List Field}
    (nodes : NodesOf files file (fields.flatMap Field.places)) :
    Locates files (parameterTypes file fields) := by
  induction fields with
  | nil => exact locates_pure _
  | cons field fields ih =>
    have node : NodeOf files file field.span.start := nodes _ (by simp [Field.places])
    have written : NodeOf files file field.type.span.start := nodes _ (by simp [Field.places])
    have later := ih fun position mem => nodes position (List.mem_append_right _ mem)
    exact .bind (locates_resolve written) fun _ => .ite
      (fun _ => .bind (locates_report _ node) fun _ => .bind later fun _ => locates_pure _)
      fun _ => .bind later fun _ => locates_pure _

theorem locates_mainSignature {file : Text} {decl : FuncDecl} (result : ValueType)
    (node : NodeOf files file decl.span.start) :
    Locates files (mainSignature file decl result) := by
  have second : Locates files (if result ≠ .void ∧ result ≠ .int then
      report file decl.span (.mainResult result) else pure ()) :=
    .ite (fun _ => locates_report _ node) fun _ => locates_pure _
  exact .ite (fun _ => .bind (locates_report _ node) fun _ => second) fun _ => second

theorem locates_function {file : SourceFile} {decl : FuncDecl}
    (nodes : NodesOf files file.name (Declaration.function decl).places) :
    Locates files (function file decl) := by
  have node : NodeOf files file.name decl.span.start :=
    nodes _ (by simp [Declaration.places, FuncDecl.starts])
  have params : NodesOf files file.name (decl.params.flatMap Field.places) :=
    fun position mem => nodes position
      (List.mem_append_left _ (List.mem_append_right _ mem))
  have signed (name : Text) (result : ValueType) (change : Environment → Environment) :
      Locates files (do
        if name = "main" then mainSignature file.name decl result
        extend change) :=
    .ite (fun _ => .bind (locates_mainSignature _ node) fun _ => locates_extend _)
      fun _ => locates_extend _
  unfold function
  refine .ite (fun _ => locates_report _ node) fun _ => .bind locates_get fun _ => ?_
  refine .ite (fun _ => locates_report _ node) fun _ => ?_
  dsimp only
  split
  · next type written =>
    have place : NodeOf files file.name type.span.start :=
      nodes _ (List.mem_append_right _ (by simp [TypeExpr.placeOf?, written]))
    refine .bind (locates_resolve place) fun _ => .bind (locates_pure _) fun _ => ?_
    refine .bind (locates_parameterTypes params) fun _ => .bind locates_get fun _ => ?_
    exact signed _ _ _
  · refine .bind (locates_pure _) fun _ => ?_
    refine .bind (locates_parameterTypes params) fun _ => .bind locates_get fun _ => ?_
    exact signed _ _ _

theorem locates_free {file : Text} {span : Span} (name : Text)
    (node : NodeOf files file span.start) : Locates files (free file span name) :=
  .bind locates_get fun _ => .ite
    (fun _ => .bind (locates_report _ node) fun _ => locates_pure _) fun _ => locates_pure _

theorem locates_constant {file : SourceFile} {decl : ConstDecl}
    (nodes : NodesOf files file.name (Declaration.constant decl).places) :
    Locates files (constant file decl) := by
  have node := nodes decl.span.start (List.mem_cons_self ..)
  refine .bind (locates_free _ node) fun free => .ite (fun _ => ?_) fun _ => locates_pure _
  refine .bind locates_get fun checker => ?_
  split
  · exact locates_extend _
  · next span cause refused =>
    exact locates_report _ (nodes _ (Environment.place_of_constantOf refused))

theorem locates_alignData (multiple : Nat) : Locates files (alignData multiple) := by
  intro checker located
  rw [show ((alignData multiple).run checker).2 = _ from meets_alignData multiple checker]
  generalize padding _ _ = count
  exact { located with }

theorem locates_reserve (size : Nat) : Locates files (reserve size) := by
  intro checker located
  obtain ⟨-, same, -⟩ | ⟨-, same, -⟩ := meets_reserve size checker <;> rw [same] <;>
    exact { located with }

theorem locates_global {file : SourceFile} {decl : GlobalDecl}
    (nodes : NodesOf files file.name (Declaration.global decl).places) :
    Locates files (global file decl) := by
  have node := nodes decl.span.start (List.mem_cons_self ..)
  have written := nodes decl.type.span.start (List.mem_cons_of_mem _ (List.mem_cons_self ..))
  refine .bind (locates_free _ node) fun free => .ite (fun _ => ?_) fun _ => locates_pure _
  refine .bind (locates_resolve written) fun type => ?_
  split
  · exact locates_pure _
  · refine .ite (fun _ => locates_report _ node) fun _ => .bind locates_get fun _ => ?_
    refine .bind (locates_alignData _) fun _ => .bind (locates_reserve _) fun offset => ?_
    cases offset with
    | none => exact locates_pure _
    | some => exact locates_extend _

theorem locates_files : Locates files (Check.files files) :=
  .bind locates_structs fun _ =>
  .bind (.forM fun _ known => .forM fun _ declared =>
    locates_function (nodesOf_function known declared)) fun _ =>
  .bind (.forM fun _ known => .forM fun _ declared =>
    locates_constant (nodesOf_constant known declared)) fun _ =>
  .bind (.forM fun _ known => .forM fun _ declared =>
    locates_global (nodesOf_global known declared)) fun _ =>
  .forM fun _ _ _ located => { located with }

end Check

/-- The check of some files is located. -/
theorem Checker.located_ofFiles (files : List SourceFile) : (ofFiles files).Located files :=
  Check.locates_files {} ⟨by simp, by simp⟩

namespace Build

/-- A diagnostic is at a token of one of some sources. -/
def AtToken (sources : List Source) (diagnostic : Diagnostic) : Prop :=
  ∃ source ∈ sources, ∃ position ∈ Token.places (Scan.tokens source.text), ∃ message,
    diagnostic = .located source.name position message

/-- A diagnostic is at a node of one of some files. -/
def AtNode (files : List SourceFile) (diagnostic : Diagnostic) : Prop :=
  ∃ name position message, NodeOf files name position ∧
    diagnostic = .located name position message

/-- Reading sources reports at tokens of these sources. -/
theorem atToken_of_reading (sources : List Source) :
    ∀ diagnostic ∈ (Task.runAll (sources.map reading) {}).2.diagnostics,
      AtToken sources diagnostic := by
  have each : ∀ source ∈ sources,
      (reading source).Does (AtToken sources) (fun _ => False) fun _ => True := by
    intro source listed
    have placed := (SourceFile.places_parse source.name source.text).2
    exact Task.does_reporting (fun diagnostic mem => ⟨source, listed, placed diagnostic mem⟩)
      trivial
  exact Task.diagnostics_runAll each (by simp)

/-- The territory of a function consists of nodes. -/
theorem nodeOf_territory {files : List SourceFile} {function : Function} {name : Text}
    {position : Position} (listed : function ∈ (Checker.ofFiles files).environment.functions)
    (inside : Territory (Checker.ofFiles files).environment function name position) :
    NodeOf files name position := by
  have sound := Checker.sound_ofFiles files
  rcases inside with ⟨rfl, mem⟩ | ⟨-, global, found, rfl, mem⟩
  · obtain ⟨known, declared⟩ := sound.functions function listed
    exact nodesOf_function known declared position
      (List.mem_append_left _ (List.mem_append_left _ mem))
  · obtain ⟨known, declared⟩ := sound.globals global found
    exact nodesOf_global known declared position
      (List.mem_cons_of_mem _ (List.mem_cons_of_mem _ mem))

/-- Checking and generating files reports at nodes of these files. -/
theorem atNode_of_tasks (files : List SourceFile) :
    ∀ diagnostic ∈ (Task.runAll (tasks (Checker.ofFiles files).environment)
      (checked (Checker.ofFiles files))).2.diagnostics, AtNode files diagnostic := by
  have each : ∀ function ∈ (Checker.ofFiles files).environment.functions,
      (function.generate (Checker.ofFiles files).environment).Does (AtNode files) (LiteralOf files)
        fun _ => True := by
    intro function listed
    refine ((does_generate listed).weaken ?_).mono fun _ _ => trivial
    rintro diagnostic ⟨name, position, message, inside, rfl⟩
    exact ⟨name, position, message, nodeOf_territory listed inside, rfl⟩
  refine Task.diagnostics_runAll each fun diagnostic mem => ?_
  obtain ⟨problem, inside, rfl⟩ := Array.mem_map.mp mem
  exact ⟨_, _, _, (Checker.located_ofFiles files).problems problem inside, rfl⟩

/-- A node of a file that was read from one of some sources starts at a token of that source. -/
theorem token_of_nodeOf {sources : List Source} {name : Text} {position : Position}
    (node : NodeOf (filesOf sources) name position) :
    ∃ source ∈ sources, name = source.name ∧
      position ∈ (SourceFile.parse source.name source.text).1.places ∧
        ∃ token ∈ Scan.tokens source.text, token.position = position := by
  obtain ⟨file, known, rfl, inside⟩ := node
  obtain ⟨source, listed, rfl⟩ := source_of_mem_filesOf known
  obtain ⟨_, read⟩ := SourceFile.parse_readUpTo source.name source.text
  have tokens := (SourceFile.places_parse source.name source.text).1
  exact ⟨source, listed, read.name, inside, List.mem_map.mp (tokens inside)⟩

/-- The diagnostics of a build are at tokens of its sources; where no syntax error is among them,
they are at nodes of the files read from these sources. -/
theorem diagnostics_ofSources (sources : List Source) :
    ∀ diagnostic ∈ (ofSources sources).diagnostics,
      ((∃ count, (ofSources sources).failure = some (.syntaxErrors count)) ∧
        AtToken sources diagnostic) ∨ AtNode (filesOf sources) diagnostic := by
  rw [ofSources_eq_ofRead]
  unfold ofRead
  split
  · intro diagnostic mem
    exact .inr (atNode_of_tasks _ diagnostic ((mem_diagnostics_ofFiles _ diagnostic).mp mem))
  · intro diagnostic mem
    refine .inl ⟨⟨_, rfl⟩, atToken_of_reading sources diagnostic (Array.mem_toList_iff.mp ?_)⟩
    exact (List.mergeSort_perm _ _).mem_iff.mp mem

/-- Diagnostics name the right place. Every diagnostic of a build has the name of one of its sources
and the line and column of a token of that source, errors and the end of the text included; and
unless the build failed with syntax errors, a node of the file read from that source starts there.
-/
theorem diagnostics_located (sources : List Source) :
    ∀ diagnostic ∈ (ofSources sources).diagnostics, ∃ source ∈ sources,
      diagnostic.file = source.name ∧ ∃ token ∈ Scan.tokens source.text,
        diagnostic.line = token.position.line ∧ diagnostic.column = token.position.column ∧
          ((∀ count, (ofSources sources).failure ≠ some (.syntaxErrors count)) →
            token.position ∈ (SourceFile.parse source.name source.text).1.places) := by
  intro diagnostic mem
  rcases diagnostics_ofSources sources diagnostic mem with ⟨⟨count, failed⟩, found⟩ | found
  · obtain ⟨source, listed, position, inside, message, rfl⟩ := found
    obtain ⟨token, scanned, rfl⟩ := List.mem_map.mp inside
    exact ⟨source, listed, rfl, token, scanned, rfl, rfl, fun clean => absurd failed (clean count)⟩
  · obtain ⟨name, position, message, node, rfl⟩ := found
    obtain ⟨source, listed, rfl, inside, token, scanned, rfl⟩ := token_of_nodeOf node
    exact ⟨source, listed, rfl, token, scanned, rfl, rfl, fun _ => inside⟩

/-- A struct of one file holds a struct of another, whose member has no type; the code of main
starts with the value of a global variable of the other file, which does not fit. -/
def acrossFiles : List Source :=
  [⟨"main.tin", "struct Outer \x7b inner: Inner; \x7d\nfun main(): int \x7b return 0; \x7d"⟩,
    ⟨"parts.tin", "struct Inner \x7b broken: Nowhere; \x7d\nglobal lost: int = \"text\";"⟩]

theorem diagnostics_located_acrossFiles :
    ⟨"parts.tin", 1, 24, "unknown type Nowhere"⟩ ∈ (ofSources acrossFiles).diagnostics ∧
    ⟨"parts.tin", 2, 20, "cannot use char* as int in global lost"⟩ ∈
      (ofSources acrossFiles).diagnostics ∧
    ∀ diagnostic ∈ (ofSources acrossFiles).diagnostics, ∃ source ∈ acrossFiles,
      diagnostic.file = source.name ∧ ∃ token ∈ Scan.tokens source.text,
        diagnostic.line = token.position.line ∧ diagnostic.column = token.position.column ∧
          ((∀ count, (ofSources acrossFiles).failure ≠ some (.syntaxErrors count)) →
            token.position ∈ (SourceFile.parse source.name source.text).1.places) := by
  have read : ∀ source ∈ acrossFiles, (SourceFile.parse source.name source.text).2 = [] := by
    decide
  have found : (Task.runAll (tasks (Checker.ofFiles (filesOf acrossFiles)).environment)
      (checked (Checker.ofFiles (filesOf acrossFiles)))).2.diagnostics =
        #[⟨"parts.tin", 1, 24, "unknown type Nowhere"⟩,
          ⟨"parts.tin", 2, 20, "cannot use char* as int in global lost"⟩] := by
    decide +kernel
  refine ⟨?_, ?_, diagnostics_located acrossFiles⟩
  · rw [mem_diagnostics_iff read, found]
    simp
  · rw [mem_diagnostics_iff read, found]
    simp

end Build

end TinLang
