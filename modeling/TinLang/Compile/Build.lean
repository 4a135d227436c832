import TinLang.Compile.Function
import TinLang.Program.Link
import TinLang.Syntax.Parse

/-!
# Builds

A build reads all sources, checks their declarations, generates every function into a piece and
links the program. Sources with syntax errors are not checked, and a program with problems is not
linked. The pieces stand in the order of declaration, and diagnostics in the order of their
places, so the result does not depend on the order in which the parts are worked on.
-/
namespace TinLang

/-- A source text with its name. -/
structure Source where
  /-- The name that diagnostics show. -/
  name : Text
  /-- The text. -/
  text : Text
  deriving DecidableEq, Repr

/-- Why a build has no linked program. -/
inductive BuildFailure where
  | syntaxErrors (count : Nat)
  | errors (count : Nat)
  | link (cause : LinkError)
  /-- The program ends before there is a result. -/
  | panicked
  deriving DecidableEq, Repr

/-- The message of a failed build. -/
def BuildFailure.message : BuildFailure → Text
  | .syntaxErrors count => "build failed: " ++ Text.ofNat count ++ " syntax errors"
  | .errors count => "build failed: " ++ Text.ofNat count ++ " errors"
  | .link cause => cause.message
  | .panicked => "runtime error: makeslice: len out of range"

/-- What a build produced. -/
structure Build where
  /-- The sources as they were read. -/
  files : List SourceFile
  /-- The declarations; none after syntax errors. -/
  environment : Option Environment := none
  /-- The program, which is linked unless the build failed. -/
  program : Program := {}
  /-- The diagnostics in the order of their places. -/
  diagnostics : List Diagnostic := []
  /-- Why the build failed, if it did. -/
  failure : Option BuildFailure := none

namespace Build

/-- The call targets of all functions, bound to the pieces in order. -/
def targets (environment : Environment) : List CallTarget :=
  environment.functions.zipIdx.map fun (function, index) =>
    (CallTarget.unresolved function.name).bind index

/-- The tasks of generating all functions. -/
def tasks (environment : Environment) : List (Task Piece) :=
  environment.functions.map fun function => function.generate environment

/-- What the tasks of a build find after its declarations are checked. -/
def checked (checker : Checker) : Shared :=
  ⟨checker.program, checker.problems.map Problem.diagnostic⟩

/-- Link generated pieces, unless something was reported. -/
def finish (files : List SourceFile) (environment : Environment) (pieces : List Piece)
    (shared : Shared) : Build :=
  let program := { shared.program with
    pieces := pieces.toArray, targets := (targets environment).toArray }
  match shared.diagnostics.toList with
  | [] =>
    let (linked, failure) := program.link
    ⟨files, some environment, linked, [], failure.map .link⟩
  | found =>
    ⟨files, some environment, program, Diagnostic.sort found, some (.errors found.length)⟩

/-- A build, unless the program ended before. -/
def ended (build : Build) (panicked : Bool) : Build :=
  { build with failure := if panicked then some .panicked else build.failure }

/-- Check and generate files that were read without errors. -/
def ofFiles (files : List SourceFile) : Build :=
  let checker := Checker.ofFiles files
  let (pieces, shared) := Task.runAll (tasks checker.environment) (checked checker)
  (finish files checker.environment pieces shared).ended checker.panicked

/-- The task of reading a source. -/
def reading (source : Source) : Task SourceFile :=
  let (file, found) := SourceFile.parse source.name source.text
  .reporting file found

/-- What a build does once its sources are read. -/
def ofRead (files : List SourceFile) (shared : Shared) : Build :=
  match shared.diagnostics.toList with
  | [] => ofFiles files
  | found =>
    { files, diagnostics := Diagnostic.sort found, failure := some (.syntaxErrors found.length) }

/-- Build a program from sources. -/
def ofSources (sources : List Source) : Build :=
  let (files, shared) := Task.runAll (sources.map reading) {}
  ofRead files shared

end Build

end TinLang
