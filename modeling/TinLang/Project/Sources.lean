import TinLang.Path.Pattern
import TinLang.Project.Dependencies

/-!
# Sources of a project

The sources of a project are the source files in its source directories, in the order of their
names, and then the files that its manifest lists. A build takes the sources of all dependencies
before them.
-/
namespace TinLang

/-- Why the sources of a project cannot be listed. -/
inductive SourceError where
  | directory (path : Text) (cause : FileError)
  | file (path : Text) (cause : FileError)
  | pattern (cause : BadPattern)
  deriving DecidableEq, Repr

/-- The message of sources that cannot be listed. -/
def SourceError.message : SourceError → Text
  | .directory path cause => "source directory " ++ path ++ ": " ++ cause.message
  | .file path cause => "source file " ++ path ++ ": " ++ cause.message
  | .pattern cause => cause.message

/-- Why the sources of a build cannot be listed. -/
inductive ProjectError where
  | dependency (cause : DependencyError)
  | dependencySources (name : Text) (cause : SourceError)
  | sources (cause : SourceError)
  deriving DecidableEq, Repr

/-- The message of a build whose sources cannot be listed. -/
def ProjectError.message : ProjectError → Text
  | .dependency cause => cause.message
  | .dependencySources name cause => "dependency " ++ name ++ ": " ++ cause.message
  | .sources cause => cause.message

namespace Manifest

/-- The pattern of source files in a directory. -/
def sourcePattern : Text := "*.tin"

/-- The source files in a directory, in the order of their paths. -/
def filesIn (system : FileSystem) (path : Text) : Except SourceError (List Text) :=
  match system.stat path with
  | .error cause => .error (.directory path cause)
  | .ok _ =>
    match system.glob (Path.join path sourcePattern) with
    | .error cause => .error (.pattern cause)
    | .ok found => .ok (Text.sort found)

/-- A listed source file, which has to exist. -/
def listedFile (system : FileSystem) (manifest : Manifest) (file : Text) :
    Except SourceError Text :=
  let path := (manifest.directory.join file).path
  match system.stat path with
  | .error cause => .error (.file path cause)
  | .ok _ => .ok path

/-- The paths without those that came before. -/
def withoutRepeats (paths : List Text) : List Text :=
  paths.foldl (fun kept path => if kept.contains path then kept else kept ++ [path]) []

/-- The sources of a project itself. -/
def ownSources (system : FileSystem) (manifest : Manifest) : Except SourceError (List Text) := do
  let found ← manifest.sourcePaths.mapM (filesIn system)
  let listed ← manifest.sourceFiles.mapM (listedFile system manifest)
  return withoutRepeats (found.flatten ++ listed)

/-- The sources of some dependencies in order. -/
def dependencySources (system : FileSystem) (dependencies : List Dependency) :
    Except ProjectError (List Text) := do
  let found ← dependencies.mapM fun dependency =>
    (dependency.manifest.ownSources system).mapError (.dependencySources dependency.name)
  return found.flatten

/-- The sources of all dependencies, then those of the project itself. -/
def allSources (loader : Loader) (system : FileSystem) (manifest : Manifest) :
    Except ProjectError (List Text) := do
  let dependencies ← (manifest.resolve loader system).mapError .dependency
  let others ← dependencySources system dependencies
  let own ← (manifest.ownSources system).mapError .sources
  return others ++ own

end Manifest

end TinLang
