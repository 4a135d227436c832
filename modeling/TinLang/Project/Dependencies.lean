import TinLang.Project.Manifest
import TinLang.Text.Quoted

/-!
# Dependencies

The projects that a project depends on, directly or through others, in an order in which every
project comes after its own dependencies. A project is known by its directory, so one that is
reached twice is listed once, and a project that depends on itself is an error.
-/
namespace TinLang

/-- A project that another one depends on. -/
structure Dependency where
  /-- The name under which it was first found. -/
  name : Text
  /-- Its directory. -/
  location : Location
  /-- Its manifest. -/
  manifest : Manifest
  deriving Repr

/-- What is wrong with a dependency. -/
inductive DependencyCause where
  | noPath
  | notFound (location : Location) (cause : FileError)
  | manifest (cause : ManifestError)
  | cycle (location : Location)
  deriving DecidableEq, Repr

/-- A dependency that cannot be had. -/
structure DependencyError where
  /-- The name of the dependency. -/
  name : Text
  /-- What is wrong with it. -/
  cause : DependencyCause
  deriving DecidableEq, Repr

/-- The words for what is wrong with the dependency of a name. -/
def DependencyCause.message (name : Text) : DependencyCause → Text
  | .noPath => "dependency " ++ name.quoted ++ " has no path specified"
  | .notFound location cause =>
    "local dependency " ++ name.quoted ++ " not found at " ++ location.path ++ ": " ++ cause.message
  | .manifest cause => cause.message
  | .cycle location => "dependency cycle through " ++ location.path

/-- The message of a dependency that cannot be had. -/
def DependencyError.message (error : DependencyError) : Text :=
  "resolving " ++ error.name ++ ": " ++ error.cause.message error.name

namespace Manifest

/-- The dependencies of a manifest in the order of their names. -/
def sortedDependencies (manifest : Manifest) : List (Text × Text) :=
  manifest.dependencies.mergeSort fun left right => !Text.precedes right.1 left.1

/-- The project that a dependency of a manifest names. Projects in `known` are not loaded again. -/
def dependency (loader : Loader) (system : FileSystem) (known : List Dependency) (owner : Manifest)
    (name path : Text) : Except DependencyError Dependency :=
  if path.isEmpty then .error ⟨name, .noPath⟩
  else
    let location := owner.directory.resolve path
    match system.stat location.path with
    | .error cause => .error ⟨name, .notFound location cause⟩
    | .ok _ =>
      match known.find? fun dependency => dependency.location == location with
      | some dependency => .ok dependency
      | none =>
        match load loader system location with
        | .error cause => .error ⟨name, .manifest cause⟩
        | .ok manifest => .ok ⟨name, location, manifest⟩

/-- Add some dependencies of a project to those already listed, each after its own dependencies;
`visit` adds the dependencies of a project that is being visited. -/
def visitAll (loader : Loader) (system : FileSystem) (visiting : List Location)
    (visit : Dependency → List Dependency → Except DependencyError (List Dependency))
    (owner : Manifest) :
    List (Text × Text) → List Dependency → Except DependencyError (List Dependency)
  | [], listed => .ok listed
  | (name, path) :: rest, listed => do
    let dependency ← owner.dependency loader system listed name path
    if listed.any fun other => other.location == dependency.location then
      visitAll loader system visiting visit owner rest listed
    else if visiting.contains dependency.location then
      .error ⟨name, .cycle dependency.location⟩
    else
      let listed ← visit dependency listed
      visitAll loader system visiting visit owner rest (listed ++ [dependency])

/-- Add the dependencies of a project to those already listed. The projects in `visiting` lead to
it, and `depth` bounds how many more can. -/
def visit (loader : Loader) (system : FileSystem) : (depth : Nat) → (visiting : List Location) →
    Manifest → List Dependency → Except DependencyError (List Dependency)
  | 0, _, _, listed => .ok listed
  | depth + 1, visiting, owner, listed =>
    visitAll loader system visiting
      (fun dependency => visit loader system depth (dependency.location :: visiting)
        dependency.manifest)
      owner owner.sortedDependencies listed

/-- The projects that a project depends on, each after its own dependencies. Every project that
is being visited has a manifest of its own, so there are no more of them than files. -/
def resolve (loader : Loader) (system : FileSystem) (manifest : Manifest) :
    Except DependencyError (List Dependency) :=
  visit loader system (system.nodes.length + 2) [manifest.directory] manifest []

end Manifest

end TinLang
