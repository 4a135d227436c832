import TinLang.Compile.Build
import TinLang.Image
import TinLang.Project.Sources

/-!
# Loading programs

A command works on a program: an image that is named alone, the sources that are named, or the
sources of the nearest project.
-/
namespace TinLang

/-- The formats of the files that commands read and write. -/
structure Formats where
  /-- How manifests are read. -/
  manifests : Manifest.Loader
  /-- How images are written and read back. -/
  images : Image.Codec

/-- Why there is no program to work on. -/
inductive LoadError where
  | unreadableImage (path : Text) (cause : FileError)
  | badImage (cause : ImageError)
  | manifest (cause : ManifestError)
  | noSources
  | project (cause : ProjectError)
  | noFiles (name : Text) (directories : List Text)
  | unreadableSource (cause : FileError)
  | build (diagnostics : List Diagnostic) (failure : BuildFailure)
  deriving Repr

namespace LoadError

/-- The message when there is no program to work on. -/
def message : LoadError → Text
  | .unreadableImage path cause => "cannot read " ++ path ++ ": " ++ cause.message
  | .badImage cause => cause.message
  | .manifest cause => "loading manifest: " ++ cause.message
  | .noSources => "no source files given and no " ++ Manifest.fileName ++ " found"
  | .project cause => cause.message
  | .noFiles name directories => name ++ ": no .tin files in [" ++ Text.join " " directories ++ "]"
  | .unreadableSource cause => "reading source: " ++ cause.message
  | .build _ failure => failure.message

/-- What is wrong with the sources. -/
def diagnostics : LoadError → List Diagnostic
  | .build diagnostics _ => diagnostics
  | _ => []

end LoadError

/-- A program with the project it comes from, if it comes from one. -/
structure LoadedProgram where
  /-- The program. -/
  program : Program
  /-- The manifest of the project. -/
  manifest : Option Manifest := none

namespace LoadedProgram

/-- Read the image at a path. -/
def ofImage (codec : Image.Codec) (system : FileSystem) (path : Text) :
    Except LoadError LoadedProgram :=
  match system.read path with
  | .error cause => .error (.unreadableImage path cause)
  | .ok bytes =>
    match Image.decode codec bytes with
    | .error cause => .error (.badImage cause)
    | .ok program => .ok { program }

/-- Read the sources at some paths. -/
def readSources (system : FileSystem) (paths : List Text) : Except LoadError (List Source) :=
  paths.mapM fun path =>
    match system.read path with
    | .error cause => .error (.unreadableSource cause)
    | .ok text => .ok ⟨Path.clean path, text⟩

/-- Build the sources at some paths. -/
def ofSources (system : FileSystem) (manifest : Option Manifest) (paths : List Text) :
    Except LoadError LoadedProgram := do
  let build := Build.ofSources (← readSources system paths)
  match build.failure with
  | some failure => .error (.build build.diagnostics failure)
  | none => return { program := build.program, manifest }

/-- Build the nearest project. -/
def ofProject (loader : Manifest.Loader) (system : FileSystem) :
    Except LoadError LoadedProgram := do
  match ← (Manifest.find loader system system.workingDirectory).mapError .manifest with
  | none => .error .noSources
  | some manifest =>
    match ← (manifest.allSources loader system).mapError .project with
    | [] => .error (.noFiles manifest.name manifest.sourceDirectories)
    | paths => ofSources system (some manifest) paths

/-- The program that the arguments of a command name. -/
def ofArguments (formats : Formats) (system : FileSystem) (arguments : List Text) :
    Except LoadError LoadedProgram :=
  match arguments with
  | [] => ofProject formats.manifests system
  | [path] =>
    if Path.extension path = Manifest.imageExtension then ofImage formats.images system path
    else ofSources system none [path]
  | paths => ofSources system none paths

end LoadedProgram

end TinLang
