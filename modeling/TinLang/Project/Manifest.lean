import TinLang.Machine.Basic
import TinLang.Path

/-!
# Manifests

A project is a directory with a manifest: a file that names the sources, the projects they depend
on, the image to write and the settings of the machine. What a manifest leaves out has a default.
How the text of the file is read is left to a loader.
-/
namespace TinLang

/-- A project as its manifest describes it. -/
structure Manifest where
  /-- The directory of the project. -/
  directory : Location := []
  /-- The name of the project. -/
  name : Text := []
  /-- The version of the project. -/
  version : Text := []
  /-- The directories whose sources are built, seen from the project. -/
  sourceDirectories : List Text := []
  /-- More sources to build, seen from the project. -/
  sourceFiles : List Text := []
  /-- The projects this one depends on: names and paths. -/
  dependencies : List (Text × Text) := []
  /-- The path of the image to write. -/
  output : Text := []
  /-- How many functions are generated at once. -/
  workers : Int := 0
  /-- The settings of the machine. -/
  settings : Settings := {}
  /-- Runs are profiled. -/
  profile : Bool := false
  deriving Repr

/-- Why a manifest cannot be had. -/
inductive ManifestError where
  | unreadable (path : Text) (cause : FileError)
  | malformed (path : Text)
  deriving DecidableEq, Repr

/-- The message of a manifest that cannot be had. -/
def ManifestError.message : ManifestError → Text
  | .unreadable path cause => "cannot read " ++ path ++ ": " ++ cause.message
  | .malformed path => "parse error in " ++ path

namespace Manifest

/-- The name of the file. -/
def fileName : Text := "tin.toml"

/-- The extension of images. -/
def imageExtension : Text := ".tinc"

/-- The directory of sources when the manifest names none. -/
def defaultSourceDirectory : Text := "src"

/-- What a manifest is loaded with. -/
structure Loader where
  /-- Read the text of a manifest; what it does not say is left empty. -/
  read? : Text → Option Manifest
  /-- How many functions are generated at once when the manifest does not say. -/
  processors : Int

/-- The manifest of a directory with the defaults for what it leaves out. -/
def withDefaults (manifest : Manifest) (processors : Int) (directory : Location) : Manifest :=
  let image := (if manifest.name.isEmpty then directory.base else manifest.name) ++ imageExtension
  { manifest with
    directory
    sourceDirectories :=
      if manifest.sourceDirectories.isEmpty && manifest.sourceFiles.isEmpty then
        [defaultSourceDirectory]
      else manifest.sourceDirectories
    output := if manifest.output.isEmpty then image else manifest.output
    workers := if manifest.workers ≤ 0 then processors else manifest.workers
    settings := { manifest.settings with
      stackSize := if manifest.settings.stackSize ≤ 0 then Memory.defaultStackSize
        else manifest.settings.stackSize } }

/-- Load the manifest of a directory. -/
def load (loader : Loader) (system : FileSystem) (directory : Location) :
    Except ManifestError Manifest :=
  let path := (directory.join fileName).path
  match system.read path with
  | .error cause => .error (.unreadable path cause)
  | .ok text =>
    match loader.read? text with
    | some manifest => .ok (manifest.withDefaults loader.processors directory)
    | none => .error (.malformed path)

/-- A location and the directories above it, up to the root. -/
def ancestors (location : Location) : List Location :=
  (List.range (location.length + 1)).reverse.map location.take

/-- There is a manifest in a directory. -/
def isIn (system : FileSystem) (directory : Location) : Bool :=
  (system.stat (directory.join fileName).path).toOption.isSome

/-- Load the nearest manifest of a directory or of one above it; none when there is none. -/
def find (loader : Loader) (system : FileSystem) (directory : Location) :
    Except ManifestError (Option Manifest) :=
  match (ancestors directory).find? (isIn system) with
  | none => .ok none
  | some found => (load loader system found).map some

/-- The directories of the sources. -/
def sourcePaths (manifest : Manifest) : List Text :=
  manifest.sourceDirectories.map fun directory => (manifest.directory.join directory).path

/-- The path of the image to write. -/
def outputPath (manifest : Manifest) : Text :=
  if Path.isAbsolute manifest.output then manifest.output
  else (manifest.directory.join manifest.output).path

end Manifest

end TinLang
