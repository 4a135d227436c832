import TinLang.CommandLine.Command
import TinLang.Image.Records
import TinLang.Project.Entries

/-!
# The command line program

Commands are functions of a file system. The program reads the part of the real one that a command
can look at, performs the command, writes back the files that have changed and shows the outputs.
That part holds everything under the working directory, under the nearest project, and under the
projects it depends on.
-/
namespace TinLang

namespace Disk

/-- The string of a text; bytes outside UTF-8 are lost. -/
def stringOf (text : Text) : String := (String.fromUTF8? ⟨text.toArray⟩).getD ""

/-- Read a file, if it can be read, into a file system. -/
def readInto (system : FileSystem) (location : Location) : IO FileSystem := do
  try
    let bytes ← IO.FS.readBinFile (stringOf location.path)
    return (system.makeDirectories location.dropLast).put location (.file bytes.data.toList)
  catch _ => return system

/-- Read everything under a directory into a file system. -/
partial def readTree (system : FileSystem) (location : Location) : IO FileSystem := do
  let directory := (← IO.currentDir) / stringOf location.path
  if !(← directory.isDir) then return system
  let mut system := system.makeDirectories location
  for entry in ← directory.readDir do
    let inner := location ++ [Text.ofString entry.fileName]
    if ← entry.path.isDir then system ← readTree system inner
    else system ← readInto system inner
  return system

/-- Read some projects and the projects they depend on into a file system. -/
partial def readProjects (loader : Manifest.Loader) (system : FileSystem) :
    List Location → IO FileSystem
  | [] => return system
  | location :: others => do
    if (system.nodes.lookup location).isSome then readProjects loader system others
    else
      let system ← readTree system location
      match Manifest.load loader system location with
      | .error _ => readProjects loader system others
      | .ok manifest =>
        let needed := manifest.dependencies.map fun (_, path) => manifest.directory.resolve path
        readProjects loader system (others ++ needed)

/-- Read what a command in a directory can look at. -/
def readAround (loader : Manifest.Loader) (directory : Location) (arguments : List Text) :
    IO FileSystem := do
  let mut system : FileSystem := {}
  for ancestor in Manifest.ancestors directory do
    system ← readInto system (ancestor.join Manifest.fileName)
  let nearest := (Manifest.ancestors directory).find? (Manifest.isIn system)
  system := {}
  if let some project := nearest then system ← readProjects loader system [project]
  system ← readTree system directory
  for argument in arguments do
    system ← readInto system (directory.resolve argument)
  return { system with workingDirectory := directory }

/-- Write the files that are not the same as before. -/
def writeChanges (before after : FileSystem) : IO Unit := do
  for (location, node) in after.nodes do
    match node with
    | .directory => pure ()
    | .file content =>
      unless before.nodes.lookup location = some node do
        IO.FS.writeBinFile (stringOf location.path) ⟨content.toArray⟩

end Disk

end TinLang

open TinLang in
/-- Perform the command that the arguments name. -/
def main (arguments : List String) : IO UInt32 := do
  let arguments := arguments.map Text.ofString
  let formats : Formats := ⟨.toml 1, .cbor Cbor.maxCount⟩
  let directory := Location.join [] (Text.ofString (← IO.currentDir).toString)
  let files ← TinLang.Disk.readAround formats.manifests directory arguments
  let input ← if Command.readsInput arguments then (← IO.getStdin).readToEnd else pure ""
  let result := Command.perform formats files (Text.ofString input) arguments
  TinLang.Disk.writeChanges files result.files
  (← IO.getStdout).write ⟨result.output.toArray⟩
  (← IO.getStderr).write ⟨result.errors.toArray⟩
  return result.status.toUInt32
