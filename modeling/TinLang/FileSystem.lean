import TinLang.Text

/-!
# File systems

A file system is a value: the files and directories by their absolute paths, and the directory
that relative paths start from. Paths are walked component by component, and every component but
the last has to be a directory. A name has at most 255 bytes and a path fewer than 4096, and no
path holds a zero byte.
-/
namespace TinLang

/-- The names from the root to a file or directory. -/
abbrev Location := List Text

/-- What stands at a location. -/
inductive FileNode where
  | file (content : Text)
  | directory
  deriving DecidableEq, Repr

/-- Why a file operation fails. -/
inductive FileCause where
  | notFound
  | notDirectory
  | isDirectory
  | invalidArgument
  | nameTooLong
  deriving DecidableEq, Repr

/-- The words for a cause. -/
def FileCause.message : FileCause → Text
  | .notFound => "no such file or directory"
  | .notDirectory => "not a directory"
  | .isDirectory => "is a directory"
  | .invalidArgument => "invalid argument"
  | .nameTooLong => "file name too long"

/-- A failed file operation. -/
structure FileError where
  /-- The operation. -/
  operation : Text
  /-- The path it was given. -/
  path : Text
  /-- Why it failed. -/
  cause : FileCause
  deriving DecidableEq, Repr

/-- The message of a failed file operation. -/
def FileError.message (error : FileError) : Text :=
  error.operation ++ " " ++ error.path ++ ": " ++ error.cause.message

/-- The files and directories of a machine. -/
structure FileSystem where
  /-- What stands at each location; the root is always a directory. -/
  nodes : List (Location × FileNode) := []
  /-- Where relative paths start. -/
  workingDirectory : Location := []
  deriving Repr

namespace FileSystem

/-- What stands at a location. -/
def node? (system : FileSystem) (location : Location) : Option FileNode :=
  if location = [] then some .directory else system.nodes.lookup location

/-- The location of the components of a path from a directory on. -/
def walk (system : FileSystem) : Location → List Text → Except FileCause Location
  | directory, [] => .ok directory
  | directory, name :: names =>
    if name = [] ∨ name = "." then walk system directory names
    else if name = ".." then walk system directory.dropLast names
    else if 255 < name.length then .error .nameTooLong
    else
      let location := directory ++ [name]
      if names.isEmpty then .ok location
      else match system.node? location with
        | some .directory => walk system location names
        | some (.file _) => .error .notDirectory
        | none => .error .notFound

/-- The location that a path names. -/
def locate (system : FileSystem) (path : Text) : Except FileCause Location :=
  if path = [] then .error .notFound
  else if path.contains 0 then .error .invalidArgument
  else if 4096 ≤ path.length then .error .nameTooLong
  else
    let start := if path.head? = some (Text.byte '/') then [] else system.workingDirectory
    system.walk start (path.splitAt (Text.byte '/'))

/-- What stands at a path. -/
def stat (system : FileSystem) (path : Text) : Except FileError FileNode :=
  match system.locate path with
  | .error cause => .error ⟨"stat", path, cause⟩
  | .ok location =>
    match system.node? location with
    | some node => .ok node
    | none => .error ⟨"stat", path, .notFound⟩

/-- The content of the file at a path. -/
def read (system : FileSystem) (path : Text) : Except FileError Text :=
  match system.locate path with
  | .error cause => .error ⟨"open", path, cause⟩
  | .ok location =>
    match system.node? location with
    | some (.file content) => .ok content
    | some .directory => .error ⟨"read", path, .isDirectory⟩
    | none => .error ⟨"open", path, .notFound⟩

/-- The file system with a node at a location. -/
def put (system : FileSystem) (location : Location) (node : FileNode) : FileSystem :=
  let others := system.nodes.filter fun entry => entry.1 != location
  { system with nodes := others ++ [(location, node)] }

/-- The path without the slashes at its end; the root keeps one. -/
def withoutSlashes (path : Text) : Text :=
  match path.trimEnd (Text.byte '/') with
  | [] => path.take 1
  | trimmed => trimmed

/-- The file system after a file is written; its directory has to exist, and a slash at the end of
the path asks for a directory. -/
def write (system : FileSystem) (path content : Text) : Except FileError FileSystem :=
  match system.locate (withoutSlashes path) with
  | .error cause => .error ⟨"open", path, cause⟩
  | .ok location =>
    match system.node? location, system.node? location.dropLast with
    | some .directory, _ => .error ⟨"open", path, .isDirectory⟩
    | _, some .directory =>
      if path.getLast? = some (Text.byte '/') then .error ⟨"open", path, .isDirectory⟩
      else .ok (system.put location (.file content))
    | _, some (.file _) => .error ⟨"open", path, .notDirectory⟩
    | _, none => .error ⟨"open", path, .notFound⟩

/-- The file system with all directories down to a location. -/
def makeDirectories (system : FileSystem) (location : Location) : FileSystem :=
  ((List.range location.length).map fun count => location.take (count + 1)).foldl
    (fun system directory =>
    match system.node? directory with
    | some _ => system
    | none => system.put directory .directory) system

/-- The names in a directory, in the order of their bytes. -/
def list (system : FileSystem) (directory : Location) : List Text :=
  Text.sort (system.nodes.filterMap fun (location, _) =>
    match location.getLast? with
    | some name => if location.dropLast = directory then some name else none
    | none => none)

end FileSystem

end TinLang
