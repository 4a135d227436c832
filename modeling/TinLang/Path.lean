import TinLang.FileSystem

/-!
# Paths

A path names a place by the names on the way to it, with slashes between them. These operations
look at the text alone: two dots take away the name before them whether or not it exists.
-/
namespace TinLang

namespace Path

/-- The byte between the names. -/
def separator : UInt8 := Text.byte '/'

/-- The path starts at the root. -/
def isAbsolute (path : Text) : Bool := path.head? == some separator

/-- The names of a path without empty ones and single dots. -/
def names (path : Text) : List Text :=
  (path.splitAt separator).filter fun name => !name.isEmpty && name != [Text.byte '.']

/-- The names with one more. Two dots take the last name away; at the root they change nothing,
and at the start of a relative path they stay. -/
def descend (rooted : Bool) (names : List Text) (name : Text) : List Text :=
  if name = ".." then
    match names.getLast? with
    | none => if rooted then [] else [name]
    | some last => if last = ".." then names ++ [name] else names.dropLast
  else names ++ [name]

/-- The shortest path of the same meaning. -/
def clean (path : Text) : Text :=
  let rooted := isAbsolute path
  let kept := (names path).foldl (descend rooted) []
  if rooted then separator :: Text.join "/" kept
  else if kept.isEmpty then "." else Text.join "/" kept

/-- Two paths one after the other. -/
def join (first second : Text) : Text :=
  if first.isEmpty then (if second.isEmpty then [] else clean second)
  else clean (first ++ "/" ++ second)

/-- The last name of a path. -/
def base (path : Text) : Text :=
  if path.isEmpty then "."
  else match (path.trimEnd separator).splitAt separator |>.getLast? with
    | some [] => "/"
    | some name => name
    | none => "/"

/-- The end of the last name from its last dot on; empty when there is no dot. -/
def extension (path : Text) : Text :=
  let name := ((path.splitAt separator).getLast?).getD []
  let afterDot := (name.reverse.takeWhile (· != Text.byte '.')).reverse
  if afterDot.length = name.length then [] else Text.byte '.' :: afterDot

/-- The last name of a path without its extension. -/
def stem (path : Text) : Text :=
  let name := base path
  name.take (name.length - (extension name).length)

end Path

namespace Location

/-- The absolute path of a location. -/
def path (location : Location) : Text := Path.separator :: Text.join "/" location

/-- The location that a path names, seen from another location. -/
def join (location : Location) (path : Text) : Location :=
  (Path.names path).foldl (Path.descend true) location

/-- The location of a path that may start at the root. -/
def resolve (location : Location) (path : Text) : Location :=
  join (if Path.isAbsolute path then [] else location) path

/-- The last name of a location; the root has only a slash. -/
def base (location : Location) : Text := (location.getLast?).getD "/"

end Location

end TinLang
