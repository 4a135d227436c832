import TinLang.Path
import TinLang.Text.Glyph

/-!
# Path patterns

A pattern stands for the names that match it. A star matches any bytes, a question mark one
character, and a class in brackets one character of its ranges, or one outside of them after a
caret; none of them matches a slash, apart from classes. A backslash takes the special meaning
from the byte after it.
-/
namespace TinLang

/-- A part of a pattern. -/
inductive PatternPart where
  | star
  | single
  | byte (value : UInt8)
  | oneOf (negated : Bool) (ranges : List (Nat × Nat))
  deriving DecidableEq, Repr

/-- A pattern that is not well formed. -/
structure BadPattern where
  deriving DecidableEq, Repr

/-- The message of a bad pattern. -/
def BadPattern.message (_ : BadPattern) : Text := "syntax error in pattern"

/-- A pattern for names. -/
abbrev Pattern := List PatternPart

namespace Pattern

/-- One end of a range of a class, and the text after it, which is never empty. -/
def classEnd? (text : Text) : Option (Nat × Text) := do
  let first ← text.head?
  guard (first ≠ Text.byte '-' ∧ first ≠ Text.byte ']')
  let plain : Text := if first = Text.byte '\\' then text.drop 1 else text
  let glyph ← plain.glyphs.head?
  let rest := plain.drop glyph.bytes.length
  guard (!glyph.isStray && !rest.isEmpty)
  return (glyph.code, rest)

/-- The ranges of a class up to its closing bracket, and the text after it. At least one range
comes before the bracket. -/
def classRanges? : (bound : Nat) → (found : List (Nat × Nat)) → Text → Option
    (List (Nat × Nat) × Text)
  | 0, _, _ => none
  | bound + 1, found, text =>
    if text.head? = some (Text.byte ']') ∧ found ≠ [] then some (found, text.drop 1)
    else do
      let (low, rest) ← classEnd? text
      if rest.head? = some (Text.byte '-') then
        let (high, rest) ← classEnd? (rest.drop 1)
        classRanges? bound (found ++ [(low, high)]) rest
      else classRanges? bound (found ++ [(low, low)]) rest

/-- Read the parts of a pattern, at most as many as the bound. -/
def readWithin : (bound : Nat) → Text → Option Pattern
  | _, [] => some []
  | 0, _ :: _ => none
  | bound + 1, head :: text =>
    if head = Text.byte '*' then (readWithin bound text).map (.star :: ·)
    else if head = Text.byte '?' then (readWithin bound text).map (.single :: ·)
    else if head = Text.byte '\\' then
      match text with
      | [] => none
      | byte :: text => (readWithin bound text).map (.byte byte :: ·)
    else if head = Text.byte '[' then do
      let negated := text.head? == some (Text.byte '^')
      let (ranges, rest) ← classRanges? text.length [] (if negated then text.drop 1 else text)
      return .oneOf negated ranges :: (← readWithin bound rest)
    else (readWithin bound text).map (.byte head :: ·)

/-- Read a pattern. -/
def read (text : Text) : Except BadPattern Pattern :=
  match readWithin text.length text with
  | some pattern => .ok pattern
  | none => .error {}

/-- Some rest of a name after bytes other than slashes passes a test. -/
def afterSome (test : Text → Bool) : Text → Bool
  | [] => test []
  | head :: name => test (head :: name) || (head != Path.separator && afterSome test name)

/-- A name matches a pattern from its first byte to its last. -/
def isMatch : Pattern → Text → Bool
  | [], name => name.isEmpty
  | .star :: pattern, name => afterSome (isMatch pattern) name
  | .byte value :: pattern, name =>
    match name with
    | [] => false
    | head :: name => head == value && isMatch pattern name
  | .single :: pattern, name =>
    match name.glyphs.head? with
    | none => false
    | some glyph =>
      !glyph.is '/' && isMatch pattern (name.drop glyph.bytes.length)
  | .oneOf negated ranges :: pattern, name =>
    match name.glyphs.head? with
    | none => false
    | some glyph =>
      let inside := ranges.any fun (low, high) => decide (low ≤ glyph.code ∧ glyph.code ≤ high)
      inside != negated && isMatch pattern (name.drop glyph.bytes.length)

/-- The text has a byte with a special meaning. -/
def isSpecial (text : Text) : Bool :=
  text.any fun byte => [Text.byte '*', Text.byte '?', Text.byte '[', Text.byte '\\'].contains byte

end Pattern

namespace FileSystem

/-- The paths in a directory whose last names match a pattern, in the order of the names. None for
what is not a directory. -/
def matchesIn (system : FileSystem) (pattern : Pattern) (directory : Text) : List Text :=
  match system.locate directory with
  | .error _ => []
  | .ok location =>
    if system.node? location = some .directory then
      ((system.list location).filter pattern.isMatch).map (Path.join directory)
    else []

/-- The directory part of a path, without the slash after it, and the last name. -/
def splitLast (path : Text) : Text × Text :=
  let name := ((path.splitAt Path.separator).getLast?).getD []
  match path.take (path.length - name.length) with
  | [] => (".", name)
  | [_] => ("/", name)
  | directory => (directory.dropLast, name)

/-- The paths that match a pattern in every name, at most as many names deep as the bound. -/
def globWithin (system : FileSystem) : (bound : Nat) → Text → Except BadPattern (List Text)
  | 0, _ => .error {}
  | bound + 1, path => do
    let _ ← Pattern.read path
    if Pattern.isSpecial path then
      let (directory, name) := splitLast path
      let pattern ← Pattern.read name
      if Pattern.isSpecial directory then
        return (← globWithin system bound directory).flatMap (system.matchesIn pattern)
      else return system.matchesIn pattern directory
    else match system.stat path with
      | .ok _ => return [path]
      | .error _ => return []

/-- The paths that match a pattern in every name. -/
def glob (system : FileSystem) (path : Text) : Except BadPattern (List Text) :=
  system.globWithin (path.length + 1) path

end FileSystem

end TinLang
