import TinLang.Text

/-!
# Lines

A line reader hands out the lines of a text one by one, without their line ends and without a
carriage return before them. It has a buffer of 64 KiB: a line that does not fit, its line end
included, ends the reading with an error.
-/
namespace TinLang

/-- The size of the buffer of a line reader. -/
def lineBuffer : Nat := 64 * 1024

/-- A line reader has met a line longer than its buffer. -/
structure LineTooLong where
  deriving DecidableEq, Repr

/-- The message of a line that is too long. -/
def LineTooLong.message (_ : LineTooLong) : Text := "bufio.Scanner: token too long"

namespace Text

/-- The line without a carriage return at its end. -/
def dropReturn (line : Text) : Text :=
  if line.getLast? = some (byte '\r') then line.dropLast else line

/-- What a line reader finds at the front of a text: the next line and the text after it, none at
the end of the text. -/
def nextLine? (text : Text) : Except LineTooLong (Option (Text × Text)) :=
  match text with
  | [] => .ok none
  | _ :: _ =>
    let line := text.takeWhile (· != byte '\n')
    if lineBuffer ≤ line.length then .error {}
    else .ok (some (dropReturn line, text.drop (line.length + 1)))

/-- The lines of a text up to its end or to a line that is too long, at most as many as the
bound. -/
def linesWithin : (bound : Nat) → Text → List Text × Option LineTooLong
  | 0, _ => ([], none)
  | bound + 1, text =>
    match text.nextLine? with
    | .error long => ([], some long)
    | .ok none => ([], none)
    | .ok (some (line, rest)) =>
      let (lines, error) := linesWithin bound rest
      (line :: lines, error)

/-- The lines of a text up to its end or to a line that is too long. -/
def lines (text : Text) : List Text × Option LineTooLong := linesWithin text.length text

end Text

end TinLang
