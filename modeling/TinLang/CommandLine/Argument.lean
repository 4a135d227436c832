import TinLang.Numeral

/-!
# Arguments

The values of command line arguments: truth values in a few spellings, and numbers of 64 bits that
name their base as literals do. An underscore may stand between digits.
-/
namespace TinLang

/-- Why a text is not the value of an argument. -/
inductive ArgumentFault where
  | malformed
  | outOfRange
  deriving DecidableEq, Repr

/-- The words for a text that is not the value of an argument. -/
def ArgumentFault.message : ArgumentFault → Text
  | .malformed => "parse error"
  | .outOfRange => "value out of range"

namespace Argument

/-- The truth value that a text spells. -/
def truth (text : Text) : Except ArgumentFault Bool :=
  if (["1", "t", "T", "true", "TRUE", "True"] : List Text).contains text then .ok true
  else if (["0", "f", "F", "false", "FALSE", "False"] : List Text).contains text then .ok false
  else .error .malformed

/-- The number that digits of a base write after a number already read, up to the first fault;
underscores are passed over. -/
def digits (base : Nat) : (number : Nat) → Text → Except ArgumentFault Nat
  | number, [] => .ok number
  | number, byte :: text =>
    if byte = Text.byte '_' then digits base number text
    else match Numeral.digit? byte with
      | none => .error .malformed
      | some digit =>
        if base ≤ digit then .error .malformed
        else if 0x10000000000000000 ≤ number * base + digit then .error .outOfRange
        else digits base (number * base + digit) text

/-- Every underscore stands between digits; `after` tells whether a digit or the name of a base
came before. -/
def underscoresFit : (after : Bool) → Text → Bool
  | after, [] => after
  | after, byte :: text =>
    if byte = Text.byte '_' then after && underscoresFit false text else underscoresFit true text

/-- The base that a letter after a zero names. -/
def baseOf? (letter : UInt8) : Option Nat :=
  if letter = Text.byte 'b' ∨ letter = Text.byte 'B' then some 2
  else if letter = Text.byte 'o' ∨ letter = Text.byte 'O' then some 8
  else if letter = Text.byte 'x' ∨ letter = Text.byte 'X' then some 16
  else none

/-- The base of a number, whether a letter names it, and the text of the digits. A leading zero
without a letter stands for base eight. -/
def baseAndDigits (text : Text) : Nat × Bool × Text :=
  match text with
  | zero :: letter :: first :: rest =>
    if zero = Text.byte '0' then
      match baseOf? letter with
      | some base => (base, true, first :: rest)
      | none => (8, false, text)
    else (10, false, text)
  | _ => if text.head? = some (Text.byte '0') then (8, false, text) else (10, false, text)

/-- A number without a sign, below 2 to the 64. -/
def natural (text : Text) : Except ArgumentFault Nat :=
  match text with
  | [] => .error .malformed
  | _ :: _ => do
    let (base, named, body) := baseAndDigits text
    let number ← digits base 0 body
    if underscoresFit named body then return number else .error .malformed

/-- A number with an optional sign, within 64 bits. -/
def integer (text : Text) : Except ArgumentFault Int := do
  let negative := text.head? == some (Text.byte '-')
  let signed := negative || text.head? == some (Text.byte '+')
  let number ← natural (if signed then text.drop 1 else text)
  if negative then
    if number ≤ 0x8000000000000000 then return -(number : Int) else .error .outOfRange
  else if number < 0x8000000000000000 then return number
  else .error .outOfRange

end Argument

end TinLang
