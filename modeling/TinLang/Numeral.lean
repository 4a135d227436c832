import TinLang.Text

/-!
# Numerals

Reading numbers from text: the digits of a base, the integer literals of the language, and
signed decimal numbers within bounds.
-/
namespace TinLang.Numeral

/-- The value of a digit in bases up to sixteen. -/
def digit? (byte : UInt8) : Option Nat :=
  let code := byte.toNat
  if 0x30 ≤ code ∧ code ≤ 0x39 then some (code - 0x30)
  else if 0x61 ≤ code ∧ code ≤ 0x66 then some (code - 0x61 + 10)
  else if 0x41 ≤ code ∧ code ≤ 0x46 then some (code - 0x41 + 10)
  else none

/-- The number that digits of a base write after a number already read; none when a byte is not
a digit of the base. -/
def continued (base : Nat) : (number : Nat) → Text → Option Nat
  | number, [] => some number
  | number, byte :: text => do
    let digit ← digit? byte
    if digit < base then continued base (number * base + digit) text else none

/-- The number that a non-empty text of digits writes in a base. -/
def ofDigits? (base : Nat) (text : Text) : Option Nat :=
  match text with
  | [] => none
  | _ :: _ => continued base 0 text

/-- The value of an integer literal: hexadecimal after a zero and an x, octal after any other
leading zero, decimal otherwise. -/
def literal? (text : Text) : Option Nat :=
  match text with
  | [] => none
  | [single] => continued 10 0 [single]
  | zero :: mark :: rest =>
    if zero = Text.byte '0' then
      if mark = Text.byte 'x' ∨ mark = Text.byte 'X' then ofDigits? 16 rest
      else continued 8 0 (mark :: rest)
    else continued 10 0 (zero :: mark :: rest)

/-- A decimal number with an optional sign. -/
def signed? (text : Text) : Option Int :=
  match text with
  | [] => none
  | sign :: rest =>
    if sign = Text.byte '-' then (ofDigits? 10 rest).map fun number => -(number : Int)
    else if sign = Text.byte '+' then (ofDigits? 10 rest).map Int.ofNat
    else (ofDigits? 10 text).map Int.ofNat

/-- A decimal number with an optional sign that fits a signed word of some bits. -/
def signedWithin? (bits : Nat) (text : Text) : Option Int := do
  let number ← signed? text
  let bound : Nat := Nat.pow 2 (bits - 1)
  if -(bound : Int) ≤ number ∧ number < bound then some number else none

end TinLang.Numeral
