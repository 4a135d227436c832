import TinLang.Numeral
import TinLang.Toml.Value

/-!
# Numbers of TOML

Integers are decimal with an optional sign, or hexadecimal, octal or binary without one, and fit a
signed word of 64 bits. Real numbers have a fraction or an exponent and do not exceed the largest
double. An underscore stands between two digits, and a decimal number has no leading zero.
-/
namespace TinLang.Toml

/-- A decimal digit. -/
def isDigit (byte : UInt8) : Bool := decide (Text.byte '0' ≤ byte) && decide (byte ≤ Text.byte '9')

/-- A digit of a base up to sixteen. -/
def isDigitOf (base : Nat) (byte : UInt8) : Bool :=
  match Numeral.digit? byte with
  | some digit => decide (digit < base)
  | none => false

/-- Every underscore follows a digit, and a digit comes last; `after` tells whether a digit came
before. -/
def underscoresFit : (after : Bool) → Text → Bool
  | after, [] => after
  | after, byte :: text =>
    (byte != Text.byte '_' || after) && underscoresFit (isDigitOf 16 byte) text

/-- The digits without the underscores. -/
def withoutUnderscores (text : Text) : Text := text.filter (· != Text.byte '_')

/-- The text is a plus or a minus sign. -/
def isSign (byte : UInt8) : Bool := byte == Text.byte '+' || byte == Text.byte '-'

/-- A number without its sign. -/
def unsigned (text : Text) : Text := if (text.head?.map isSign).getD false then
    text.drop 1 else text

/-- A zero comes before other digits. -/
def hasLeadingZero (text : Text) : Bool :=
  let digits := unsigned text
  decide (1 < digits.length) && digits.head? == some (Text.byte '0')

/-- The value of a decimal integer. -/
def decimal? (text : Text) : Option Int :=
  if underscoresFit false text && !hasLeadingZero text then
    Numeral.signedWithin? 64 (withoutUnderscores text)
  else none

/-- The value of an integer of another base, from the digits after the two bytes that name it. -/
def based? (base : Nat) (digits : Text) : Option Int := do
  guard ((digits.head?.map (isDigitOf base)).getD false && underscoresFit false digits)
  let number ← Numeral.ofDigits? base (withoutUnderscores digits)
  guard (number < 0x8000000000000000)
  return number

/-- The parts of a text between bytes of a class, without the empty ones. -/
def fields (separates : UInt8 → Bool) (text : Text) : List Text :=
  let (last, parts) := text.foldr (fun byte (part, parts) =>
    if separates byte then ([], if part.isEmpty then parts else part :: parts)
    else (byte :: part, parts)) (([] : Text), ([] : List Text))
  if last.isEmpty then parts else last :: parts

/-- Every period has a digit after it. -/
def periodsFit : Text → Bool
  | [] => true
  | [byte] => byte != Text.byte '.'
  | byte :: next :: text => (byte != Text.byte '.' || isDigit next) && periodsFit (next :: text)

/-- The least number that rounds to a power of two too large for a double. -/
def realBound : Nat := Nat.pow 2 1024 - Nat.pow 2 970

/-- The digits of a number times a power of ten do not exceed the largest double. -/
def realFits (digits : Text) (exponent : Int) : Bool :=
  let significant := digits.dropWhile (· == Text.byte '0')
  let magnitude := significant.length + exponent
  match Numeral.ofDigits? 10 significant with
  | none => true
  | some number =>
    if magnitude < 300 then true
    else if 320 < magnitude then false
    else if 0 ≤ exponent then decide (number * Nat.pow 10 exponent.toNat < realBound)
    else decide (number < realBound * Nat.pow 10 (-exponent).toNat)

/-- The exponent mark of a real number. -/
def isExponentMark (byte : UInt8) : Bool := byte == Text.byte 'e' || byte == Text.byte 'E'

/-- The digits before and after the period of a number without an exponent. -/
def wholeAndFraction? (text : Text) : Option (Text × Text) :=
  match text.splitAt (Text.byte '.') with
  | [whole] => if whole.all isDigit && !whole.isEmpty then some (whole, []) else none
  | [whole, fraction] =>
    if (whole ++ fraction).all isDigit && !(whole ++ fraction).isEmpty then some (whole, fraction)
    else none
  | _ => none

/-- The exponent that is written after its mark; without a mark there is nothing to read. -/
def exponent? (text : Text) : Option Int :=
  match text with
  | [] => some 0
  | _ :: text => Numeral.signed? text

/-- A real number is well formed and does not exceed the largest double. -/
def isReal (text : Text) : Bool :=
  let parts := fields (fun byte => byte == Text.byte '.' || isExponentMark byte) text
  let plain := unsigned (withoutUnderscores text)
  let mantissa := plain.takeWhile fun byte => !isExponentMark byte
  parts.all (underscoresFit false) && !((parts.head?.map hasLeadingZero).getD false) &&
    periodsFit text &&
    match wholeAndFraction? mantissa, exponent? (plain.drop mantissa.length) with
    | some (whole, fraction), some exponent =>
      realFits (whole ++ fraction) (exponent - fraction.length)
    | _, _ => false

end TinLang.Toml
