import TinLang.Numeral

/-!
# Reading single-precision numbers

A single-precision number is its 32 bits. A decimal fraction is read as the nearest such number,
a tie going to the even one, and is refused when it lies past the largest finite number. All
arithmetic is on natural numbers and exact.
-/
namespace TinLang.Single

/-- The quotient of two naturals rounded to the nearest, a tie to the even one. -/
def roundedQuotient (numerator denominator : Nat) : Nat :=
  let quotient := numerator / denominator
  let twice := 2 * (numerator % denominator)
  if twice < denominator ∨ (twice = denominator ∧ quotient % 2 = 0) then quotient
  else quotient + 1

/-- The greatest power of two, as an exponent, that a positive quotient reaches. -/
def magnitude (numerator denominator : Nat) : Int :=
  let estimate : Int := (numerator.log2 : Int) - (denominator.log2 : Int)
  let reached : Bool :=
    if 0 ≤ estimate then decide (denominator * Nat.pow 2 estimate.toNat ≤ numerator)
    else decide (denominator ≤ numerator * Nat.pow 2 (-estimate).toNat)
  if reached then estimate else estimate - 1

/-- The number nearest to a quotient; none when it would be infinite. -/
def ofRatio? (numerator denominator : Nat) : Option (BitVec 32) :=
  if numerator = 0 then some 0 else
    let unit : Int := max (magnitude numerator denominator - 23) (-149)
    let significand :=
      if 0 ≤ unit then roundedQuotient numerator (denominator * Nat.pow 2 unit.toNat)
      else roundedQuotient (numerator * Nat.pow 2 (-unit).toNat) denominator
    let bits := (unit + 149).toNat * 0x800000 + significand
    if bits < 0x7F800000 then some (BitVec.ofNat 32 bits) else none

/-- The number nearest to a significand times a power of ten; the first two cases only keep the
exact arithmetic small. -/
def ofDecimal? (significand : Nat) (exponent : Int) : Option (BitVec 32) :=
  let size : Int := ((Nat.toDigits 10 significand).length : Int) + exponent
  if significand = 0 ∨ size < -60 then some 0
  else if 60 < size then none
  else if 0 ≤ exponent then ofRatio? (significand * Nat.pow 10 exponent.toNat) 1
  else ofRatio? significand (Nat.pow 10 (-exponent).toNat)

/-- The exponent written after a significand, zero when none is. -/
def exponentOf : Text → Option Int
  | [] => some 0
  | _ :: rest => Numeral.signed? rest

/-- A decimal digit. -/
def isDigit (byte : UInt8) : Bool := decide (0x30 ≤ byte.toNat) && decide (byte.toNat ≤ 0x39)

/-- The number that a literal writes: digits, then a point and digits, then an exponent. -/
def read? (literal : Text) : Option (BitVec 32) := do
  let whole := literal.takeWhile isDigit
  let afterWhole := literal.dropWhile isDigit
  let (places, rest) := match afterWhole with
    | point :: fraction =>
      if point = Text.byte '.' then (fraction.takeWhile isDigit, fraction.dropWhile isDigit)
      else ([], afterWhole)
    | [] => ([], [])
  let significand ← Numeral.ofDigits? 10 (whole ++ places)
  let exponent ← exponentOf rest
  ofDecimal? significand (exponent - places.length)

end TinLang.Single
