import TinLang.Single.Read

/-!
# Showing single-precision numbers

A number is shown with a fixed count of decimal places, rounded from its exact value with ties
to even. Infinities keep their sign and a number that is none has a name of its own.
-/
namespace TinLang.Single

/-- The sign bit is set. -/
def isNegative (bits : BitVec 32) : Bool := bits.msb

/-- The eight bits of the exponent. -/
def exponentField (bits : BitVec 32) : Nat := bits.toNat / 0x800000 % 256

/-- The twenty-three bits of the fraction. -/
def fractionField (bits : BitVec 32) : Nat := bits.toNat % 0x800000

/-- The natural number nearest to the size of a finite number scaled by a factor. -/
def scaled (bits : BitVec 32) (factor : Nat) : Nat :=
  let field := exponentField bits
  let significand := if field = 0 then fractionField bits else fractionField bits + 0x800000
  let unit : Int := (max field 1 : Int) - 150
  if 0 ≤ unit then significand * factor * Nat.pow 2 unit.toNat
  else roundedQuotient (significand * factor) (Nat.pow 2 (-unit).toNat)

/-- The number with a fixed count of decimal places. -/
def fixed (places : Nat) (bits : BitVec 32) : Text :=
  if exponentField bits = 255 then
    if fractionField bits ≠ 0 then "NaN"
    else if isNegative bits then "-Inf" else "+Inf"
  else
    let units := scaled bits (Nat.pow 10 places)
    let sign : Text := if isNegative bits then "-" else []
    sign ++ Text.ofNat (units / Nat.pow 10 places) ++ "." ++
      Text.zeroFill places (Text.ofNat (units % Nat.pow 10 places))

end TinLang.Single
