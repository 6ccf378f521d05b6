import Strand.Binary64
import Strand.Decimal.Shortest

/-!
# The text of a float

A float is written with the fewest digits that read back as it.

* Zero and the numbers from a thousandth up to ten million are written positionally, with at least
  one digit after the point.
* All others are written in scientific notation: one nonzero digit before the point, at least one
  after it, then `E` and the exponent, with no plus sign and no leading zeros.
* The special values are `NaN`, `Infinity` and `-Infinity`. A zero keeps its sign.
-/

set_option autoImplicit false

namespace Strand.Decimal

/-- Positional notation of `0.d₁d₂… * 10 ^ point`, with at least one digit on each side of the point. -/
def positional (digits : List Char) (point : Int) : List Char :=
  if point ≤ 0 then '0' :: '.' :: (List.replicate (-point).toNat '0' ++ digits)
  else
    let whole := digits.take point.toNat
    let padding := List.replicate (point.toNat - digits.length) '0'
    let fraction := digits.drop point.toNat
    whole ++ padding ++ '.' :: (if fraction.isEmpty then ['0'] else fraction)

/-- Scientific notation of `0.d₁d₂… * 10 ^ point`, with at least one digit after the point. -/
def scientific (digits : List Char) (point : Int) : List Char :=
  let fraction := digits.drop 1
  digits.take 1 ++ '.' :: (if fraction.isEmpty then ['0'] else fraction) ++
    'E' :: (toString (point - 1)).toList

/-- Whether a magnitude lies between a thousandth and ten million. -/
def isPlain (significand : Nat) (exponent : Int) : Bool :=
  let up := Nat.pow 2 exponent.toNat
  let down := Nat.pow 2 (-exponent).toNat
  down ≤ significand * up * 1000 && significand * up < 10000000 * down

/-- The float below a power of two is nearer than the one above it, unless both are subnormal. -/
def target (significand : Nat) (exponent : Int) : Target :=
  ⟨significand, exponent, significand == Binary64.hiddenBit && Binary64.minExponent < exponent⟩

/-- The text of a magnitude. -/
def magnitudeText (significand : Nat) (exponent : Int) : List Char :=
  if significand == 0 then ['0', '.', '0']
  else
    let shortest := (target significand exponent).shortest
    let digits := Nat.toDigits 10 shortest.digits
    let point := digits.length + shortest.exponent
    if isPlain significand exponent then
      match Binary64.integral? significand exponent with
      | some whole => Nat.toDigits 10 whole ++ ['.', '0']
      | none => positional digits point
    else scientific digits point

/-- The text of a float. -/
def floatText (x : Float) : String :=
  match Binary64.ofFloat x with
  | .nan => "NaN"
  | .infinite negative => if negative then "-Infinity" else "Infinity"
  | .finite negative significand exponent =>
    let text := magnitudeText significand exponent
    String.ofList (if negative then '-' :: text else text)

end Strand.Decimal
