/-!
# Binary floating point, exactly

A 64-bit float is a sign and either a special value or a number `significand * 2 ^ exponent`. This
module goes from the bits to these parts and back, in natural numbers and integers only.
-/

set_option autoImplicit false

namespace Strand

/-- What the bits of a float mean. -/
inductive Binary64 where
  | nan
  | infinite (negative : Bool)
  /-- The number `± significand * 2 ^ exponent`. -/
  | finite (negative : Bool) (significand : Nat) (exponent : Int)
deriving DecidableEq, Inhabited, Repr

namespace Binary64

/-- The number of stored bits of a significand. -/
def fractionBits : Nat := 52

/-- The leading bit of a significand, which is stored only in the exponent. -/
def hiddenBit : Nat := Nat.pow 2 fractionBits

/-- The number of biased exponents; the last one marks the special values. -/
def exponentCount : Nat := 2048

/-- The bit of the sign. -/
def signBit : Nat := hiddenBit * exponentCount

/-- The exponent of the least positive float. -/
def minExponent : Int := -1074

/-- The parts of a bit pattern. A biased exponent of zero has no hidden leading bit. -/
def ofBits (bits : Nat) : Binary64 :=
  let negative := bits / signBit % 2 == 1
  let biased := bits / hiddenBit % exponentCount
  let fraction := bits % hiddenBit
  if biased == exponentCount - 1 then
    if fraction == 0 then infinite negative else nan
  else if biased == 0 then finite negative fraction minExponent
  else finite negative (fraction + hiddenBit) (minExponent + (biased - 1 : Nat))

def ofFloat (x : Float) : Binary64 := ofBits x.toBits.toNat

/-- The bits of `± significand * 2 ^ exponent`, for a significand below `2 ^ 53` and an exponent of at
least `minExponent`. The significand is moved up until its leading bit is the hidden one, or until
the exponent is the least one. -/
def toBits (negative : Bool) (significand : Nat) (exponent : Int) : Nat :=
  let sign := if negative then signBit else 0
  if significand == 0 then sign
  else
    let room := fractionBits - significand.log2
    let shift := min room (exponent - minExponent).toNat
    let moved := significand * Nat.pow 2 shift
    if moved < hiddenBit then sign + moved
    else sign + ((exponent - shift - minExponent).toNat + 1) * hiddenBit + (moved - hiddenBit)

/-- The float with the given sign and magnitude; see `toBits` for the range. -/
def toFloat (negative : Bool) (significand : Nat) (exponent : Int) : Float :=
  Float.ofBits (UInt64.ofNat (toBits negative significand exponent))

/-- The magnitude of a number without fractional part. -/
def integral? (significand : Nat) (exponent : Int) : Option Nat :=
  if 0 ≤ exponent then some (significand * Nat.pow 2 exponent.toNat)
  else
    let unit := Nat.pow 2 (-exponent).toNat
    if significand % unit == 0 then some (significand / unit) else none

end Binary64

end Strand
