/-!
# The bits of a float as text

Sixteen hexadecimal digits. Every NaN is written as the same one.
-/

set_option autoImplicit false

namespace Strand.Binary64

/-- The value of a hexadecimal digit; a character that is none counts as zero. -/
def hexDigit (c : Char) : Nat :=
  if c.isDigit then c.toNat - '0'.toNat
  else if 'a' ≤ c ∧ c ≤ 'f' then c.toNat - 'a'.toNat + 10
  else if 'A' ≤ c ∧ c ≤ 'F' then c.toNat - 'A'.toNat + 10
  else 0

/-- The float with the given bits. -/
def ofHex (text : String) : Float :=
  Float.ofBits (UInt64.ofNat (text.toList.foldl (fun n c => n * 16 + hexDigit c) 0))

/-- The bits of a float. -/
def toHex (x : Float) : String :=
  if x.isNaN then "7ff8000000000000"
  else
    let digits := Nat.toDigits 16 x.toBits.toNat
    String.ofList (List.replicate (16 - digits.length) '0' ++ digits)

end Strand.Binary64
