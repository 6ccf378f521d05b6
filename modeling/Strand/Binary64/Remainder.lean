import Strand.Binary64

/-!
# The remainder of two floats

The remainder that belongs to division toward zero. It is exact: with both operands written over the
smaller of their two exponents, it is the remainder of two natural numbers, which is at most the
dividend and less than the divisor and so needs no rounding. Its sign, also of a zero, is the sign
of the dividend.
-/

set_option autoImplicit false

namespace Strand.Binary64

/-- The remainder of `m₁ * 2 ^ e₁` and `m₂ * 2 ^ e₂`, over the smaller exponent. -/
def remainderMagnitude (m₁ : Nat) (e₁ : Int) (m₂ : Nat) (e₂ : Int) : Nat × Int :=
  let e := min e₁ e₂
  (m₁ * Nat.pow 2 (e₁ - e).toNat % (m₂ * Nat.pow 2 (e₂ - e).toNat), e)

/-- The remainder of a division toward zero. There is none for an infinite dividend or a zero
divisor; an infinite divisor leaves the dividend as it is. -/
def remainder (x y : Float) : Float :=
  match ofFloat x, ofFloat y with
  | .finite negative m₁ e₁, .finite _ m₂ e₂ =>
    if m₂ == 0 then 0.0 / 0.0
    else
      let (m, e) := remainderMagnitude m₁ e₁ m₂ e₂
      toFloat negative m e
  | .finite .., .infinite _ => x
  | _, _ => 0.0 / 0.0

end Strand.Binary64
