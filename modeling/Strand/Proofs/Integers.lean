import Mathlib.Data.Int.ModEq
import Mathlib.Data.Rat.Floor
import Mathlib.Tactic.NormNum
import Strand.Arith.Binary

/-!
# Arithmetic on 64-bit integers

Sums, differences and products wrap around: of the 64-bit integers, the result is the one that is congruent
to the exact number modulo `2 ^ 64` (`Represents`). A division goes toward zero and the remainder has the sign
of the dividend (`Division`). Among all pairs with a divisor there is one whose exact quotient is no 64-bit
integer, the least integer divided by minus one; there the quotient wraps as well, and the remainder is zero.
Nothing faults but a division by zero (`Arith.integers_wrap_and_truncate`).
-/

set_option autoImplicit false

namespace Strand.Arith

/-! ## 1. Rounding toward zero -/

/-- A rational number without its fractional part: the nearest integer on the way to zero. -/
def truncate (x : ℚ) : ℤ := if 0 ≤ x then ⌊x⌋ else ⌈x⌉

theorem truncate_neg (x : ℚ) : truncate (-x) = -truncate x := by
  rcases lt_trichotomy x 0 with below | rfl | above
  · rw [truncate, truncate, if_pos (by linarith), if_neg (by linarith), Int.floor_neg]
  · simp [truncate]
  · rw [truncate, truncate, if_neg (by linarith), if_pos (by linarith), Int.ceil_neg]

theorem tdiv_eq_truncate (a b : ℤ) : a.tdiv b = truncate (a / b) := by
  have natural : ∀ m n : ℕ, (m : ℤ).tdiv n = truncate ((m : ℤ) / (n : ℤ)) := by
    intro m n
    rw [truncate, if_pos (by positivity), Int.tdiv_eq_ediv_of_nonneg (Int.natCast_nonneg m)]
    exact (Rat.floor_intCast_div_natCast m n).symm
  obtain ⟨m, rfl | rfl⟩ := a.eq_nat_or_neg <;> obtain ⟨n, rfl | rfl⟩ := b.eq_nat_or_neg
  · exact natural m n
  · rw [Int.tdiv_neg, natural, Int.cast_neg, div_neg, truncate_neg]
  · rw [Int.neg_tdiv, natural, Int.cast_neg, neg_div, truncate_neg]
  · rw [Int.neg_tdiv, Int.tdiv_neg, neg_neg, natural, Int.cast_neg, Int.cast_neg, neg_div_neg_eq]

/-! ## 2. Wrapping around -/

/-- Of all 64-bit integers, `n` and no other is congruent to an exact number modulo `2 ^ 64`. -/
def Represents (n : Int64) (exact : ℤ) : Prop :=
  ∀ m : Int64, m.toInt ≡ exact [ZMOD 2 ^ 64] ↔ m = n

theorem represents_of_toInt_eq {n : Int64} {exact : ℤ} (wrapped : n.toInt = exact.bmod (2 ^ 64)) :
    Represents n exact := by
  intro m
  constructor
  · intro congruent
    have congruent : m.toInt % ((2 ^ 64 : ℕ) : ℤ) = exact % ((2 ^ 64 : ℕ) : ℤ) := congruent
    have inside : m.toInt.bmod (2 ^ 64) = m.toInt := Int64.toInt_bmod m
    apply Int64.toInt_inj.mp
    rw [wrapped, ← inside, ← Int.emod_bmod, congruent, Int.emod_bmod]
  · rintro rfl
    show m.toInt % ((2 ^ 64 : ℕ) : ℤ) = exact % ((2 ^ 64 : ℕ) : ℤ)
    rw [wrapped, Int.bmod_emod]

theorem Represents.modEq {n : Int64} {exact : ℤ} (represents : Represents n exact) :
    n.toInt ≡ exact [ZMOD 2 ^ 64] :=
  (represents n).mpr rfl

theorem represents_add (a b : Int64) : Represents (a + b) (a.toInt + b.toInt) :=
  represents_of_toInt_eq (Int64.toInt_add a b)

theorem represents_sub (a b : Int64) : Represents (a - b) (a.toInt - b.toInt) :=
  represents_of_toInt_eq (Int64.toInt_sub a b)

theorem represents_mul (a b : Int64) : Represents (a * b) (a.toInt * b.toInt) :=
  represents_of_toInt_eq (Int64.toInt_mul a b)

/-- A quotient that is too large wraps like any other result. -/
theorem represents_div (a b : Int64) : Represents (a / b) (a.toInt.tdiv b.toInt) :=
  represents_of_toInt_eq (Int64.toInt_div a b)

/-! ## 3. Division -/

/-- The one pair whose exact quotient is no 64-bit integer. -/
def Overflows (a b : Int64) : Prop := a.toInt = -2 ^ 63 ∧ b.toInt = -1

/-- `q` and `r` are the quotient and the remainder of `a` and `b`. -/
structure Division (a b q r : Int64) : Prop where
  identity : a.toInt ≡ q.toInt * b.toInt + r.toInt [ZMOD 2 ^ 64]
  small : |r.toInt| < |b.toInt|
  sign : r.toInt = 0 ∨ r.toInt.sign = a.toInt.sign
  quotient : ¬Overflows a b → q.toInt = truncate (a.toInt / b.toInt)
  overflow : Overflows a b → q.toInt = -2 ^ 63 ∧ r.toInt = 0

/-- Quotient and remainder are the exact ones modulo `2 ^ 64`, so they give the dividend modulo `2 ^ 64`. -/
theorem division_identity (a b : Int64) :
    a.toInt ≡ (a / b).toInt * b.toInt + (a % b).toInt [ZMOD 2 ^ 64] := by
  calc a.toInt = a.toInt.tdiv b.toInt * b.toInt + a.toInt.tmod b.toInt := (Int.tdiv_mul_add_tmod ..).symm
    _ ≡ (a / b).toInt * b.toInt + (a % b).toInt [ZMOD 2 ^ 64] := by
      rw [Int64.toInt_mod]
      exact ((represents_div a b).modEq.symm.mul_right _).add_right _

theorem abs_tmod_lt (a : ℤ) {b : ℤ} (nonzero : b ≠ 0) : |a.tmod b| < |b| := by
  rw [Int.abs_eq_natAbs, Int.abs_eq_natAbs, Int.natAbs_tmod, Int.ofNat_lt]
  exact Nat.mod_lt _ (Int.natAbs_pos.mpr nonzero)

/-- The remainder of a division toward zero lies on the side of the dividend. -/
theorem sign_tmod (a b : ℤ) : a.tmod b = 0 ∨ (a.tmod b).sign = a.sign := by
  refine or_iff_not_imp_left.mpr fun nonzero => ?_
  rcases lt_trichotomy a 0 with below | rfl | above
  · have side := Int.tmod_nonneg b (Int.neg_nonneg_of_nonpos below.le)
    rw [Int.neg_tmod] at side
    rw [Int.sign_eq_neg_one_of_neg below, Int.sign_eq_neg_one_of_neg (by omega)]
  · exact absurd (Int.zero_tmod b) nonzero
  · have side := Int.tmod_nonneg b above.le
    rw [Int.sign_eq_one_of_pos above, Int.sign_eq_one_of_pos (by omega)]

/-- The quotient fits into 64 bits, unless the least integer is divided by minus one. -/
theorem toInt_div_of_fits {a b : Int64} (fits : ¬Overflows a b) : (a / b).toInt = a.toInt.tdiv b.toInt := by
  rw [Overflows, not_and_or] at fits
  rcases fits with notLeast | notMinusOne
  · exact Int64.toInt_div_of_ne_left a b fun least => notLeast (by rw [least]; decide)
  · exact Int64.toInt_div_of_ne_right a b fun minusOne => notMinusOne (by rw [minusOne]; decide)

theorem division_of_overflow {a b : Int64} (overflows : Overflows a b) :
    (a / b).toInt = -2 ^ 63 ∧ (a % b).toInt = 0 := by
  obtain ⟨least, minusOne⟩ := overflows
  rw [Int64.toInt_div, Int64.toInt_mod, least, minusOne]
  decide

theorem division (a : Int64) {b : Int64} (nonzero : b ≠ 0) : Division a b (a / b) (a % b) := by
  have nonzero : b.toInt ≠ 0 := fun zero => nonzero (Int64.toInt_inj.mp zero)
  refine ⟨division_identity a b, ?_, ?_, ?_, division_of_overflow⟩
  · rw [Int64.toInt_mod]
    exact abs_tmod_lt _ nonzero
  · rw [Int64.toInt_mod]
    exact sign_tmod _ _
  · intro fits
    rw [toInt_div_of_fits fits, tdiv_eq_truncate]

/-! ## 4. The operators -/

/-- Sums, differences and products of integers wrap around modulo `2 ^ 64`. Quotients and remainders are those
of a division toward zero; only the least integer divided by minus one wraps, and only a division by zero
faults. So it is whether the operator meets two integers in an expression whose operands are of type `Int` or
at a leaf of two arrays. -/
theorem integers_wrap_and_truncate (a b : Int64) :
    (∃ n, intOp .add a b = .ok (.int n) ∧ Represents n (a.toInt + b.toInt)) ∧
    (∃ n, intOp .sub a b = .ok (.int n) ∧ Represents n (a.toInt - b.toInt)) ∧
    (∃ n, intOp .mul a b = .ok (.int n) ∧ Represents n (a.toInt * b.toInt)) ∧
    (b ≠ 0 → ∃ q r, intOp .div a b = .ok (.int q) ∧ intOp .rem a b = .ok (.int r) ∧ Division a b q r) ∧
    (b = 0 → intOp .div a b = .error .divisionByZero ∧ intOp .rem a b = .error .moduloByZero) ∧
    (∀ p h op, binary p h op (.int a) (.int b) .int .int = Abort.ofFault ((intOp op a b).map .leaf)) ∧
    ∀ op, numericOp op false (.int a) (.int b) = intOp op a b := by
  refine ⟨⟨a + b, rfl, represents_add a b⟩, ⟨a - b, rfl, represents_sub a b⟩,
    ⟨a * b, rfl, represents_mul a b⟩, fun nonzero => ?_, ?_, fun p h op => ?_, fun op => rfl⟩
  · have checked : (b == 0) = false := by simpa using nonzero
    exact ⟨a / b, a % b, by simp [intOp, checked], by simp [intOp, checked], division a nonzero⟩
  · rintro rfl
    exact ⟨rfl, rfl⟩
  · cases op <;> rfl

example : intOp .div (-9223372036854775808) (-1) = .ok (.int (-9223372036854775808)) ∧
    intOp .rem (-7) 2 = .ok (.int (-1)) := ⟨rfl, rfl⟩

end Strand.Arith
