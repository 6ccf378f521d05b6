import Mathlib.Algebra.Order.Field.Power
import Mathlib.Algebra.Order.Field.Rat
import Mathlib.Tactic.Linarith
import Mathlib.Tactic.NormNum
import Mathlib.Tactic.Positivity
import Mathlib.Tactic.Ring
import Strand.Binary64
import Strand.Decimal.FloatText

/-!
# Rounding to the nearest float

A number is read as the float that is nearest to it, and as the one with the even significand if two are
equally near. `RoundsTo` says this of all magnitudes that a float may have. There is no bound on the
exponent here: a number that is nearest to a magnitude beyond the largest float is too large for a float.

Main statements: a number rounds to one magnitude at most (`RoundsTo.unique`), and the decimal that is
picked for a float rounds to that float (`Decimal.Target.shortest_roundsTo`).
-/

set_option autoImplicit false

namespace Strand

namespace Binary64

/-! ## 1. Magnitudes -/

/-- The number `significand * 2 ^ exponent`. -/
def magnitude (significand : Nat) (exponent : Int) : ℚ := significand * 2 ^ exponent

/-- The form in which a float has a magnitude: with the hidden bit as the leading one, or with the least
exponent. -/
structure Canonical (significand : Nat) (exponent : Int) : Prop where
  bounded : significand < 2 * hiddenBit
  least : minExponent ≤ exponent
  normal : hiddenBit ≤ significand ∨ exponent = minExponent

/-- Of all magnitudes, this one is nearest to a number; of two equally near ones it is the even one. -/
def RoundsTo (q : ℚ) (significand : Nat) (exponent : Int) : Prop :=
  Canonical significand exponent ∧
  ∀ significand' exponent', Canonical significand' exponent' →
    (significand', exponent') ≠ (significand, exponent) →
    |q - magnitude significand exponent| < |q - magnitude significand' exponent'| ∨
    |q - magnitude significand exponent| = |q - magnitude significand' exponent'| ∧ significand % 2 = 0

variable {m m' i i' : Nat} {e e' : Int} {q : ℚ}

theorem hiddenBit_pos : 0 < hiddenBit := by decide

theorem two_zpow_pos (e : Int) : (0 : ℚ) < 2 ^ e := zpow_pos two_pos e

/-- Every magnitude is a multiple of the least one. -/
theorem magnitude_shift (m i : Nat) :
    magnitude m (minExponent + i) = ((m * 2 ^ i : Nat) : ℚ) * 2 ^ minExponent := by
  rw [magnitude, zpow_add₀ two_ne_zero, zpow_natCast]
  push_cast
  ring

theorem Canonical.exists_shift (c : Canonical m e) : ∃ i : Nat, e = minExponent + i := by
  obtain ⟨i, same⟩ := Int.le.dest c.least
  exact ⟨i, same.symm⟩

theorem Canonical.leads (c : Canonical m (minExponent + i)) : hiddenBit ≤ m ∨ i = 0 :=
  c.normal.imp_right fun same => by omega

theorem magnitude_lt_iff :
    magnitude m (minExponent + i) < magnitude m' (minExponent + i') ↔ m * 2 ^ i < m' * 2 ^ i' := by
  rw [magnitude_shift, magnitude_shift, mul_lt_mul_iff_of_pos_right (two_zpow_pos _), Nat.cast_lt]

theorem magnitude_le_iff :
    magnitude m (minExponent + i) ≤ magnitude m' (minExponent + i') ↔ m * 2 ^ i ≤ m' * 2 ^ i' := by
  rw [magnitude_shift, magnitude_shift, mul_le_mul_iff_of_pos_right (two_zpow_pos _), Nat.cast_le]

theorem magnitude_succ (m : Nat) (e : Int) : magnitude (m + 1) e = magnitude m e + 2 ^ e := by
  unfold magnitude
  push_cast
  ring

/-- Whatever its significand, a magnitude is below those that lead with the hidden bit at a larger
exponent. -/
theorem shift_lt (bounded : m' < 2 * hiddenBit) (less : i' < i) : m' * 2 ^ i' < hiddenBit * 2 ^ i := by
  obtain ⟨k, rfl⟩ := Nat.exists_eq_add_of_lt less
  calc m' * 2 ^ i' < 2 * hiddenBit * 2 ^ i' := Nat.mul_lt_mul_of_pos_right bounded (Nat.two_pow_pos i')
    _ = hiddenBit * 2 ^ (i' + 1) := by ring
    _ ≤ hiddenBit * 2 ^ (i' + k + 1) :=
      Nat.mul_le_mul_left _ (Nat.pow_le_pow_right two_pos (by omega))

/-- A magnitude is a multiple of the unit of any smaller exponent. -/
theorem magnitude_rescale (m i k : Nat) :
    magnitude m (minExponent + (i + k : Nat)) = magnitude (m * 2 ^ k) (minExponent + i) := by
  rw [magnitude_shift, magnitude_shift]
  congr 2
  ring

theorem magnitude_lt_same : magnitude m e < magnitude m' e ↔ m < m' := by
  rw [magnitude, magnitude, mul_lt_mul_iff_of_pos_right (two_zpow_pos _), Nat.cast_lt]

theorem magnitude_le_same : magnitude m e ≤ magnitude m' e ↔ m ≤ m' := by
  rw [magnitude, magnitude, mul_le_mul_iff_of_pos_right (two_zpow_pos _), Nat.cast_le]

/-- The next larger magnitude is a unit of the last place away. -/
theorem Canonical.add_unit_le (c : Canonical m e) (c' : Canonical m' e')
    (less : magnitude m e < magnitude m' e') : magnitude m e + 2 ^ e ≤ magnitude m' e' := by
  obtain ⟨i, rfl⟩ := c.exists_shift
  obtain ⟨i', rfl⟩ := c'.exists_shift
  rw [← magnitude_succ]
  rcases Nat.lt_or_ge i' i with down | up
  · have below := shift_lt c'.bounded down
    have leads := Nat.mul_le_mul_right (2 ^ i) (c.leads.resolve_right (by omega))
    have above := magnitude_lt_iff.mp less
    omega
  · obtain ⟨k, rfl⟩ := Nat.exists_eq_add_of_le up
    rw [magnitude_rescale] at less ⊢
    exact magnitude_le_same.mpr (magnitude_lt_same.mp less)

/-- A smaller magnitude is a unit away if its exponent is no smaller. -/
theorem Canonical.le_sub_of_le (c : Canonical m e) (c' : Canonical m' e')
    (less : magnitude m' e' < magnitude m e) (up : e ≤ e') : magnitude m' e' + 2 ^ e ≤ magnitude m e := by
  obtain ⟨i, rfl⟩ := c.exists_shift
  obtain ⟨i', rfl⟩ := c'.exists_shift
  obtain ⟨k, rfl⟩ := Nat.exists_eq_add_of_le (show i ≤ i' by omega)
  rw [magnitude_rescale] at less ⊢
  rw [← magnitude_succ]
  exact magnitude_le_same.mpr (magnitude_lt_same.mp less)

/-- So is every smaller magnitude, unless it is the hidden bit alone that is above it. -/
theorem Canonical.le_sub_unit (c : Canonical m e) (c' : Canonical m' e')
    (less : magnitude m' e' < magnitude m e) (wide : m ≠ hiddenBit ∨ e = minExponent) :
    magnitude m' e' + 2 ^ e ≤ magnitude m e := by
  rcases lt_or_ge e' e with down | up
  · have leads : hiddenBit ≤ m := c.normal.resolve_right (by have := c'.least; omega)
    have more : hiddenBit + 1 ≤ m :=
      Nat.lt_of_le_of_ne leads (wide.resolve_right (by have := c'.least; omega)).symm
    have below : magnitude m' e' < magnitude hiddenBit e := by
      obtain ⟨i, rfl⟩ := c.exists_shift
      obtain ⟨i', rfl⟩ := c'.exists_shift
      exact magnitude_lt_iff.mpr (shift_lt c'.bounded (by omega))
    calc magnitude m' e' + 2 ^ e ≤ magnitude hiddenBit e + 2 ^ e := add_le_add_left below.le _
      _ = magnitude (hiddenBit + 1) e := (magnitude_succ ..).symm
      _ ≤ magnitude m e := magnitude_le_same.mpr more
  · exact c.le_sub_of_le c' less up

/-- In any case it is half a unit away. -/
theorem Canonical.le_sub_half (c : Canonical m e) (c' : Canonical m' e')
    (less : magnitude m' e' < magnitude m e) (up : minExponent < e) :
    magnitude m' e' + 2 ^ (e - 1) ≤ magnitude m e := by
  rcases lt_or_ge e' e with down | up'
  · obtain ⟨i, rfl⟩ := c.exists_shift
    obtain ⟨i', rfl⟩ := c'.exists_shift
    obtain ⟨j, rfl⟩ := Nat.exists_eq_add_of_lt (show 0 < i by omega)
    have leads : hiddenBit ≤ m := c.leads.resolve_right (by omega)
    have half : minExponent + ((0 + j + 1 : Nat) : Int) - 1 = minExponent + (j : Int) := by omega
    have below : m' * 2 ^ i' ≤ (2 * hiddenBit - 1) * 2 ^ j :=
      Nat.mul_le_mul (Nat.le_sub_one_of_lt c'.bounded) (Nat.pow_le_pow_right two_pos (by omega))
    rw [half, Nat.zero_add, magnitude_rescale]
    calc magnitude m' (minExponent + i') + 2 ^ (minExponent + (j : Int))
        ≤ magnitude (2 * hiddenBit - 1) (minExponent + j) + 2 ^ (minExponent + (j : Int)) :=
          add_le_add_left (magnitude_le_iff.mpr below) _
      _ = magnitude (2 * hiddenBit) (minExponent + j) := (magnitude_succ ..).symm
      _ ≤ magnitude (m * 2 ^ 1) (minExponent + j) := magnitude_le_same.mpr (by omega)
  · have unit := c.le_sub_of_le c' less up'
    have half : (2 : ℚ) ^ (e - 1) ≤ 2 ^ e := zpow_le_zpow_right₀ one_le_two (by omega)
    linarith

/-- The distance to the next smaller magnitude. -/
def gapBelow (significand : Nat) (exponent : Int) : ℚ :=
  if significand = hiddenBit ∧ minExponent < exponent then 2 ^ (exponent - 1) else 2 ^ exponent

theorem Canonical.le_sub_gap (c : Canonical m e) (c' : Canonical m' e')
    (less : magnitude m' e' < magnitude m e) : magnitude m' e' + gapBelow m e ≤ magnitude m e := by
  unfold gapBelow
  split
  · next narrow => exact c.le_sub_half c' less narrow.2
  · next wide =>
    refine c.le_sub_unit c' less ?_
    have := c.least
    omega

/-- A magnitude has one form. -/
theorem Canonical.unique (c : Canonical m e) (c' : Canonical m' e')
    (same : magnitude m e = magnitude m' e') : m = m' ∧ e = e' := by
  obtain ⟨i, rfl⟩ := c.exists_shift
  obtain ⟨i', rfl⟩ := c'.exists_shift
  rcases Nat.lt_trichotomy i i' with less | rfl | less
  · have below := magnitude_lt_iff.mpr (shift_lt c.bounded less)
    have leads : hiddenBit ≤ m' := c'.leads.resolve_right (by omega)
    exact absurd same (below.trans_le (magnitude_le_same.mpr leads)).ne
  · refine ⟨?_, rfl⟩
    exact Nat.le_antisymm (magnitude_le_same.mp same.le) (magnitude_le_same.mp same.ge)
  · have below := magnitude_lt_iff.mpr (shift_lt c'.bounded less)
    have leads : hiddenBit ≤ m := c.leads.resolve_right (by omega)
    exact absurd same (below.trans_le (magnitude_le_same.mpr leads)).ne'

/-! ## 2. The nearest magnitude -/

/-- A number below the middle of two others is nearer to the smaller one. -/
theorem abs_sub_lt_of_lt_middle {q v w : ℚ} (less : v < w) (middle : 2 * q < v + w) : |q - v| < |q - w| := by
  refine lt_of_lt_of_le (abs_lt.mpr ⟨?_, ?_⟩) ((le_abs_self (w - q)).trans_eq (abs_sub_comm w q)) <;>
    linarith

theorem abs_sub_lt_of_middle_lt {q v w : ℚ} (less : w < v) (middle : v + w < 2 * q) : |q - v| < |q - w| := by
  refine lt_of_lt_of_le (abs_lt.mpr ⟨?_, ?_⟩) (le_abs_self (q - w)) <;> linarith

/-- The middle of two numbers is as far from the one as from the other. -/
theorem abs_sub_eq_of_middle {q v w : ℚ} (middle : 2 * q = v + w) : |q - v| = |q - w| := by
  rw [show q - v = -(q - w) by linarith, abs_neg]

/-- Whoever is no farther from a magnitude than half way to each neighbour rounds to it; half way itself
counts for an even significand. -/
theorem RoundsTo.of_between (c : Canonical m e) (low : 2 * magnitude m e - gapBelow m e ≤ 2 * q)
    (high : 2 * q ≤ 2 * magnitude m e + 2 ^ e)
    (inside : m % 2 ≠ 0 → 2 * magnitude m e - gapBelow m e < 2 * q ∧ 2 * q < 2 * magnitude m e + 2 ^ e) :
    RoundsTo q m e := by
  refine ⟨c, fun m' e' c' other => ?_⟩
  rcases lt_trichotomy (magnitude m e) (magnitude m' e') with less | same | less
  · have next := c.add_unit_le c' less
    rcases lt_or_eq_of_le (show 2 * q ≤ magnitude m e + magnitude m' e' by linarith) with middle | middle
    · exact .inl (abs_sub_lt_of_lt_middle less middle)
    · refine .inr ⟨abs_sub_eq_of_middle middle, ?_⟩
      by_contra odd
      linarith [(inside odd).2]
  · exact absurd (Prod.ext_iff.mpr (c'.unique c same.symm)) other
  · have previous := c.le_sub_gap c' less
    rcases lt_or_eq_of_le (show magnitude m e + magnitude m' e' ≤ 2 * q by linarith) with middle | middle
    · exact .inl (abs_sub_lt_of_middle_lt less middle)
    · refine .inr ⟨abs_sub_eq_of_middle middle.symm, ?_⟩
      by_contra odd
      linarith [(inside odd).1]

/-- A magnitude rounds to itself. -/
theorem RoundsTo.self (c : Canonical m e) : RoundsTo (magnitude m e) m e := by
  refine ⟨c, fun m' e' c' other => .inl ?_⟩
  rw [sub_self, abs_zero, abs_pos, sub_ne_zero]
  exact fun same => other (Prod.ext_iff.mpr (c'.unique c same.symm))

/-- Between two magnitudes that are equally near there would be an odd one that is nearer. -/
theorem RoundsTo.not_tied (rounds : RoundsTo q m e) (even : m % 2 = 0) (even' : m' % 2 = 0)
    (c' : Canonical m' e') (tied : |q - magnitude m e| = |q - magnitude m' e'|) :
    ¬ magnitude m e < magnitude m' e' := by
  intro less
  obtain ⟨c, nearest⟩ := rounds
  have between : Canonical (m + 1) e := by
    refine ⟨?_, c.least, c.normal.imp_left fun leads => by omega⟩
    have := c.bounded
    omega
  have next : magnitude (m + 1) e ≤ magnitude m' e' := magnitude_succ m e ▸ c.add_unit_le c' less
  have past : magnitude m e < magnitude (m + 1) e := magnitude_lt_same.mpr (Nat.lt_succ_self m)
  have middle : 2 * q = magnitude m e + magnitude m' e' := by
    rcases abs_eq_abs.mp tied with same | same <;> linarith
  rcases next.lt_or_eq with before | same
  · have nearer : |q - magnitude (m + 1) e| < |q - magnitude m e| := by
      refine (abs_lt.mpr ⟨?_, ?_⟩).trans_le (le_abs_self _) <;> linarith
    rcases nearest (m + 1) e between (by simp) with far | ⟨far, -⟩ <;> linarith
  · obtain ⟨rfl, -⟩ := between.unique c' same
    omega

/-- A number rounds to one magnitude at most. -/
theorem RoundsTo.unique (rounds : RoundsTo q m e) (rounds' : RoundsTo q m' e') : m = m' ∧ e = e' := by
  by_contra differ
  have other : (m, e) ≠ (m', e') := fun same => differ (Prod.ext_iff.mp same)
  have apart : magnitude m e ≠ magnitude m' e' := fun same => differ (rounds.1.unique rounds'.1 same)
  obtain ⟨tied, even, even'⟩ : |q - magnitude m e| = |q - magnitude m' e'| ∧ m % 2 = 0 ∧ m' % 2 = 0 := by
    rcases rounds.2 m' e' rounds'.1 other.symm with near | ⟨same, even⟩ <;>
      rcases rounds'.2 m e rounds.1 other with near' | ⟨same', even'⟩
    · exact absurd near near'.not_gt
    · exact absurd same' near.ne'
    · exact absurd same near'.ne'
    · exact ⟨same, even, even'⟩
  rcases lt_or_gt_of_ne apart with less | less
  · exact rounds.not_tied even even' rounds'.1 tied less
  · exact rounds'.not_tied even' even rounds.1 tied.symm less

end Binary64

/-! ## 3. The decimal that is picked -/

namespace Decimal

/-- The number that a decimal stands for. -/
def value (d : Decimal) : ℚ := d.digits * 10 ^ d.exponent

open Binary64

/-- A power with a negative exponent, times what clears its denominator. -/
theorem zpow_mul_pow_toNat (b : ℚ) (nonzero : b ≠ 0) (k : Int) :
    b ^ k * b ^ (-k).toNat = b ^ k.toNat := by
  rw [← zpow_natCast, ← zpow_natCast, ← zpow_add₀ nonzero]
  congr 1
  omega

namespace Target

variable {t : Target} {m : Nat} {e k : Int} {d : Nat}

/-- What clears the denominators of a grid and of quarter units. -/
theorem cleared_pos (t : Target) (k : Int) :
    (0 : ℚ) < 10 ^ (-k).toNat * 2 ^ (-(t.exponent - 2)).toNat := by
  positivity

theorem mul_gridUnit (t : Target) (k : Int) (d : Nat) :
    ((d * t.gridUnit k : Nat) : ℚ) =
      d * 10 ^ k * (10 ^ (-k).toNat * 2 ^ (-(t.exponent - 2)).toNat) := by
  have ten := zpow_mul_pow_toNat 10 (by norm_num) k
  have turned : (2 - t.exponent).toNat = (-(t.exponent - 2)).toNat := by omega
  simp only [gridUnit, turned, Nat.pow_eq]
  push_cast
  rw [← ten]
  ring

theorem mul_scale (t : Target) (k : Int) (n : Nat) :
    ((n * t.scale k : Nat) : ℚ) =
      n * 2 ^ (t.exponent - 2) * (10 ^ (-k).toNat * 2 ^ (-(t.exponent - 2)).toNat) := by
  have two := zpow_mul_pow_toNat 2 two_ne_zero (t.exponent - 2)
  simp only [scale, Nat.pow_eq]
  push_cast
  rw [← two]
  ring

theorem scale_le_iff {n : Nat} : n * t.scale k ≤ d * t.gridUnit k ↔
    (n : ℚ) * 2 ^ (t.exponent - 2) ≤ d * 10 ^ k := by
  rw [← mul_le_mul_iff_of_pos_right (cleared_pos t k), ← mul_scale, ← mul_gridUnit, Nat.cast_le]

theorem le_scale_iff {n : Nat} : d * t.gridUnit k ≤ n * t.scale k ↔
    (d : ℚ) * 10 ^ k ≤ n * 2 ^ (t.exponent - 2) := by
  rw [← mul_le_mul_iff_of_pos_right (cleared_pos t k), ← mul_scale, ← mul_gridUnit, Nat.cast_le]

/-- A point in the interval lies between its ends, and strictly so for an odd significand. -/
theorem contains_bounds (inside : t.contains k d = true) :
    ((t.lower : ℚ) * 2 ^ (t.exponent - 2) ≤ d * 10 ^ k ∧
      (d : ℚ) * 10 ^ k ≤ t.upper * 2 ^ (t.exponent - 2)) ∧
    (t.significand % 2 ≠ 0 → (t.lower : ℚ) * 2 ^ (t.exponent - 2) < d * 10 ^ k ∧
      (d : ℚ) * 10 ^ k < t.upper * 2 ^ (t.exponent - 2)) := by
  by_cases even : t.significand % 2 = 0
  · obtain ⟨low, high⟩ : t.lower * t.scale k ≤ d * t.gridUnit k ∧ d * t.gridUnit k ≤ t.upper * t.scale k := by
      simpa [contains, endsIncluded, even] using inside
    exact ⟨⟨scale_le_iff.mp low, le_scale_iff.mp high⟩, fun odd => absurd even odd⟩
  · obtain ⟨low, high⟩ : t.lower * t.scale k < d * t.gridUnit k ∧ d * t.gridUnit k < t.upper * t.scale k := by
      simpa [contains, endsIncluded, even] using inside
    have low := (lt_iff_lt_of_le_iff_le le_scale_iff).mp low
    have high := (lt_iff_lt_of_le_iff_le scale_le_iff).mp high
    exact ⟨⟨low.le, high.le⟩, fun _ => ⟨low, high⟩⟩

/-- The point that a grid offers lies in the interval. -/
theorem contains_of_onGrid {found : Decimal} (offered : t.onGrid? k = some found) :
    found.exponent = k ∧ t.contains k found.digits = true ∧ 0 < found.digits := by
  simp only [onGrid?] at offered
  split at offered
  · next below =>
    cases offered
    have fits := (Bool.and_eq_true_iff.mp below).1
    obtain ⟨some_, inside⟩ := Bool.and_eq_true_iff.mp fits
    exact ⟨rfl, inside, Nat.pos_of_ne_zero (by simpa using some_)⟩
  · split at offered
    · next above =>
      cases offered
      exact ⟨rfl, above, Nat.succ_pos _⟩
    · cases offered

/-- The ends of the interval are half way to the neighbours. -/
theorem ends_target (positive : 0 < m) :
    2 * (((target m e).lower : ℚ) * 2 ^ (e - 2)) = 2 * magnitude m e - gapBelow m e ∧
    2 * (((target m e).upper : ℚ) * 2 ^ (e - 2)) = 2 * magnitude m e + 2 ^ e := by
  have unit : (2 : ℚ) ^ e = 4 * 2 ^ (e - 2) := by
    rw [show e = e - 2 + 2 by omega, zpow_add₀ two_ne_zero, show e - 2 + 2 - 2 = e - 2 by omega]
    norm_num [mul_comm]
  have half : (2 : ℚ) ^ (e - 1) = 2 * 2 ^ (e - 2) := by
    rw [show e - 1 = e - 2 + 1 by omega, zpow_add_one₀ two_ne_zero, mul_comm]
  have low : ((target m e).lower : ℚ) = 4 * m - (if m = hiddenBit ∧ minExponent < e then 1 else 2) := by
    by_cases narrow : m = hiddenBit ∧ minExponent < e
    · have lower : (target m e).lower = 4 * m - 1 := by simp [target, Target.lower, Target.center, narrow]
      rw [lower, if_pos narrow, Nat.cast_sub (by omega)]
      push_cast
      rfl
    · have lower : (target m e).lower = 4 * m - 2 := by simp [target, Target.lower, Target.center, narrow]
      rw [lower, if_neg narrow, Nat.cast_sub (by omega)]
      push_cast
      rfl
  refine ⟨?_, ?_⟩
  · rw [low, magnitude, gapBelow, half, unit]
    split <;> ring
  · have high : ((target m e).upper : ℚ) = 4 * m + 2 := by simp [target, Target.upper, Target.center]
    rw [high, magnitude, unit]
    ring

/-- The points in the interval round to the number. -/
theorem roundsTo_of_contains (c : Canonical m e) (positive : 0 < m)
    (inside : (target m e).contains k d = true) : RoundsTo (d * 10 ^ k) m e := by
  have ⟨⟨low, high⟩, strict⟩ := contains_bounds inside
  have ⟨lower, upper⟩ := ends_target (e := e) positive
  simp only [target] at low high strict lower upper
  refine .of_between c (by linarith) (by linarith) fun odd => ?_
  obtain ⟨low, high⟩ := strict odd
  exact ⟨by linarith, by linarith⟩

/-- The number itself, with all its digits. -/
theorem value_exact (m : Nat) (e : Int) : (target m e).exact.value = magnitude m e := by
  have two : (2 : ℚ) ^ e * 2 ^ (-e).toNat = 2 ^ e.toNat := zpow_mul_pow_toNat 2 two_ne_zero e
  by_cases whole : 0 ≤ e
  · have down : (-e).toNat = 0 := by omega
    rw [down, pow_zero, mul_one] at two
    simp [Target.exact, target, value, magnitude, whole, two]
  · have up : e.toNat = 0 := by omega
    have five := zpow_mul_pow_toNat 5 (by norm_num) e
    rw [up, pow_zero] at five
    have ten : (10 : ℚ) ^ e = 2 ^ e * 5 ^ e := by rw [← mul_zpow]; norm_num
    simp only [Target.exact, target, value, magnitude, whole, if_false, Nat.pow_eq]
    push_cast
    calc (m : ℚ) * 5 ^ (-e).toNat * 10 ^ e
        = m * 2 ^ e * (5 ^ e * 5 ^ (-e).toNat) := by rw [ten]; ring
      _ = m * 2 ^ e := by rw [five, mul_one]

theorem exact_positive (positive : 0 < m) (e : Int) : 0 < (target m e).exact.digits := by
  unfold Target.exact
  split
  · exact Nat.mul_pos positive (Nat.two_pow_pos _)
  · exact Nat.mul_pos positive (Nat.pow_pos (by decide))

/-- The decimal that is picked for a magnitude rounds to it. -/
theorem shortest_roundsTo (c : Canonical m e) (positive : 0 < m) :
    RoundsTo (target m e).shortest.value m e ∧ 0 < (target m e).shortest.digits := by
  unfold shortest
  cases found : (List.range gridCount).findSome? fun (i : Nat) =>
      (target m e).onGrid? ((target m e).topExponent - i) with
  | none => exact ⟨(value_exact m e).symm ▸ .self c, exact_positive positive e⟩
  | some decimal =>
    obtain ⟨i, -, offered⟩ := List.exists_of_findSome?_eq_some found
    obtain ⟨exponent, inside, positive'⟩ := contains_of_onGrid offered
    have rounds := roundsTo_of_contains c positive inside
    rw [← exponent] at rounds
    exact ⟨rounds, positive'⟩

end Target

end Decimal

end Strand
