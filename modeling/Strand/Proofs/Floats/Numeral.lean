import Mathlib.Algebra.Order.Field.Power
import Mathlib.Algebra.Order.Field.Rat
import Mathlib.Tactic.NormNum
import Mathlib.Tactic.Positivity
import Mathlib.Tactic.Ring
import Strand.Decimal.FloatText

/-!
# Decimal numerals

A numeral is an optional minus sign, digits on both sides of a point, and maybe an `E` with an exponent.
`Numeral.chars` writes one and `Numeral.parse?` reads one. Main statement: what is read is what is written
like that, and nothing else (`Numeral.parse?_eq_some_iff`), so a text is one numeral at most.

The positional and the scientific notation of a decimal are numerals, and they stand for it
(`positional_stands`, `scientific_stands`).
-/

set_option autoImplicit false

namespace Strand.Decimal

/-! ## 1. Digits -/

/-- At least one digit, and nothing but digits. -/
structure IsDigits (chars : List Char) : Prop where
  some_ : chars ≠ []
  all : ∀ c ∈ chars, c.isDigit = true

/-- The number that digits stand for. -/
def ofDigits (digits : List Char) : Nat := Nat.ofDigitChars 10 digits 0

theorem isDigits_toDigits (n : Nat) : IsDigits (Nat.toDigits 10 n) :=
  ⟨Nat.toDigits_ne_nil, fun _ member => Nat.isDigit_of_mem_toDigits (by decide) (by decide) member⟩

@[simp] theorem ofDigits_toDigits (n : Nat) : ofDigits (Nat.toDigits 10 n) = n :=
  Nat.ofDigitChars_ten_toDigits

/-- Zeros before the digits change nothing. -/
theorem ofDigits_zeros_append (zeros : Nat) (digits : List Char) :
    ofDigits (List.replicate zeros '0' ++ digits) = ofDigits digits := by
  simp [ofDigits, Nat.ofDigitChars_append, Nat.ofDigitChars_replicate_zero]

/-- Zeros after the digits multiply by powers of ten. -/
theorem ofDigits_append_zeros (zeros : Nat) (digits : List Char) :
    ofDigits (digits ++ List.replicate zeros '0') = 10 ^ zeros * ofDigits digits := by
  simp [ofDigits, Nat.ofDigitChars_append, Nat.ofDigitChars_replicate_zero]

theorem IsDigits.append {front back : List Char} (h : IsDigits front) (all : ∀ c ∈ back, c.isDigit = true) :
    IsDigits (front ++ back) :=
  ⟨by simp [h.some_], List.forall_mem_append.mpr ⟨h.all, all⟩⟩

theorem isDigit_of_mem_zeros {zeros : Nat} {c : Char} (member : c ∈ List.replicate zeros '0') :
    c.isDigit = true := by
  rw [List.eq_of_mem_replicate member]
  rfl

/-- The first digit of a number is no zero. -/
theorem head_toDigits {n : Nat} (positive : 0 < n) :
    ∃ first rest, Nat.toDigits 10 n = first :: rest ∧ first ≠ '0' := by
  induction n using Nat.strongRecOn with
  | ind n ih =>
    by_cases small : n < 10
    · have leads : ∀ n < 10, 0 < n → n.digitChar ≠ '0' := by decide
      exact ⟨n.digitChar, [], Nat.toDigits_of_lt_base small, leads n small positive⟩
    · obtain ⟨first, rest, digits, leads⟩ := ih (n / 10) (by omega) (by omega)
      refine ⟨first, rest ++ [(n % 10).digitChar], ?_, leads⟩
      rw [Nat.toDigits_of_base_le (by decide) (by omega), digits]
      rfl

/-! ## 2. Numerals -/

structure Numeral where
  negative : Bool
  /-- The digits before the point. -/
  whole : List Char
  /-- The digits after the point. -/
  fraction : List Char
  /-- The sign and the digits of the exponent. -/
  exponent : Option (Bool × List Char)
deriving DecidableEq

namespace Numeral

structure WellFormed (n : Numeral) : Prop where
  whole : IsDigits n.whole
  fraction : IsDigits n.fraction
  exponent : ∀ negative digits, n.exponent = some (negative, digits) → IsDigits digits

def signed (negative : Bool) (chars : List Char) : List Char := if negative then '-' :: chars else chars

def exponentChars : Option (Bool × List Char) → List Char
  | none => []
  | some (negative, digits) => 'E' :: signed negative digits

/-- A numeral as it is written. -/
def chars (n : Numeral) : List Char :=
  signed n.negative (n.whole ++ '.' :: (n.fraction ++ exponentChars n.exponent))

/-- The power of ten that an exponent stands for. -/
def power : Option (Bool × List Char) → Int
  | none => 0
  | some (negative, digits) => if negative then -(ofDigits digits : Int) else ofDigits digits

/-- The number that a numeral stands for, without its sign. -/
def value (n : Numeral) : ℚ :=
  ofDigits (n.whole ++ n.fraction) / 10 ^ n.fraction.length * 10 ^ power n.exponent

/-! ### Reading -/

def readSign : List Char → Bool × List Char
  | '-' :: rest => (true, rest)
  | rest => (false, rest)

/-- Reads what follows the digits after the point, to the end. -/
def readExponent? : List Char → Option (Option (Bool × List Char))
  | [] => some none
  | 'E' :: rest =>
    let (negative, digits) := readSign rest
    if digits ≠ [] ∧ digits.all Char.isDigit then some (some (negative, digits)) else none
  | _ => none

/-- Reads a numeral, with nothing before it and nothing after it. -/
def parse? (text : List Char) : Option Numeral :=
  let (negative, rest) := readSign text
  let whole := rest.takeWhile Char.isDigit
  match rest.dropWhile Char.isDigit with
  | '.' :: rest =>
    let fraction := rest.takeWhile Char.isDigit
    if whole ≠ [] ∧ fraction ≠ [] then
      (readExponent? (rest.dropWhile Char.isDigit)).map fun exponent => ⟨negative, whole, fraction, exponent⟩
    else none
  | _ => none

theorem readSign_signed (negative : Bool) {digits : List Char} (h : IsDigits digits) (rest : List Char) :
    readSign (signed negative (digits ++ rest)) = (negative, digits ++ rest) := by
  obtain ⟨some_, all⟩ := h
  cases negative with
  | true => rfl
  | false =>
    cases digits with
    | nil => exact absurd rfl some_
    | cons first digits =>
      have digit := all first List.mem_cons_self
      simp only [signed, Bool.false_eq_true, if_false, List.cons_append, readSign]
      split
      · next rest' same =>
        cases same
        cases digit
      · rfl

theorem signed_readSign (chars : List Char) : signed (readSign chars).1 (readSign chars).2 = chars := by
  unfold readSign
  split <;> rfl

theorem takeWhile_digits {digits : List Char} (h : IsDigits digits) {stop : Char}
    (stops : stop.isDigit = false) (rest : List Char) :
    (digits ++ stop :: rest).takeWhile Char.isDigit = digits ∧
      (digits ++ stop :: rest).dropWhile Char.isDigit = stop :: rest := by
  rw [List.takeWhile_append_of_pos h.all, List.dropWhile_append_of_pos h.all,
    List.takeWhile_cons_of_neg (by simp [stops]), List.dropWhile_cons_of_neg (by simp [stops]),
    List.append_nil]
  exact ⟨rfl, rfl⟩

theorem takeWhile_fraction {fraction : List Char} (h : IsDigits fraction)
    (exponent : Option (Bool × List Char)) :
    (fraction ++ exponentChars exponent).takeWhile Char.isDigit = fraction ∧
      (fraction ++ exponentChars exponent).dropWhile Char.isDigit = exponentChars exponent := by
  cases exponent with
  | none =>
    rw [List.takeWhile_append_of_pos h.all, List.dropWhile_append_of_pos h.all]
    exact ⟨List.append_nil _, rfl⟩
  | some exponent => exact takeWhile_digits h rfl _

theorem isDigits_takeWhile {chars : List Char} (some_ : chars.takeWhile Char.isDigit ≠ []) :
    IsDigits (chars.takeWhile Char.isDigit) :=
  ⟨some_, List.all_eq_true.mp List.all_takeWhile⟩

theorem readExponent?_eq_some_iff {text : List Char} {exponent : Option (Bool × List Char)} :
    readExponent? text = some exponent ↔
      (∀ negative digits, exponent = some (negative, digits) → IsDigits digits) ∧
        exponentChars exponent = text := by
  constructor
  · intro read
    unfold readExponent? at read
    split at read
    · cases read
      exact ⟨nofun, rfl⟩
    · next rest =>
      split at read
      next negative digits sign =>
      split at read
      · next fine =>
        cases read
        refine ⟨?_, ?_⟩
        · rintro _ _ ⟨⟩
          exact ⟨fine.1, by simpa using fine.2⟩
        · have back := signed_readSign rest
          rw [sign] at back
          exact congrArg ('E' :: ·) back
      · cases read
    · cases read
  · rintro ⟨fine, rfl⟩
    cases exponent with
    | none => rfl
    | some exponent =>
      obtain ⟨negative, digits⟩ := exponent
      have digits_ := fine negative digits rfl
      have sign := readSign_signed negative digits_ []
      rw [List.append_nil] at sign
      have all : digits.all Char.isDigit = true := List.all_eq_true.mpr digits_.all
      simp only [exponentChars, readExponent?, sign, all, digits_.some_, ne_eq, not_false_eq_true, and_self,
        if_true]

/-- What is read is a numeral that is written like that. -/
theorem parse?_eq_some_iff {text : List Char} {n : Numeral} :
    parse? text = some n ↔ n.WellFormed ∧ n.chars = text := by
  constructor
  · intro read
    unfold parse? at read
    split at read
    next negative rest sign =>
    simp only at read
    split at read
    · next tail point =>
      split at read
      · next fine =>
        obtain ⟨exponent, ends, rfl⟩ := Option.map_eq_some_iff.mp read
        obtain ⟨exponent_, back⟩ := readExponent?_eq_some_iff.mp ends
        refine ⟨⟨isDigits_takeWhile fine.1, isDigits_takeWhile fine.2, exponent_⟩, ?_⟩
        have whole := List.takeWhile_append_dropWhile (p := Char.isDigit) (l := rest)
        have fraction := List.takeWhile_append_dropWhile (p := Char.isDigit) (l := tail)
        have front := signed_readSign text
        rw [sign] at front
        simp only [chars, back, fraction, ← point, whole, front]
      · cases read
    · cases read
  · rintro ⟨⟨whole, fraction, exponent⟩, rfl⟩
    obtain ⟨negative, whole', fraction', exponent'⟩ := n
    have ends := readExponent?_eq_some_iff.mpr ⟨exponent, rfl⟩
    have sign := readSign_signed negative whole ('.' :: (fraction' ++ exponentChars exponent'))
    have point := takeWhile_digits whole (show Char.isDigit '.' = false from rfl)
      (fraction' ++ exponentChars exponent')
    have rest := takeWhile_fraction fraction exponent'
    simp only [chars, parse?, sign, point.1, point.2, rest.1, rest.2, ends, whole.some_, fraction.some_,
      ne_eq, not_false_eq_true, and_self, if_true, Option.map_some]

end Numeral

/-! ## 3. Notations -/

open Numeral

theorem div_ten_pow (q : ℚ) (places : Nat) : q / 10 ^ places = q * 10 ^ (-(places : Int)) := by
  rw [zpow_neg, zpow_natCast, div_eq_mul_inv]

theorem isDigits_zero : IsDigits ['0'] := ⟨by simp, by simp⟩

/-- A whole number, with a zero after the point. -/
theorem whole_stands (whole : Nat) :
    ∃ n : Numeral, n.WellFormed ∧ n.chars = Nat.toDigits 10 whole ++ ['.', '0'] ∧ n.negative = false ∧
      n.exponent = none ∧ n.value = whole := by
  refine ⟨⟨false, Nat.toDigits 10 whole, ['0'], none⟩, ⟨isDigits_toDigits whole, isDigits_zero, nofun⟩,
    rfl, rfl, rfl, ?_⟩
  have ten : ofDigits (Nat.toDigits 10 whole ++ ['0']) = 10 ^ 1 * whole := by
    rw [← ofDigits_toDigits whole, ← ofDigits_append_zeros, ofDigits_toDigits]
    rfl
  simp [Numeral.value, ten, power]

/-- Digits, with the point before them, among them or after them. -/
theorem positional_stands {digits : List Char} (h : IsDigits digits) (point : Int) :
    ∃ n : Numeral, n.WellFormed ∧ n.chars = positional digits point ∧ n.negative = false ∧
      n.exponent = none ∧ n.value = ofDigits digits * 10 ^ (point - digits.length) := by
  rcases le_or_gt point 0 with before | after
  · obtain ⟨zeros, rfl⟩ := Int.exists_eq_neg_ofNat before
    have fraction : IsDigits (List.replicate zeros '0' ++ digits) :=
      ⟨by simp [h.some_], List.forall_mem_append.mpr ⟨fun _ => isDigit_of_mem_zeros, h.all⟩⟩
    refine ⟨⟨false, ['0'], _, none⟩, ⟨isDigits_zero, fraction, nofun⟩, ?_, rfl, rfl, ?_⟩
    · simp [chars, signed, exponentChars, positional]
    · have same : ofDigits ('0' :: (List.replicate zeros '0' ++ digits)) = ofDigits digits :=
        ofDigits_zeros_append (zeros + 1) digits
      simp only [Numeral.value, List.singleton_append, same, power, zpow_zero, mul_one, div_ten_pow]
      congr 2
      simp
      ring
  · obtain ⟨places, rfl⟩ := Int.eq_ofNat_of_zero_le after.le
    have written : positional digits places = digits.take places ++
        List.replicate (places - digits.length) '0' ++
        '.' :: (if (digits.drop places).isEmpty then ['0'] else digits.drop places) := by
      simp [positional, Nat.pos_iff_ne_zero.mp (Int.natCast_pos.mp after)]
    rw [written]
    rcases Nat.lt_or_ge places digits.length with inside | beyond
    · have whole : IsDigits (digits.take places) :=
        ⟨by simp [h.some_]; omega, fun c member => h.all c (List.mem_of_mem_take member)⟩
      have fraction : IsDigits (digits.drop places) :=
        ⟨by simp; omega, fun c member => h.all c (List.mem_of_mem_drop member)⟩
      refine ⟨⟨false, _, _, none⟩, ⟨whole, fraction, nofun⟩, ?_, rfl, rfl, ?_⟩
      · have padding : places - digits.length = 0 := by omega
        simp [chars, signed, exponentChars, padding, fraction.some_]
      · simp only [Numeral.value, List.take_append_drop, power, zpow_zero, mul_one, div_ten_pow,
          List.length_drop]
        congr 2
        omega
    · have whole : IsDigits (digits ++ List.replicate (places - digits.length) '0') :=
        h.append fun _ => isDigit_of_mem_zeros
      refine ⟨⟨false, _, ['0'], none⟩, ⟨whole, isDigits_zero, nofun⟩, ?_, rfl, rfl, ?_⟩
      · simp [chars, signed, exponentChars, beyond]
      · have same : ofDigits (digits ++ List.replicate (places - digits.length) '0' ++ ['0']) =
            10 ^ (places - digits.length + 1) * ofDigits digits := by
          rw [← ofDigits_append_zeros, List.append_assoc, ← List.replicate_succ']
        have power_ : (10 : ℚ) ^ ((places : Int) - digits.length) = 10 ^ (places - digits.length) := by
          rw [← zpow_natCast, Nat.cast_sub beyond]
        simp only [Numeral.value, same, power, zpow_zero, mul_one, power_, List.length_singleton]
        push_cast
        ring

/-- A number with its sign, as it is written. -/
theorem toList_toString (i : Int) :
    (toString i).toList = signed (decide (i < 0)) (Nat.toDigits 10 i.natAbs) := by
  cases i with
  | ofNat n =>
    rw [show toString (Int.ofNat n) = n.repr from rfl, Nat.toList_repr]
    rfl
  | negSucc n =>
    rw [show toString (Int.negSucc n) = "-" ++ (n + 1).repr from rfl, String.toList_append,
      Nat.toList_repr, decide_eq_true (Int.negSucc_lt_zero n)]
    rfl

theorem power_toDigits (i : Int) : power (some (decide (i < 0), Nat.toDigits 10 i.natAbs)) = i := by
  simp only [power, ofDigits_toDigits, decide_eq_true_eq]
  split
  · next negative => rw [Int.ofNat_natAbs_of_nonpos negative.le, neg_neg]
  · next positive => exact Int.natAbs_of_nonneg (not_lt.mp positive)

/-- One digit before the point, and the power of ten that moves the point there: the scientific
notation. -/
theorem scientific_stands {first : Char} {rest : List Char} (h : IsDigits (first :: rest)) (point : Int) :
    ∃ n : Numeral, n.WellFormed ∧ n.chars = scientific (first :: rest) point ∧ n.negative = false ∧
      n.whole = [first] ∧ n.exponent.isSome ∧
      n.value = ofDigits (first :: rest) * 10 ^ (point - (first :: rest).length) := by
  obtain ⟨fraction, digits, same, moved⟩ : ∃ fraction, IsDigits fraction ∧
      (if rest.isEmpty then ['0'] else rest) = fraction ∧
      (ofDigits (first :: fraction) : ℚ) / 10 ^ fraction.length =
        ofDigits (first :: rest) * 10 ^ (-(rest.length : Int)) := by
    cases rest with
    | nil =>
      have ten : ofDigits [first, '0'] = 10 ^ 1 * ofDigits [first] := ofDigits_append_zeros 1 [first]
      refine ⟨['0'], isDigits_zero, rfl, ?_⟩
      rw [ten]
      simp
    | cons second rest =>
      refine ⟨second :: rest, ⟨by simp, fun c member => h.all c (List.mem_cons_of_mem _ member)⟩, rfl, ?_⟩
      rw [div_ten_pow]
  have written : scientific (first :: rest) point = first :: '.' :: (fraction ++
      'E' :: signed (decide (point - 1 < 0)) (Nat.toDigits 10 (point - 1).natAbs)) := by
    rw [← toList_toString, ← same]
    rfl
  have whole : IsDigits [first] := ⟨by simp, fun c member => h.all c (by simp_all)⟩
  refine ⟨⟨false, [first], fraction, some (decide (point - 1 < 0), Nat.toDigits 10 (point - 1).natAbs)⟩,
    ⟨whole, digits, ?_⟩, written.symm, rfl, rfl, rfl, ?_⟩
  · rintro _ _ ⟨⟩
    exact isDigits_toDigits _
  · have places : point - (first :: rest).length = -(rest.length : Int) + (point - 1) := by
      simp
      omega
    simp only [Numeral.value, power_toDigits, List.singleton_append, moved]
    rw [places, zpow_add₀ (by norm_num), mul_assoc]

end Strand.Decimal
