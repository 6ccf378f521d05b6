import Strand.Proofs.Floats.Numeral
import Strand.Proofs.Floats.Rounding

/-!
# The text of a float reads back

A text is read as a float by the names of the infinities, or as a numeral that is rounded to the nearest
float; `E` is a power of ten. Main statement: the text of a float that is a number or infinite is read as
that float and as no other, with its sign and with the sign of zero, so floats with different bits have
different texts. The text of a finite float is a numeral, plain or with an exponent according to its
magnitude (`floatText_unambiguous`).
-/

set_option autoImplicit false

namespace Strand

/-! ## 1. Bits -/

namespace Binary64

open Float.Model Float.Model.UnpackedFloat

/-- The exponent of the largest float. -/
def maxExponent : Int := 971

theorem toBits_injective : Function.Injective Float.toBits := by
  rintro ⟨⟨a, _⟩⟩ ⟨⟨b, _⟩⟩ same
  cases same
  rfl

/-- What a float means by its unpacked form. -/
def ofUnpacked : UnpackedFloat → Binary64
  | .notANumber => nan
  | .infinity sign => infinite (sign == .negative)
  | .zero sign => finite (sign == .negative) 0 minExponent
  | .finite sign mantissa exponent _ => finite (sign == .negative) mantissa exponent

theorem toNat_unpackSign (b : BitVec Format.binary64.numBits) :
    (unpackSign b).toNat = b.toNat / signBit % 2 := by
  delta unpackSign
  simp only [BitVec.toNat_cast, BitVec.extractLsb_toNat, Nat.shiftRight_eq_div_pow]
  rfl

theorem toNat_unpackExponent (b : BitVec Format.binary64.numBits) :
    (unpackExponent b).toNat = b.toNat / hiddenBit % exponentCount := by
  delta unpackExponent
  simp only [BitVec.toNat_cast, BitVec.extractLsb_toNat, Nat.shiftRight_eq_div_pow]
  rfl

theorem toNat_unpackMantissa (b : BitVec Format.binary64.numBits) :
    (unpackMantissa b).toNat = b.toNat % hiddenBit := by
  delta unpackMantissa
  simp only [BitVec.toNat_cast, BitVec.extractLsb_toNat, Nat.shiftRight_eq_div_pow, pow_zero,
    Nat.div_one]
  rfl

theorem sign_eq_negative (b : BitVec Format.binary64.numBits) :
    (Sign.ofBitVec (unpackSign b) == .negative) = (b.toNat / signBit % 2 == 1) := by
  rw [← toNat_unpackSign]
  generalize unpackSign b = s
  revert s
  decide

/-- The hidden bit stands before the stored ones. -/
theorem toNat_hidden_append (b : BitVec Format.binary64.numBits) :
    (1#1 ++ unpackMantissa b).toNat = b.toNat % hiddenBit + hiddenBit := by
  rw [BitVec.toNat_append, ← Nat.shiftLeft_add_eq_or_of_lt (unpackMantissa b).isLt, toNat_unpackMantissa,
    Nat.add_comm]
  rfl

/-- The parts of the bits are the parts of the unpacked float. -/
theorem ofBits_eq_ofUnpacked (b : BitVec Format.binary64.numBits) :
    ofBits b.toNat = ofUnpacked (UnpackedFloat.unpack .binary64 b) := by
  have last : unpackExponent b = -1#_ ↔ b.toNat / hiddenBit % exponentCount = exponentCount - 1 := by
    rw [← BitVec.toNat_inj, toNat_unpackExponent]
    rfl
  have first : unpackExponent b = 0#_ ↔ b.toNat / hiddenBit % exponentCount = 0 := by
    rw [← BitVec.toNat_inj, toNat_unpackExponent]
    rfl
  have zero : unpackMantissa b = 0#_ ↔ b.toNat % hiddenBit = 0 := by
    rw [← BitVec.toNat_inj, toNat_unpackMantissa]
    rfl
  have bias : (Format.binary64.exponentBias : Int) + Format.binary64.mantissaBitsWithoutImplicit =
      1 - minExponent := by decide
  simp only [ofBits, beq_iff_eq, ← last, ← first, ← zero, ← sign_eq_negative]
  delta UnpackedFloat.unpack
  dsimp only
  by_cases special : unpackExponent b = -1#_
  · rw [if_pos special, if_pos special]
    by_cases none : unpackMantissa b = 0#_
    · rw [if_pos none, if_pos none]
      rfl
    · rw [if_neg none, if_neg none]
      rfl
  rw [if_neg special, if_neg special]
  by_cases subnormal : unpackExponent b = 0#_
  · rw [if_pos subnormal, if_pos subnormal]
    by_cases none : unpackMantissa b = 0#_
    · rw [dif_pos none, zero.mp none]
      rfl
    · have exponent : ((unpackExponent b).toNat : Int) - (Format.binary64.exponentBias +
          Format.binary64.mantissaBitsWithoutImplicit) + 1 = minExponent := by
        rw [toNat_unpackExponent, first.mp subnormal, bias]
        omega
      rw [dif_neg none]
      show _ = finite _ (unpackMantissa b).toNat _
      rw [toNat_unpackMantissa, exponent]
  · have leads : b.toNat / hiddenBit % exponentCount ≠ 0 := subnormal ∘ first.mpr
    have exponent : ((unpackExponent b).toNat : Int) - (Format.binary64.exponentBias +
        Format.binary64.mantissaBitsWithoutImplicit) =
          minExponent + ((b.toNat / hiddenBit % exponentCount - 1 : Nat) : Int) := by
      rw [toNat_unpackExponent, bias]
      omega
    rw [if_neg subnormal, if_neg subnormal]
    show _ = finite _ (1#1 ++ unpackMantissa b).toNat _
    rw [toNat_hidden_append, exponent]

theorem ofFloat_eq_ofUnpacked (x : Float) : ofFloat x = ofUnpacked x.toModel.unpack :=
  ofBits_eq_ofUnpacked x.toBits.toBitVec

theorem ofFloat_eq_nan_iff (x : Float) : ofFloat x = .nan ↔ x.isNaN = true := by
  rw [ofFloat_eq_ofUnpacked]
  show _ ↔ x.toModel.unpack.isNaN = true
  cases x.toModel.unpack with
  | notANumber => exact ⟨fun _ => rfl, fun _ => rfl⟩
  | infinity | zero | finite => exact ⟨nofun, nofun⟩

/-- The form of a finite float. -/
theorem canonical_ofBits {bits m : Nat} {negative : Bool} {e : Int}
    (finite : ofBits bits = .finite negative m e) : Canonical m e ∧ e ≤ maxExponent := by
  have fraction : bits % hiddenBit < hiddenBit := Nat.mod_lt _ hiddenBit_pos
  have biased : bits / hiddenBit % exponentCount < exponentCount := Nat.mod_lt _ (by decide)
  simp only [ofBits, beq_iff_eq] at finite
  split at finite
  · split at finite <;> cases finite
  · split at finite
    · cases finite
      exact ⟨⟨by omega, le_rfl, .inr rfl⟩, by decide⟩
    · cases finite
      refine ⟨⟨by omega, by omega, .inl (by omega)⟩, ?_⟩
      simp only [minExponent, maxExponent, exponentCount] at *
      omega

/-- The bits of a float that is a number or infinite. -/
def encode : Binary64 → Nat
  | nan => 0
  | infinite negative => negative.toNat * signBit + (exponentCount - 1) * hiddenBit
  | finite negative significand exponent =>
    negative.toNat * signBit +
      if significand < hiddenBit then significand
      else ((exponent - minExponent).toNat + 1) * hiddenBit + (significand - hiddenBit)

theorem parts_eq {bits : Nat} (bounded : bits < 2 ^ 64) :
    (bits / signBit % 2 == 1).toNat * signBit + bits / hiddenBit % exponentCount * hiddenBit +
      bits % hiddenBit = bits := by
  have sum : bits / 2 ^ 63 % 2 * 2 ^ 63 + bits / 2 ^ 52 % 2048 * 2 ^ 52 + bits % 2 ^ 52 = bits := by
    omega
  have sign : (bits / signBit % 2 == 1).toNat = bits / signBit % 2 := by
    rcases Nat.mod_two_eq_zero_or_one (bits / signBit) with bit | bit <;> rw [bit] <;> rfl
  rw [sign]
  exact sum

theorem encode_ofBits {bits : Nat} (bounded : bits < 2 ^ 64) (number : ofBits bits ≠ .nan) :
    encode (ofBits bits) = bits := by
  have parts := parts_eq bounded
  have fraction : bits % hiddenBit < hiddenBit := Nat.mod_lt _ hiddenBit_pos
  simp only [ofBits, beq_iff_eq] at number ⊢
  split at number
  · next last =>
    split at number
    · next none =>
      rw [if_pos last, if_pos none, encode]
      rwa [last, none, Nat.add_zero] at parts
    · exact absurd rfl number
  · next below =>
    rw [if_neg below]
    split
    · next first =>
      rw [encode, if_pos fraction]
      rwa [first, Nat.zero_mul, Nat.add_zero] at parts
    · next leads =>
      have back : (minExponent + ((bits / hiddenBit % exponentCount - 1 : Nat) : Int) -
          minExponent).toNat + 1 = bits / hiddenBit % exponentCount := by omega
      rw [encode, if_neg (by omega), back]
      omega

/-- The bits of a float that is a number or infinite are determined by its parts. -/
theorem ofBits_injective {a b : Nat} (ha : a < 2 ^ 64) (hb : b < 2 ^ 64) (number : ofBits a ≠ .nan)
    (same : ofBits a = ofBits b) : a = b := by
  rw [← encode_ofBits ha number, same, encode_ofBits hb (same ▸ number)]

end Binary64

namespace Decimal

open Binary64 Numeral

/-! ## 2. The text of a magnitude -/

variable {m : Nat} {e : Int}

/-- The magnitudes that are written without an exponent. -/
def InWindow (q : ℚ) : Prop := q = 0 ∨ 1 / 1000 ≤ q ∧ q < 10000000

/-- A numeral in the notation that goes with a magnitude. -/
structure Numeral.Suits (n : Numeral) (q : ℚ) : Prop where
  wellFormed : n.WellFormed
  plain : InWindow q → n.exponent = none
  scientific : ¬ InWindow q → n.exponent.isSome ∧ ∃ first, first ≠ '0' ∧ n.whole = [first]

theorem magnitude_mul_down (m : Nat) (e : Int) :
    magnitude m e * 2 ^ (-e).toNat = m * 2 ^ e.toNat := by
  rw [magnitude, mul_assoc, zpow_mul_pow_toNat 2 two_ne_zero]

theorem isPlain_iff : isPlain m e = true ↔ 1 / 1000 ≤ magnitude m e ∧ magnitude m e < 10000000 := by
  have down : (0 : ℚ) < 2 ^ (-e).toNat := by positivity
  have cleared := magnitude_mul_down m e
  have low : 2 ^ (-e).toNat ≤ m * 2 ^ e.toNat * 1000 ↔ 1 / 1000 ≤ magnitude m e := by
    rw [← mul_le_mul_iff_of_pos_right down, cleared, ← Nat.cast_le (α := ℚ)]
    push_cast
    constructor <;> intro <;> linarith
  have high : m * 2 ^ e.toNat < 10000000 * 2 ^ (-e).toNat ↔ magnitude m e < 10000000 := by
    rw [← mul_lt_mul_iff_of_pos_right down, cleared, ← Nat.cast_lt (α := ℚ)]
    push_cast
    rfl
  rw [← low, ← high]
  simp [isPlain]

theorem integral?_eq_some {whole : Nat} (integral : integral? m e = some whole) :
    (whole : ℚ) = magnitude m e := by
  have cleared := magnitude_mul_down m e
  unfold integral? at integral
  split at integral
  · next up =>
    cases integral
    have down : (-e).toNat = 0 := by omega
    rw [down, pow_zero, mul_one] at cleared
    rw [cleared, Nat.pow_eq]
    push_cast
    rfl
  · next down =>
    have up : e.toNat = 0 := by omega
    rw [up, pow_zero, mul_one] at cleared
    simp only [beq_iff_eq, Nat.pow_eq] at integral
    split at integral
    · next divides =>
      cases integral
      have back : ((m / 2 ^ (-e).toNat * 2 ^ (-e).toNat : Nat) : ℚ) = m := by
        rw [Nat.div_mul_cancel (Nat.dvd_of_mod_eq_zero divides)]
      push_cast at back
      exact mul_right_cancel₀ (by positivity) (back.trans cleared.symm)
    · cases integral

theorem suits_of_plain {n : Numeral} {q : ℚ} (wellFormed : n.WellFormed) (window : InWindow q)
    (plain : n.exponent = none) : n.Suits q :=
  ⟨wellFormed, fun _ => plain, fun outside => absurd window outside⟩

/-- The text of a magnitude is a numeral that rounds to it. -/
theorem magnitudeText_stands (c : Canonical m e) :
    ∃ n : Numeral, n.Suits (magnitude m e) ∧ n.chars = magnitudeText m e ∧ n.negative = false ∧
      RoundsTo n.value m e := by
  rcases Nat.eq_zero_or_pos m with rfl | positive
  · have nothing : magnitude 0 e = 0 := by simp [magnitude]
    obtain ⟨n, wellFormed, written, sign, exponent, value⟩ := whole_stands 0
    refine ⟨n, suits_of_plain wellFormed (.inl nothing) exponent, written, sign, ?_⟩
    rw [value, Nat.cast_zero, ← nothing]
    exact .self c
  obtain ⟨nearest, some_⟩ := Target.shortest_roundsTo c positive
  have nonzero : (m == 0) = false := by simpa using positive.ne'
  simp only [magnitudeText, nonzero, Bool.false_eq_true, if_false]
  generalize (target m e).shortest = shortest at nearest some_
  split
  · next plain =>
    have window : InWindow (magnitude m e) := .inr (isPlain_iff.mp plain)
    split
    · next whole integral =>
      obtain ⟨n, wellFormed, written, sign, exponent, value⟩ := whole_stands whole
      refine ⟨n, suits_of_plain wellFormed window exponent, written, sign, ?_⟩
      rw [value, integral?_eq_some integral]
      exact .self c
    · obtain ⟨n, wellFormed, written, sign, exponent, value⟩ :=
        positional_stands (isDigits_toDigits shortest.digits)
          ((Nat.toDigits 10 shortest.digits).length + shortest.exponent)
      refine ⟨n, suits_of_plain wellFormed window exponent, written, sign, ?_⟩
      rw [value, ofDigits_toDigits, add_sub_cancel_left]
      exact nearest
  · next scientific =>
    have outside : ¬ InWindow (magnitude m e) := by
      rintro (none | inside)
      · have : 0 < magnitude m e := by
          rw [magnitude]
          positivity
        exact this.ne' none
      · exact scientific (isPlain_iff.mpr inside)
    obtain ⟨first, rest, digits, leads⟩ := head_toDigits some_
    obtain ⟨n, wellFormed, written, sign, whole, exponent, value⟩ :=
      scientific_stands (digits ▸ isDigits_toDigits shortest.digits)
        ((first :: rest).length + shortest.exponent)
    refine ⟨n, ⟨wellFormed, fun inside => absurd inside outside, fun _ => ⟨exponent, first, leads, whole⟩⟩,
      ?_, sign, ?_⟩
    · rw [digits]
      exact written
    · rw [value, ← digits, ofDigits_toDigits, add_sub_cancel_left]
      exact nearest

/-- The text of a finite float is a numeral with its sign that rounds to its magnitude. -/
theorem floatText_stands {x : Float} {negative : Bool} (finite : ofFloat x = .finite negative m e) :
    ∃ n : Numeral, n.chars = (floatText x).toList ∧ n.negative = negative ∧ n.Suits (magnitude m e) ∧
      RoundsTo n.value m e := by
  obtain ⟨n, ⟨wellFormed, plain, scientific⟩, written, sign, nearest⟩ :=
    magnitudeText_stands (canonical_ofBits finite).1
  refine ⟨{ n with negative }, ?_, rfl,
    ⟨⟨wellFormed.whole, wellFormed.fraction, wellFormed.exponent⟩, plain, scientific⟩, nearest⟩
  have text : (floatText x).toList = signed negative (magnitudeText m e) := by
    simp only [floatText, finite, String.toList_ofList]
    rfl
  rw [text, ← written, Numeral.chars, Numeral.chars, sign]
  rfl

/-! ## 3. Reading -/

/-- The name of a float that has no numeral. -/
def name? : Binary64 → Option String
  | .nan => some "NaN"
  | .infinite negative => some (if negative then "-Infinity" else "Infinity")
  | .finite .. => none

/-- What a numeral is rounded to. What rounds to more than the largest float is infinite. -/
def Numeral.Rounds (n : Numeral) (x : Binary64) : Prop :=
  ∃ m e, RoundsTo n.value m e ∧ x = if e ≤ maxExponent then .finite n.negative m e else .infinite n.negative

/-- A text is read as what it names, or else as a numeral. -/
def Reads (text : String) (x : Binary64) : Prop :=
  name? x = some text ∨ ∃ n, parse? text.toList = some n ∧ n.Rounds x

theorem name?_injective {x y : Binary64} {text : String} (named : name? x = some text)
    (named' : name? y = some text) : x = y := by
  have same := named.trans named'.symm
  cases x with
  | finite => cases named
  | nan =>
    cases y with
    | nan => rfl
    | infinite negative => cases negative <;> exact absurd same (by decide)
    | finite => cases named'
  | infinite negative =>
    cases y with
    | nan => cases negative <;> exact absurd same (by decide)
    | infinite negative' => cases negative <;> cases negative' <;> first | rfl | exact absurd same (by decide)
    | finite => cases named'

/-- A name is no numeral. -/
theorem parse?_name {x : Binary64} {text : String} (named : name? x = some text) :
    parse? text.toList = none := by
  cases x with
  | nan =>
    cases named
    decide
  | infinite negative =>
    cases named
    cases negative <;> decide
  | finite => cases named

theorem Numeral.Rounds.unique {n : Numeral} {x y : Binary64} (rounds : n.Rounds x) (rounds' : n.Rounds y) :
    x = y := by
  obtain ⟨m, e, nearest, rfl⟩ := rounds
  obtain ⟨m', e', nearest', rfl⟩ := rounds'
  obtain ⟨rfl, rfl⟩ := nearest.unique nearest'
  rfl

/-- A text is read as one float at most. -/
theorem Reads.unique {text : String} {x y : Binary64} (reads : Reads text x) (reads' : Reads text y) :
    x = y := by
  rcases reads with named | ⟨n, numeral, rounds⟩ <;> rcases reads' with named' | ⟨n', numeral', rounds'⟩
  · exact name?_injective named named'
  · cases (parse?_name named).symm.trans numeral'
  · cases (parse?_name named').symm.trans numeral
  · cases numeral.symm.trans numeral'
    exact rounds.unique rounds'

theorem reads_floatText (x : Float) : Reads (floatText x) (ofFloat x) := by
  cases parts : ofFloat x with
  | nan => exact .inl (by simp only [floatText, parts, name?])
  | infinite negative => exact .inl (by simp only [floatText, parts, name?])
  | finite negative m e =>
    obtain ⟨n, written, rfl, suits, nearest⟩ := floatText_stands parts
    refine .inr ⟨n, parse?_eq_some_iff.mpr ⟨suits.wellFormed, written⟩, m, e, nearest, ?_⟩
    rw [if_pos (canonical_ofBits parts).2]

theorem ofFloat_injective {x y : Float} (number : x.isNaN = false) (same : ofFloat y = ofFloat x) :
    y = x := by
  have parts : ofFloat x ≠ .nan := by
    rw [ne_eq, ofFloat_eq_nan_iff, number]
    exact Bool.false_ne_true
  have bits := ofBits_injective x.toBits.toNat_lt y.toBits.toNat_lt parts same.symm
  exact toBits_injective (UInt64.toNat_inj.mp bits.symm)

/-- The text of a float that is a number or infinite is read as this float and as no other, and no other
float has this text. The text of a finite float is a numeral with its sign: with a point among its digits and
no exponent in the window, and otherwise with one digit, which is no zero, before the point and with an
exponent. -/
theorem floatText_unambiguous (x : Float) (number : x.isNaN = false) :
    (∀ y : Float, Reads (floatText x) (ofFloat y) ↔ y = x) ∧
    (∀ y : Float, floatText y = floatText x → y.toBits = x.toBits) ∧
    ∀ negative m e, ofFloat x = .finite negative m e →
      ∃ n : Numeral, n.chars = (floatText x).toList ∧ n.negative = negative ∧ n.Suits (magnitude m e) := by
  have read : ∀ y : Float, Reads (floatText x) (ofFloat y) ↔ y = x := by
    refine fun y => ⟨fun reads => ?_, ?_⟩
    · exact ofFloat_injective number (reads.unique (reads_floatText x))
    · rintro rfl
      exact reads_floatText y
  refine ⟨read, fun y same => ?_, fun negative m e finite => ?_⟩
  · rw [(read y).mp (same ▸ reads_floatText y)]
  · obtain ⟨n, written, sign, suits, -⟩ := floatText_stands finite
    exact ⟨n, written, sign, suits⟩

/-- The least positive float. -/
theorem least_unambiguous :
    let x := Float.ofBits 1
    x.isNaN = false ∧ floatText x = "5.0E-324" ∧
    (∀ y : Float, Reads (floatText x) (ofFloat y) ↔ y = x) ∧
    (∀ y : Float, floatText y = floatText x → y.toBits = x.toBits) ∧
    ∀ negative m e, ofFloat x = .finite negative m e →
      ∃ n : Numeral, n.chars = (floatText x).toList ∧ n.negative = negative ∧ n.Suits (magnitude m e) :=
  ⟨by decide +kernel, by decide +kernel, floatText_unambiguous (Float.ofBits 1) (by decide +kernel)⟩

end Decimal

end Strand
