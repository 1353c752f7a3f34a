import LoxLang.Number.Binary64
import LoxLang.Proofs.Number.Places
import Mathlib

/-!
# Doubles and their places

A double is taken apart into its sign and its place. The place tells whether it is finite, and the
magnitude at the place is the exact value that its mantissa and its exponent give.

## Main definitions

* `exact`: the exact value of a finite double.
* `RoundsTo`: rounding of a number to the nearest double.

## Main results

* `ofFloat_cases`: what a double is, by its place.
* `roundsTo_of_isNearest`: the nearest double has the nearest place.
-/

namespace LoxLang.Number

open Float.Model Float.Model.UnpackedFloat

/-! ## Bit fields -/

section Fields

variable (bits : BitVec 64)

theorem toNat_unpackExponent :
    (@unpackExponent Format.binary64 bits).toNat = bits.toNat % 2 ^ 63 / 2 ^ 52 := by
  have := bits.isLt
  rw [unpackExponent_def]
  simp only [BitVec.extractLsb'_toNat, Nat.shiftRight_eq_div_pow]
  omega

theorem toNat_unpackMantissa :
    (@unpackMantissa Format.binary64 bits).toNat = bits.toNat % 2 ^ 63 % 2 ^ 52 := by
  rw [unpackMantissa_def]
  simp only [BitVec.extractLsb'_toNat, Nat.shiftRight_eq_div_pow]
  omega

theorem ofBitVec_unpackSign : Sign.ofBitVec (@unpackSign Format.binary64 bits) =
    if 2 ^ 63 ≤ bits.toNat then .negative else .positive := by
  have := bits.isLt
  have hsign : (@unpackSign Format.binary64 bits).toNat = bits.toNat / 2 ^ 63 := by
    rw [unpackSign_def]
    simp only [BitVec.extractLsb'_toNat, Nat.shiftRight_eq_div_pow]
    omega
  have hzero : @unpackSign Format.binary64 bits = 0#1 ↔ ¬ 2 ^ 63 ≤ bits.toNat := by
    rw [← BitVec.toNat_inj, hsign, BitVec.toNat_ofNat]
    omega
  simp only [Sign.ofBitVec, hzero, ite_not]

/-- The leading bit of a normal mantissa. -/
theorem toNat_one_append (mantissa : BitVec 52) :
    (1#1 ++ mantissa).toNat = 2 ^ 52 + mantissa.toNat := by
  rw [BitVec.toNat_append, ← Nat.shiftLeft_add_eq_or_of_lt mantissa.isLt]
  rfl

theorem unpackExponent_eq_top_iff :
    @unpackExponent Format.binary64 bits = -1#11 ↔ infinityIndex ≤ bits.toNat % 2 ^ 63 := by
  have := bits.isLt
  rw [← BitVec.toNat_inj, toNat_unpackExponent, infinityIndex, Nat.pow_eq]
  change _ = 2047 ↔ _
  omega

theorem unpackExponent_eq_zero_iff :
    @unpackExponent Format.binary64 bits = 0#11 ↔ bits.toNat % 2 ^ 63 < 2 ^ 52 := by
  have := bits.isLt
  rw [← BitVec.toNat_inj, toNat_unpackExponent, BitVec.toNat_zero]
  omega

theorem unpackMantissa_eq_zero_iff :
    @unpackMantissa Format.binary64 bits = 0#52 ↔ bits.toNat % 2 ^ 63 % 2 ^ 52 = 0 := by
  rw [← BitVec.toNat_inj, toNat_unpackMantissa, BitVec.toNat_zero]

end Fields

/-! ## Values -/

/-- The number that a sign, a mantissa and an exponent give. -/
def unpackedValue : UnpackedFloat → ℚ
  | .finite .negative mantissa exponent _ => -(mantissa * 2 ^ exponent)
  | .finite .positive mantissa exponent _ => mantissa * 2 ^ exponent
  | _ => 0

/-- The exact value of a finite double. -/
def exact (x : Float) : ℚ := unpackedValue x.toModel.unpack

theorem cast_unit : (unit : ℚ) = 2 ^ (1074 : ℤ) := by
  rw [unit_eq, Nat.cast_pow, Nat.cast_ofNat]
  exact (zpow_natCast (2 : ℚ) 1074).symm

/-- A magnitude below the normal ones. -/
theorem magnitude_of_lt {i : Nat} (h : i < 2 ^ 52) : magnitude i = i * 2 ^ (-1074 : ℤ) := by
  have hscaled := @scaled_add 0 i (by omega) (.inl rfl)
  simp only [Nat.zero_mul, Nat.zero_add, Nat.pow_zero, Nat.mul_one] at hscaled
  rw [magnitude, hscaled, cast_unit, zpow_neg, div_eq_mul_inv]

theorem magnitude_of_le {i : Nat} (h : 2 ^ 52 ≤ i) :
    magnitude i = (2 ^ 52 + i % 2 ^ 52 : ℕ) * 2 ^ ((i / 2 ^ 52 : ℕ) - 1075 : ℤ) := by
  have hindex : i = (i / 2 ^ 52 - 1) * 2 ^ 52 + (2 ^ 52 + i % 2 ^ 52) := by omega
  have hexponent : ((i / 2 ^ 52 : ℕ) - 1075 : ℤ) = (i / 2 ^ 52 - 1 : ℕ) - 1074 := by omega
  have hscaled := @scaled_add (i / 2 ^ 52 - 1) (2 ^ 52 + i % 2 ^ 52) (by omega) (by omega)
  rw [← hindex] at hscaled
  rw [magnitude, hscaled, cast_unit, hexponent, zpow_sub₀ two_ne_zero, zpow_natCast, Nat.cast_mul,
    Nat.cast_pow, Nat.cast_ofNat, mul_div_assoc]

/-- A number with a sign. -/
def withSign (negative : Bool) (q : ℚ) : ℚ := if negative then -q else q

theorem unpackedValue_finite (negative : Bool) (mantissa : Nat) (exponent : ℤ) (h : 0 < mantissa) :
    unpackedValue (.finite (if negative then .negative else .positive) mantissa exponent h) =
      withSign negative (mantissa * 2 ^ exponent) := by
  cases negative <;> rfl

/-- The magnitude that the fields of a subnormal number give. -/
theorem magnitude_of_subnormal (bits : BitVec 64) (h : bits.toNat % 2 ^ 63 < 2 ^ 52) :
    (@unpackMantissa Format.binary64 bits).toNat * 2 ^ ((@unpackExponent Format.binary64 bits).toNat -
        (Format.binary64.exponentBias + Format.binary64.mantissaBitsWithoutImplicit) + 1 : ℤ) =
      magnitude (bits.toNat % 2 ^ 63) := by
  have hbias : ((@unpackExponent Format.binary64 bits).toNat : ℤ) -
      (Format.binary64.exponentBias + Format.binary64.mantissaBitsWithoutImplicit) + 1 = -1074 := by
    rw [(unpackExponent_eq_zero_iff bits).mpr h]
    rfl
  rw [toNat_unpackMantissa, Nat.mod_eq_of_lt h, hbias, magnitude_of_lt h]

/-- The magnitude that the fields of a normal number give. -/
theorem magnitude_of_normal (bits : BitVec 64) (h : 2 ^ 52 ≤ bits.toNat % 2 ^ 63) :
    (1#1 ++ @unpackMantissa Format.binary64 bits).toNat *
        2 ^ ((@unpackExponent Format.binary64 bits).toNat -
          (Format.binary64.exponentBias + Format.binary64.mantissaBitsWithoutImplicit) : ℤ) =
      magnitude (bits.toNat % 2 ^ 63) := by
  rw [toNat_one_append, toNat_unpackMantissa, toNat_unpackExponent, magnitude_of_le h]
  rfl

/-- What bits stand for, by their place. -/
theorem unpack_cases (bits : BitVec 64) :
    let i := bits.toNat % 2 ^ 63
    let u := UnpackedFloat.unpack .binary64 bits
    i < infinityIndex ∧ u.isFinite ∧ u.isNaN = false ∧
        unpackedValue u = withSign (2 ^ 63 ≤ bits.toNat) (magnitude i) ∨
      i = infinityIndex ∧ u.isFinite = false ∧ u.isNaN = false ∨
      infinityIndex < i ∧ u.isFinite = false ∧ u.isNaN := by
  intro i u
  have hsign : Sign.ofBitVec (@unpackSign Format.binary64 bits) =
      if decide (2 ^ 63 ≤ bits.toNat) then .negative else .positive := by
    simpa using ofBitVec_unpackSign bits
  have htop := unpackExponent_eq_top_iff bits
  have hzero := unpackExponent_eq_zero_iff bits
  have hmantissa := unpackMantissa_eq_zero_iff bits
  have hlt : i < 2 ^ 63 := Nat.mod_lt _ (by decide)
  have hindex : infinityIndex = 2047 * 2 ^ 52 := rfl
  unfold u
  rw [UnpackedFloat.unpack]
  split
  · next hexponent =>
    have hle := htop.mp hexponent
    split
    · next hm =>
      have hrest := hmantissa.mp hm
      exact .inr (.inl ⟨by omega, rfl, rfl⟩)
    · next hm =>
      have hrest := mt hmantissa.mpr hm
      exact .inr (.inr ⟨by omega, rfl, rfl⟩)
  · next hexponent =>
    have hlt : i < infinityIndex := Nat.lt_of_not_le (mt htop.mpr hexponent)
    refine .inl ⟨hlt, ?_⟩
    split
    · next he =>
      have hsmall : i < 2 ^ 52 := hzero.mp he
      split
      · next hm =>
        have hi : i = 0 := (Nat.mod_eq_of_lt hsmall).symm.trans (hmantissa.mp hm)
        refine ⟨rfl, rfl, ?_⟩
        rw [hi, magnitude_zero]
        simp [unpackedValue, withSign]
      · refine ⟨rfl, rfl, ?_⟩
        rw [hsign, unpackedValue_finite, magnitude_of_subnormal bits hsmall]
    · next he =>
      have hlarge : 2 ^ 52 ≤ i := Nat.le_of_not_lt (mt hzero.mpr he)
      refine ⟨rfl, rfl, ?_⟩
      rw [hsign, unpackedValue_finite, magnitude_of_normal bits hlarge]

/-! ## Signs and places -/

/-- The double with a given sign at a given place. -/
def ofPlace (negative : Bool) (i : Nat) : Float :=
  .ofBits ((if negative then 2 ^ 63 else 0) + i).toUInt64

/-- A double is made of its sign and its place. -/
theorem eq_ofPlace (x : Float) :
    x = ofPlace (2 ^ 63 ≤ x.toBits.toNat) (x.toBits.toNat % 2 ^ 63) := by
  have hlt : x.toBits.toNat < 2 ^ 64 := x.toBits.toNat_lt
  have hbits : (if decide (2 ^ 63 ≤ x.toBits.toNat) then 2 ^ 63 else 0) +
      x.toBits.toNat % 2 ^ 63 = x.toBits.toNat := by
    simp only [decide_eq_true_eq]
    split <;> omega
  rw [ofPlace, hbits, Nat.toUInt64_eq, UInt64.ofNat_toNat, Float.ofBits_toBits]

/-- What a double is, by its sign and its place. -/
theorem ofFloat_cases (x : Float) :
    (∃ negative i, Binary64.ofFloat x = .finite negative i ∧ x = ofPlace negative i ∧
        i < infinityIndex ∧ x.isFinite ∧ x.isNaN = false ∧
        exact x = withSign negative (magnitude i)) ∨
      (∃ negative, Binary64.ofFloat x = .infinite negative ∧ x = ofPlace negative infinityIndex ∧
        x.isFinite = false ∧ x.isNaN = false) ∨
      Binary64.ofFloat x = .nan ∧ infinityIndex < x.toBits.toNat % 2 ^ 63 ∧ x.isFinite = false ∧
        x.isNaN := by
  have hplace := eq_ofPlace x
  rw [Binary64.ofFloat, Binary64.ofBits]
  simp only [Nat.pow_eq]
  rcases unpack_cases x.toBits.toBitVec with ⟨hlt, hfinite, hnan, hvalue⟩ | ⟨heq, hfinite, hnan⟩ |
    ⟨hgt, hfinite, hnan⟩
  · exact .inl ⟨_, _, if_pos hlt, hplace, hlt, hfinite, hnan, hvalue⟩
  · have heq : x.toBits.toNat % 2 ^ 63 = infinityIndex := heq
    rw [heq] at hplace ⊢
    exact .inr (.inl ⟨_, by simp, hplace, hfinite, hnan⟩)
  · have hgt : infinityIndex < x.toBits.toNat % 2 ^ 63 := hgt
    rw [if_neg hgt.not_gt, if_neg hgt.ne']
    exact .inr (.inr ⟨rfl, hgt, hfinite, hnan⟩)

theorem ofFloat_of_isFinite {x : Float} (h : x.isFinite) : ∃ negative i,
    Binary64.ofFloat x = .finite negative i ∧ x = ofPlace negative i ∧ i < infinityIndex ∧
      exact x = withSign negative (magnitude i) := by
  rcases ofFloat_cases x with ⟨negative, i, hfloat, hplace, hi, -, -, hvalue⟩ |
    ⟨-, -, -, hnot, -⟩ | ⟨-, -, hnot, -⟩
  · exact ⟨negative, i, hfloat, hplace, hi, hvalue⟩
  · exact absurd h (ne_true_of_eq_false hnot)
  · exact absurd h (ne_true_of_eq_false hnot)

/-- The double of a sign and a place. -/
def Binary64.toFloat : Binary64 → Float
  | .nan => ofPlace false (infinityIndex + 1)
  | .infinite negative => ofPlace negative infinityIndex
  | .finite negative i => ofPlace negative i

theorem toFloat_ofFloat {x : Float} (h : x.isNaN = false) : (Binary64.ofFloat x).toFloat = x := by
  rcases ofFloat_cases x with ⟨negative, i, hfloat, hplace, -⟩ | ⟨negative, hfloat, hplace, -⟩ |
    ⟨-, -, -, hnan⟩
  · rw [hfloat, Binary64.toFloat, hplace]
  · rw [hfloat, Binary64.toFloat, hplace]
  · rw [h] at hnan
    cases hnan

/-- Up to the place of infinity, bits are not changed when they are made a double. -/
theorem toBits_ofBits {bits : UInt64} (h : bits.toNat % 2 ^ 63 ≤ infinityIndex) :
    (Float.ofBits bits).toBits = bits := by
  have hindex : infinityIndex = 2047 * 2 ^ 52 := rfl
  have hnan : ¬ @isNaNBits Format.binary64 bits.toBitVec := by
    rw [isNaNBits, decide_eq_true_eq]
    rintro ⟨hexponent, hmantissa⟩
    have hle : infinityIndex ≤ bits.toNat % 2 ^ 63 :=
      (unpackExponent_eq_top_iff bits.toBitVec).mp hexponent
    have hne : bits.toNat % 2 ^ 63 % 2 ^ 52 ≠ 0 :=
      mt (unpackMantissa_eq_zero_iff bits.toBitVec).mpr hmantissa
    omega
  have hpack := @pack_unpack Format.binary64 bits.toBitVec (by decide)
  rw [if_neg hnan] at hpack
  exact UInt64.toBitVec_inj.mp hpack

theorem toBits_ofPlace (negative : Bool) {i : Nat} (h : i ≤ infinityIndex) :
    (ofPlace negative i).toBits.toNat = (if negative then 2 ^ 63 else 0) + i := by
  have hindex : infinityIndex = 2047 * 2 ^ 52 := rfl
  have hsize : UInt64.size = 2 ^ 64 := rfl
  have hbits : ((if negative then 2 ^ 63 else 0) + i).toUInt64.toNat =
      (if negative then 2 ^ 63 else 0) + i :=
    UInt64.toNat_ofNat_of_lt' (by split <;> omega)
  rw [ofPlace, toBits_ofBits, hbits]
  rw [hbits]
  split <;> omega

theorem ofPlace_inj {negative negative' : Bool} {i j : Nat} (hi : i ≤ infinityIndex)
    (hj : j ≤ infinityIndex) (h : ofPlace negative i = ofPlace negative' j) :
    negative = negative' ∧ i = j := by
  have hindex : infinityIndex = 2047 * 2 ^ 52 := rfl
  have hbits := toBits_ofPlace negative hi
  rw [h, toBits_ofPlace negative' hj] at hbits
  cases negative <;> cases negative' <;> simp at hbits ⊢ <;> omega

theorem le_toBits_ofPlace_iff (negative : Bool) {i : Nat} (h : i ≤ infinityIndex) :
    2 ^ 63 ≤ (ofPlace negative i).toBits.toNat ↔ negative := by
  have hindex : infinityIndex = 2047 * 2 ^ 52 := rfl
  rw [toBits_ofPlace negative h]
  cases negative with
  | true => simp
  | false =>
    refine iff_of_false ?_ Bool.false_ne_true
    rw [if_neg Bool.false_ne_true]
    omega

theorem exact_ofPlace (negative : Bool) {i : Nat} (h : i < infinityIndex) :
    (ofPlace negative i).isFinite ∧ exact (ofPlace negative i) = withSign negative (magnitude i) := by
  rcases ofFloat_cases (ofPlace negative i) with ⟨negative', j, -, hplace, hj, hfinite, -, hvalue⟩ |
    ⟨negative', -, hplace, -⟩ | ⟨-, hgt, -⟩
  · obtain ⟨rfl, rfl⟩ := ofPlace_inj h.le hj.le hplace
    exact ⟨hfinite, hvalue⟩
  · exact absurd (ofPlace_inj h.le le_rfl hplace).2 h.ne
  · have hindex : infinityIndex = 2047 * 2 ^ 52 := rfl
    rw [toBits_ofPlace negative h.le] at hgt
    split at hgt <;> omega

/-! ## Rounding -/

theorem abs_withSign (negative : Bool) (q : ℚ) : |withSign negative q| = |q| := by
  cases negative
  · rfl
  · exact abs_neg q

theorem abs_withSign_sub (negative : Bool) (q r : ℚ) :
    |withSign negative q - withSign negative r| = |q - r| := by
  cases negative
  · rfl
  · simp only [withSign, if_true, neg_sub_neg, abs_sub_comm]

/-- Numbers of opposite signs are as far apart as their magnitudes together. -/
theorem abs_withSign_sub_not (negative : Bool) {q r : ℚ} (hq : 0 ≤ q) (hr : 0 ≤ r) :
    |withSign negative q - withSign (!negative) r| = q + r := by
  cases negative
  · simp only [withSign, Bool.not_false, if_true, Bool.false_eq_true, if_false, sub_neg_eq_add]
    exact abs_of_nonneg (add_nonneg hq hr)
  · simp only [withSign, Bool.not_true, if_true, Bool.false_eq_true, if_false, ← neg_add', abs_neg]
    exact abs_of_nonneg (add_nonneg hq hr)

/-- `x` is the double nearest to `q`, and of two that are equally near the one whose last bit is zero.
From the midpoint between the largest double and the next power of two on, numbers round to no finite
double. -/
structure RoundsTo (q : ℚ) (x : Float) : Prop where
  finite : x.isFinite
  nearest : ∀ y : Float, y.isFinite → |q - exact x| ≤ |q - exact y|
  even : ∀ y : Float, y.isFinite → exact y ≠ exact x → |q - exact x| = |q - exact y| →
    x.toBits.toNat % 2 = 0
  bounded : |q| < 2 ^ 1024 - 2 ^ 970

/-- The largest magnitude and the one that would come after it. -/
theorem magnitude_last :
    magnitude (infinityIndex - 1) + magnitude infinityIndex = 2 * (2 ^ 1024 - 2 ^ 970) := by
  have hlast : magnitude (infinityIndex - 1) = (2 ^ 53 - 1) * 2 ^ 971 := by
    have hmantissa : 2 ^ 52 + (infinityIndex - 1) % 2 ^ 52 = 2 ^ 53 - 1 := rfl
    have hexponent : (((infinityIndex - 1) / 2 ^ 52 : ℕ) - 1075 : ℤ) = (971 : ℕ) := rfl
    rw [magnitude_of_le (by decide), hmantissa, hexponent, zpow_natCast]
    norm_num
  have hnext : magnitude infinityIndex = 2 ^ 52 * 2 ^ 972 := by
    have hmantissa : 2 ^ 52 + infinityIndex % 2 ^ 52 = 2 ^ 52 := rfl
    have hexponent : ((infinityIndex / 2 ^ 52 : ℕ) - 1075 : ℤ) = (972 : ℕ) := rfl
    rw [magnitude_of_le (by decide), hmantissa, hexponent, zpow_natCast]
    norm_num
  have hpower : (2 : ℚ) ^ 1024 = 2 ^ 54 * 2 ^ 970 := by rw [← pow_add]
  rw [hlast, hnext, hpower, pow_succ (2 : ℚ) 971, pow_succ (2 : ℚ) 970]
  generalize (2 : ℚ) ^ 970 = t
  ring

/-- What rounds to a finite magnitude is below the midpoint after the largest one. -/
theorem IsNearest.lt_last {q : ℚ} {i : Nat} (h : IsNearest q i) (hi : i < infinityIndex) :
    q < 2 ^ 1024 - 2 ^ 970 := by
  have hlast := magnitude_last
  generalize (2 : ℚ) ^ 1024 - 2 ^ 970 = bound at hlast ⊢
  have hnear := abs_sub_le_abs_sub_iff.mp (h.nearest infinityIndex)
  have hlt : magnitude i < magnitude infinityIndex := magnitude_strictMono hi
  have hle : magnitude i ≤ magnitude (infinityIndex - 1) :=
    magnitude_strictMono.monotone (by omega)
  by_contra hge
  -- Only the last place has a midpoint that is as large, but it is odd.
  have hmiddle : 2 * q = magnitude i + magnitude infinityIndex := by nlinarith
  have heven := h.even infinityIndex hi.ne' (abs_sub_eq_abs_sub_iff.mpr (.inr hmiddle))
  have hlast : magnitude i = magnitude (infinityIndex - 1) := by linarith
  rw [magnitude_strictMono.injective hlast] at heven
  exact absurd heven (by decide)

/-- Another double is not nearer than a magnitude of its own sign. -/
theorem abs_sub_magnitude_le {q : ℚ} (hq : 0 ≤ q) (negative negative' : Bool) (j : Nat) :
    |q - magnitude j| ≤ |withSign negative q - withSign negative' (magnitude j)| := by
  have hj := magnitude_nonneg j
  rcases Bool.eq_or_eq_not negative' negative with rfl | rfl
  · rw [abs_withSign_sub]
  · rw [abs_withSign_sub_not negative hq hj, abs_le]
    constructor <;> linarith

/-- The magnitude with the other sign is not as near, unless it is zero. -/
theorem IsNearest.eq_of_abs_sub_eq {q : ℚ} {i : Nat} (h : IsNearest q i) (hq : 0 ≤ q)
    {negative negative' : Bool}
    (heq : |q - magnitude i| = |withSign negative q - withSign negative' (magnitude i)|) :
    withSign negative (magnitude i) = withSign negative' (magnitude i) := by
  have hi := magnitude_nonneg i
  rcases Bool.eq_or_eq_not negative' negative with rfl | rfl
  · rfl
  rw [abs_withSign_sub_not negative hq hi] at heq
  have hzero : magnitude i = 0 := by
    have hnear := h.nearest 0
    rw [magnitude_zero, sub_zero, heq, abs_of_nonneg hq] at hnear
    linarith
  simp [withSign, hzero]

/-- The nearest double has the nearest place, with the sign of the number. -/
theorem roundsTo_of_isNearest {q : ℚ} {i : Nat} (hq : 0 ≤ q) (h : IsNearest q i)
    (hi : i < infinityIndex) (negative : Bool) :
    RoundsTo (withSign negative q) (ofPlace negative i) := by
  obtain ⟨hfinite, hvalue⟩ := exact_ofPlace negative hi
  refine ⟨hfinite, fun y hy => ?_, fun y hy hne heq => ?_, ?_⟩
  · obtain ⟨negative', j, -, -, -, hy⟩ := ofFloat_of_isFinite hy
    rw [hvalue, hy, abs_withSign_sub]
    exact (h.nearest j).trans (abs_sub_magnitude_le hq negative negative' j)
  · obtain ⟨negative', j, -, -, -, hy⟩ := ofFloat_of_isFinite hy
    rw [hvalue, hy, abs_withSign_sub] at heq
    rw [hvalue, hy] at hne
    have hj : j ≠ i := by
      rintro rfl
      exact hne (h.eq_of_abs_sub_eq hq heq).symm
    have hle := abs_sub_magnitude_le hq negative negative' j
    have heven := h.even j hj (le_antisymm (h.nearest j) (hle.trans heq.ge))
    rw [toBits_ofPlace negative hi.le]
    split <;> omega
  · rw [abs_withSign, abs_of_nonneg hq]
    exact h.lt_last hi

/-- No other double of that sign is a rounding of the number. -/
theorem RoundsTo.place_eq {q : ℚ} {i j : Nat} {negative : Bool}
    (hround : RoundsTo (withSign negative q) (ofPlace negative j)) (h : IsNearest q i)
    (hi : i < infinityIndex) (hj : j < infinityIndex) : j = i := by
  obtain ⟨hfinite, hvalue⟩ := exact_ofPlace negative hi
  obtain ⟨-, hvalue'⟩ := exact_ofPlace negative hj
  by_contra hne
  have hnear := hround.nearest _ hfinite
  have heven := hround.even _ hfinite
  rw [hvalue, hvalue', abs_withSign_sub, abs_withSign_sub] at hnear heven
  have heq : |q - magnitude j| = |q - magnitude i| := le_antisymm hnear (h.nearest j)
  -- The two places are equally near, so that both are even.
  have hmagnitude : magnitude i ≠ magnitude j := fun hsame =>
    hne (magnitude_strictMono.injective hsame).symm
  have hsign : withSign negative (magnitude i) ≠ withSign negative (magnitude j) := by
    intro hsame
    cases negative
    · exact hmagnitude hsame
    · exact hmagnitude (neg_injective hsame)
  have hbits := heven hsign heq
  rw [toBits_ofPlace negative hj.le] at hbits
  have hplace : j % 2 = 0 := by
    split at hbits <;> omega
  exact hne (IsNearest.unique ⟨fun k => heq.le.trans (h.nearest k), fun _ _ _ => hplace⟩ h)

end LoxLang.Number
