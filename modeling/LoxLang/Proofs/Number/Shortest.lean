import LoxLang.Number.Shortest
import LoxLang.Proofs.Number.Places
import Mathlib

/-!
# Decimals that read back

The search for the fewest digits stops at a decimal that lies between the midpoints around a
magnitude, or at the magnitude itself, so that what it finds rounds to the magnitude.

## Main definitions

* `Decimal.value`: a decimal as a rational number.

## Main results

* `isNearest_of_contains`: the decimals in the interval around a magnitude.
* `isNearest_shortest`: the decimal with the fewest digits rounds to its magnitude.
-/

namespace LoxLang.Number

namespace Decimal

/-- The number that a decimal is. -/
def value (d : Decimal) : ℚ := d.coefficient * 10 ^ d.exponent

/-- A power of ten as a ratio. -/
theorem zpow_eq_div (e : ℤ) : (10 : ℚ) ^ e = (10 ^ e.toNat : ℕ) / (10 ^ (-e).toNat : ℕ) := by
  have hsplit : e = (e.toNat : ℤ) - ((-e).toNat : ℤ) := by omega
  calc (10 : ℚ) ^ e
    _ = 10 ^ ((e.toNat : ℤ) - ((-e).toNat : ℤ)) := by rw [← hsplit]
    _ = _ := by rw [zpow_sub₀ (by norm_num), zpow_natCast, zpow_natCast]; norm_cast

/-- Zeros at the end can be moved into the exponent. -/
theorem value_trim (n : Nat) (d : Decimal) : (d.trim n).value = d.value := by
  induction n generalizing d with
  | zero => rfl
  | succ n ih =>
    rw [trim]
    split
    · next h =>
      have hcoefficient : (d.coefficient : ℚ) = (d.coefficient / 10 : ℕ) * 10 := by
        have : d.coefficient = d.coefficient / 10 * 10 := by omega
        exact_mod_cast this
      rw [ih, value, value, hcoefficient, zpow_add_one₀ (by norm_num)]
      ring
    · rfl

end Decimal

/-! ## Intervals -/

theorem compareHalves_eq (c : Nat) (e : ℤ) (x : Nat) :
    compareHalves c e x = compare (Decimal.value ⟨c, e⟩) ((x : ℚ) / (2 * unit : ℕ)) := by
  have hunit := unit_pos
  rw [compareHalves, Nat.pow_eq, Nat.pow_eq, Nat.mul_comm (2 * unit),
    compare_mul (Nat.pow_pos (by decide)) (by omega), Decimal.value, Decimal.zpow_eq_div,
    ← mul_div_assoc, Nat.cast_mul]

/-- The midpoint of two magnitudes, as the ends of intervals give it. -/
theorem cast_add_scaled (i j : Nat) :
    ((scaled i + scaled j : ℕ) : ℚ) / (2 * unit : ℕ) = (magnitude i + magnitude j) / 2 := by
  rw [Nat.cast_add, Nat.cast_mul, Nat.cast_two, mul_comm (2 : ℚ), ← div_div, add_div, magnitude,
    magnitude]

/-- An interval contains what lies between its ends, and the ends if it is closed. -/
theorem Interval.bounds_of_contains {r : Interval} {d : Decimal} (h : r.contains d)
    (hr : r.low ≤ r.high) :
    (r.low : ℚ) / (2 * unit : ℕ) ≤ d.value ∧ d.value ≤ (r.high : ℚ) / (2 * unit : ℕ) ∧
      (d.value = (r.low : ℚ) / (2 * unit : ℕ) ∨ d.value = (r.high : ℚ) / (2 * unit : ℕ) →
        r.closed) := by
  have hle : (r.low : ℚ) / (2 * unit : ℕ) ≤ (r.high : ℚ) / (2 * unit : ℕ) :=
    div_le_div_of_nonneg_right (by exact_mod_cast hr) (Nat.cast_nonneg _)
  rw [contains, compareHalves_eq, compareHalves_eq] at h
  generalize (r.low : ℚ) / (2 * unit : ℕ) = low at h hle ⊢
  generalize (r.high : ℚ) / (2 * unit : ℕ) = high at h hle ⊢
  have hvalue : Decimal.value ⟨d.coefficient, d.exponent⟩ = d.value := rfl
  rw [hvalue] at h
  generalize d.value = v at h ⊢
  split at h
  · next hlow hhigh =>
    have hlow := compare_gt_iff_gt.mp hlow
    have hhigh := compare_lt_iff_lt.mp hhigh
    refine ⟨hlow.le, hhigh.le, ?_⟩
    rintro (heq | heq)
    · exact absurd heq hlow.ne'
    · exact absurd heq hhigh.ne
  · next hlow =>
    have hlow := compare_eq_iff_eq.mp hlow
    exact ⟨hlow.ge, hlow.le.trans hle, fun _ => h⟩
  · next hhigh _ =>
    have hhigh := compare_eq_iff_eq.mp hhigh
    exact ⟨hle.trans hhigh.ge, hhigh.le, fun _ => h⟩
  · cases h

/-- The decimals in the interval around a magnitude round to it. -/
theorem isNearest_of_contains {i : Nat} {d : Decimal} (h : (Interval.around i).contains d) :
    IsNearest d.value i := by
  have hr : (Interval.around i).low ≤ (Interval.around i).high := by
    have hbefore := scaled_strictMono.monotone (Nat.sub_le i 1)
    have hafter := scaled_lt_succ i
    simp only [Interval.around]
    omega
  obtain ⟨hlow, hhigh, hclosed⟩ := Interval.bounds_of_contains h hr
  simp only [Interval.around, cast_add_scaled, decide_eq_true_eq] at hlow hhigh hclosed
  refine .of_between (by linarith) (by linarith) fun heq => hclosed (heq.imp ?_ ?_)
  · intro heq
    linarith
  · intro heq
    linarith

/-! ## The search -/

theorem contains_of_onGrid? {tie : Tie} {r : Interval} {s : Nat} {e : ℤ} {d : Decimal}
    (h : onGrid? tie r s e = some d) : r.contains d := by
  rw [onGrid?] at h
  split at h
  · next hfloor hnext =>
    cases h
    rw [nearer]
    split
    · exact hnext
    · exact hfloor
    · split
      · exact hfloor
      · exact hnext
  · next hfloor _ =>
    cases h
    exact hfloor
  · next hnext =>
    cases h
    exact hnext
  · cases h

theorem unit_dvd {k : Nat} (hk : 1074 ≤ k) : unit ∣ 10 ^ k := by
  obtain ⟨m, hunit, hm⟩ : ∃ m, unit = 2 ^ m ∧ m ≤ k := ⟨1074, unit_eq, hk⟩
  rw [hunit]
  exact (pow_dvd_pow 2 hm).trans (pow_dvd_pow_of_dvd (by decide) k)

/-- From `10 ^ -1074` on, all magnitudes are on the grid. -/
theorem value_gridFloor (s : Nat) {e : ℤ} (he : e ≤ -1074) :
    Decimal.value ⟨gridFloor s e, e⟩ = (s : ℚ) / unit := by
  obtain ⟨t, ht⟩ := @unit_dvd (-e).toNat (by omega)
  have hwhole : e.toNat = 0 := by omega
  have hfloor : gridFloor s e = s * t := by
    rw [gridFloor, Nat.pow_eq, Nat.pow_eq, ht, hwhole, pow_zero, Nat.mul_one, Nat.mul_left_comm,
      Nat.mul_div_cancel_left _ unit_pos]
  have hunit := cast_unit_pos.ne'
  have ht0 : (t : ℚ) ≠ 0 := by
    rintro h
    have hzero : 10 ^ (-e).toNat = 0 := by rw [ht, Nat.cast_eq_zero.mp h, Nat.mul_zero]
    exact absurd hzero (by positivity)
  rw [Decimal.value, hfloor, Decimal.zpow_eq_div, ht, hwhole, pow_zero, Nat.cast_mul, Nat.cast_mul,
    Nat.cast_one]
  field_simp

/-- The search stops at a decimal in the interval, or else at the magnitude itself. -/
theorem searchGrids_cases (tie : Tie) (r : Interval) (s : Nat) {n : Nat} {e : ℤ}
    (h : e + 1074 ≤ n) : r.contains (searchGrids tie r s n e) ∨
      (searchGrids tie r s n e).value = (s : ℚ) / unit := by
  induction n generalizing e with
  | zero => exact .inr (value_gridFloor s (by omega))
  | succ n ih =>
    rw [searchGrids]
    cases hgrid : onGrid? tie r s e with
    | some d => exact .inl (contains_of_onGrid? hgrid)
    | none => exact ih (by omega)

/-- The decimal with the fewest digits rounds to its magnitude. -/
theorem isNearest_shortest (tie : Tie) (i : Nat) : IsNearest (shortest tie i).value i := by
  rw [shortest, Decimal.value_trim]
  rcases searchGrids_cases tie (.around i) (scaled i) (Int.self_le_toNat _) with h | h
  · exact isNearest_of_contains h
  · rw [h]
    exact .refl i

end LoxLang.Number
