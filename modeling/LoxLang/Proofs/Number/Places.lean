import LoxLang.Number.Nearest
import Mathlib

/-!
# The nearest magnitude

Magnitudes grow with their places, so that between two neighbours there is no third one. A number is
rounded by finding its neighbours and comparing it with their midpoint.

## Main definitions

* `magnitude`: the magnitude at a place, as a rational number.
* `IsNearest`: the place of the magnitude nearest to a number.

## Main results

* `IsNearest.of_between`: the numbers that round to a magnitude.
* `IsNearest.unique`: there is one nearest place.
* `nearestIndex_of_isNearest`: the place that rounding finds.
-/

namespace LoxLang.Number

/-! ## Places -/

/-- The magnitude with `m` as its leading bits and `p` bits after them. -/
theorem scaled_add {p m : Nat} (hm : m ≤ 2 ^ 53) (hp : p = 0 ∨ 2 ^ 52 ≤ m) :
    scaled (p * 2 ^ 52 + m) = m * 2 ^ p := by
  unfold scaled
  simp only [Nat.pow_eq]
  rcases Nat.lt_or_ge m (2 ^ 52) with hlow | hlow
  · obtain rfl : p = 0 := by omega
    rw [if_pos (by omega), Nat.zero_mul, Nat.zero_add, Nat.pow_zero, Nat.mul_one]
  rw [if_neg (by omega)]
  rcases Nat.lt_or_ge m (2 ^ 53) with hhigh | hhigh
  · have hquotient : (p * 2 ^ 52 + m) / 2 ^ 52 - 1 = p := by omega
    have hremainder : 2 ^ 52 + (p * 2 ^ 52 + m) % 2 ^ 52 = m := by omega
    rw [hquotient, hremainder]
  · -- The first place of the next power of two.
    have hquotient : (p * 2 ^ 52 + m) / 2 ^ 52 - 1 = p + 1 := by omega
    have hremainder : (p * 2 ^ 52 + m) % 2 ^ 52 = 0 := by omega
    obtain rfl : m = 2 ^ 53 := by omega
    rw [hquotient, hremainder]
    ring

/-- Every place is given by its leading bits and the number of bits after them. -/
theorem exists_place (i : Nat) : ∃ p m, i = p * 2 ^ 52 + m ∧ m < 2 ^ 53 ∧ (p = 0 ∨ 2 ^ 52 ≤ m) := by
  rcases Nat.lt_or_ge i (2 ^ 52) with h | h
  · exact ⟨0, i, by omega, by omega, .inl rfl⟩
  · exact ⟨i / 2 ^ 52 - 1, 2 ^ 52 + i % 2 ^ 52, by omega, by omega, .inr (by omega)⟩

theorem scaled_lt_succ (i : Nat) : scaled i < scaled (i + 1) := by
  obtain ⟨p, m, rfl, hm, hp⟩ := exists_place i
  rw [scaled_add (by omega) hp, Nat.add_assoc, scaled_add (by omega) (by omega)]
  exact Nat.mul_lt_mul_of_pos_right (Nat.lt_succ_self m) (Nat.two_pow_pos p)

theorem scaled_strictMono : StrictMono scaled := strictMono_nat_of_lt_succ scaled_lt_succ

/-- Of a number with more than 53 bits, the first 53. -/
theorem leading_bits (x : Nat) : x / 2 ^ (x.log2 - 52) < 2 ^ 53 ∧
    (x.log2 - 52 = 0 ∨ 2 ^ 52 ≤ x / 2 ^ (x.log2 - 52)) := by
  constructor
  · rw [Nat.div_lt_iff_lt_mul (Nat.two_pow_pos _), ← Nat.pow_add]
    exact Nat.lt_of_lt_of_le Nat.lt_log2_self (Nat.pow_le_pow_right (by decide) (by omega))
  · rcases Nat.eq_zero_or_pos (x.log2 - 52) with h | h
    · exact .inl h
    · have hx : x ≠ 0 := by
        rintro rfl
        simp at h
      right
      rw [Nat.le_div_iff_mul_le (Nat.two_pow_pos _), ← Nat.pow_add]
      exact Nat.le_trans (Nat.pow_le_pow_right (by decide) (by omega)) (Nat.log2_self_le hx)

/-- The neighbours of a multiple of `2 ^ -1074`. -/
theorem scaled_floorIndex (x : Nat) :
    scaled (floorIndex x) ≤ x ∧ x < scaled (floorIndex x + 1) := by
  let p := x.log2 - 52
  let m := x / 2 ^ p
  have hindex : floorIndex x = p * 2 ^ 52 + m := rfl
  obtain ⟨hm, hp⟩ : m < 2 ^ 53 ∧ (p = 0 ∨ 2 ^ 52 ≤ m) := leading_bits x
  rw [hindex, scaled_add (Nat.le_of_lt hm) hp, Nat.add_assoc, scaled_add hm (by omega)]
  constructor
  · exact Nat.div_mul_le_self x (2 ^ p)
  · exact Nat.lt_mul_of_div_lt (Nat.lt_succ_self _) (Nat.two_pow_pos p)

/-! ## Magnitudes -/

/-- The magnitude at place `i`. From the place of infinity on, this is what it would be if exponents
had no end. -/
def magnitude (i : Nat) : ℚ := scaled i / unit

theorem unit_eq : unit = 2 ^ 1074 := by decide +kernel

theorem unit_pos : 0 < unit := by decide +kernel

theorem cast_unit_pos : (0 : ℚ) < unit := Nat.cast_pos.mpr unit_pos

theorem magnitude_strictMono : StrictMono magnitude := by
  intro i j h
  exact div_lt_div_of_pos_right (by exact_mod_cast scaled_strictMono h) cast_unit_pos

theorem scaled_zero : scaled 0 = 0 := rfl

@[simp] theorem magnitude_zero : magnitude 0 = 0 := by
  rw [magnitude, scaled_zero, Nat.cast_zero, zero_div]

theorem magnitude_nonneg (i : Nat) : 0 ≤ magnitude i := by
  unfold magnitude
  positivity

/-- No magnitude is nearer to `q` than the one at place `i`, and if another one is as near, the place
is even. -/
structure IsNearest (q : ℚ) (i : Nat) : Prop where
  nearest : ∀ j, |q - magnitude i| ≤ |q - magnitude j|
  even : ∀ j, j ≠ i → |q - magnitude i| = |q - magnitude j| → i % 2 = 0

section Distance

variable {q a b : ℚ}

/-- The nearer of two numbers lies on the same side of their midpoint. -/
theorem abs_sub_le_abs_sub_iff : |q - a| ≤ |q - b| ↔ 0 ≤ (a - b) * (2 * q - (a + b)) := by
  rw [← sq_le_sq, ← sub_nonneg]
  ring_nf

theorem abs_sub_eq_abs_sub_iff : |q - a| = |q - b| ↔ a = b ∨ 2 * q = a + b := by
  rw [← sq_eq_sq_iff_abs_eq_abs, ← sub_eq_zero, ← sub_eq_zero (a := a), ← sub_eq_zero (a := 2 * q),
    ← mul_eq_zero]
  constructor <;> intro h <;> linarith

end Distance

namespace IsNearest

variable {q : ℚ} {i : Nat}

/-- The numbers between the midpoints to the neighbours of a magnitude round to it, and the midpoints
do if its place is even. -/
theorem of_between (hlow : magnitude (i - 1) + magnitude i ≤ 2 * q)
    (hhigh : 2 * q ≤ magnitude i + magnitude (i + 1))
    (heven : 2 * q = magnitude (i - 1) + magnitude i ∨ 2 * q = magnitude i + magnitude (i + 1) →
      i % 2 = 0) : IsNearest q i := by
  have hbefore : ∀ j < i, magnitude j ≤ magnitude (i - 1) ∧ magnitude j < magnitude i :=
    fun j hj => ⟨magnitude_strictMono.monotone (by omega), magnitude_strictMono hj⟩
  have hafter : ∀ j, i < j → magnitude (i + 1) ≤ magnitude j ∧ magnitude i < magnitude j :=
    fun j hj => ⟨magnitude_strictMono.monotone hj, magnitude_strictMono hj⟩
  constructor
  · intro j
    rw [abs_sub_le_abs_sub_iff]
    rcases Nat.lt_trichotomy j i with hj | rfl | hj
    · obtain ⟨hle, hlt⟩ := hbefore j hj
      exact mul_nonneg (by linarith) (by linarith)
    · simp
    · obtain ⟨hle, hlt⟩ := hafter j hj
      exact mul_nonneg_of_nonpos_of_nonpos (by linarith) (by linarith)
  · intro j hj heq
    have hmiddle := (abs_sub_eq_abs_sub_iff.mp heq).resolve_left fun h =>
      hj (magnitude_strictMono.injective h).symm
    rcases Nat.lt_or_gt_of_ne hj with hj | hj
    · exact heven (.inl (by linarith [(hbefore j hj).1]))
    · exact heven (.inr (by linarith [(hafter j hj).1]))

/-- Between two neighbours, the lower one is the nearest up to the midpoint. -/
theorem of_lower (hlow : magnitude i ≤ q) (h : 2 * q ≤ magnitude i + magnitude (i + 1))
    (heven : 2 * q = magnitude i + magnitude (i + 1) → i % 2 = 0) : IsNearest q i := by
  have hbefore : magnitude (i - 1) ≤ magnitude i := magnitude_strictMono.monotone (by omega)
  refine .of_between (by linarith) h fun heq => heq.elim (fun heq => ?_) heven
  -- The midpoint before `i` is below `i`, unless `i` is the first place.
  rcases Nat.eq_zero_or_pos i with rfl | hpos
  · rfl
  · have hlt : magnitude (i - 1) < magnitude i := magnitude_strictMono (by omega)
    linarith

/-- Between two neighbours, the upper one is the nearest from the midpoint on. -/
theorem of_upper (hhigh : q ≤ magnitude (i + 1)) (h : magnitude i + magnitude (i + 1) ≤ 2 * q)
    (hodd : 2 * q = magnitude i + magnitude (i + 1) → i % 2 = 1) : IsNearest q (i + 1) := by
  have hafter : magnitude (i + 1) < magnitude (i + 1 + 1) := magnitude_strictMono (by omega)
  refine .of_between h (by linarith) fun heq => heq.elim (fun heq => ?_) (fun heq => by linarith)
  have := hodd heq
  omega

/-- A magnitude is the nearest one to itself. -/
theorem refl (i : Nat) : IsNearest (magnitude i) i := by
  have hafter : magnitude i < magnitude (i + 1) := magnitude_strictMono (by omega)
  exact .of_lower le_rfl (by linarith) fun heq => by linarith

/-- Of two nearest places the later one is not the later neighbour, as only one of these is even,
and it is no other. -/
theorem not_lt {j : Nat} (hi : IsNearest q i) (hj : IsNearest q j) : ¬ i < j := by
  intro hlt
  have heq := le_antisymm (hi.nearest j) (hj.nearest i)
  have hmiddle := (abs_sub_eq_abs_sub_iff.mp heq).resolve_left fun h =>
    hlt.ne (magnitude_strictMono.injective h)
  have heven := hi.even j hlt.ne' heq
  have heven' := hj.even i hlt.ne heq.symm
  have hnear := abs_sub_le_abs_sub_iff.mp (hi.nearest (i + 1))
  have hnext : magnitude i < magnitude (i + 1) := magnitude_strictMono (by omega)
  have hlater : magnitude (i + 1) < magnitude j := magnitude_strictMono (by omega)
  nlinarith

theorem unique {j : Nat} (hi : IsNearest q i) (hj : IsNearest q j) : i = j := by
  have hle := hi.not_lt hj
  have hge := hj.not_lt hi
  omega

end IsNearest

/-! ## Rounding -/

/-- The neighbours of a ratio. -/
theorem magnitude_floorIndex (n : Nat) {d : Nat} (hd : 0 < d) :
    magnitude (floorIndex (n * unit / d)) ≤ (n : ℚ) / d ∧
      (n : ℚ) / d < magnitude (floorIndex (n * unit / d) + 1) := by
  obtain ⟨hlow, hhigh⟩ := scaled_floorIndex (n * unit / d)
  rw [Nat.le_div_iff_mul_le hd] at hlow
  rw [Nat.div_lt_iff_lt_mul hd] at hhigh
  have hd : (0 : ℚ) < d := by exact_mod_cast hd
  unfold magnitude
  rw [div_le_div_iff₀ cast_unit_pos hd, div_lt_div_iff₀ hd cast_unit_pos]
  exact ⟨by exact_mod_cast hlow, by exact_mod_cast hhigh⟩

/-- Ratios compare as their cross products do. -/
theorem compare_mul {a b c d : Nat} (hc : 0 < c) (hd : 0 < d) :
    compare (a * d) (b * c) = compare ((a : ℚ) / c) (b / d) := by
  have hc : (0 : ℚ) < c := by exact_mod_cast hc
  have hd : (0 : ℚ) < d := by exact_mod_cast hd
  rw [compare_iff]
  rcases lt_trichotomy ((a : ℚ) / c) (b / d) with h | h | h
  · rw [compare_lt_iff_lt.mpr h]
    rw [div_lt_div_iff₀ hc hd] at h
    exact_mod_cast h
  · rw [compare_eq_iff_eq.mpr h]
    rw [div_eq_div_iff hc.ne' hd.ne'] at h
    exact_mod_cast h
  · rw [compare_gt_iff_gt.mpr h]
    rw [div_lt_div_iff₀ hd hc] at h
    exact_mod_cast h

theorem exists_isNearest (n : Nat) {d : Nat} (hd : 0 < d) :
    ∃ j, IsNearest ((n : ℚ) / d) j ∧ nearestIndex n d = min j infinityIndex := by
  obtain ⟨hlow, hhigh⟩ := magnitude_floorIndex n hd
  unfold nearestIndex
  generalize floorIndex (n * unit / d) = i at hlow hhigh ⊢
  have hmiddle : ((scaled i + scaled (i + 1) : ℕ) : ℚ) / unit = magnitude i + magnitude (i + 1) := by
    rw [Nat.cast_add, add_div, magnitude, magnitude]
  have htwice : ((2 * n : ℕ) : ℚ) / d = 2 * (n / d) := by
    rw [Nat.cast_mul, Nat.cast_two, mul_div_assoc]
  dsimp only
  rw [compare_mul hd unit_pos, hmiddle, htwice]
  split
  · next hcompare =>
    have hlt := compare_lt_iff_lt.mp hcompare
    exact ⟨i, .of_lower hlow hlt.le fun heq => absurd heq hlt.ne, rfl⟩
  · next hcompare =>
    have hgt := compare_gt_iff_gt.mp hcompare
    exact ⟨i + 1, .of_upper hhigh.le hgt.le fun heq => absurd heq hgt.ne', rfl⟩
  · next hcompare =>
    have heq := compare_eq_iff_eq.mp hcompare
    refine ⟨i + i % 2, ?_, rfl⟩
    rcases Nat.mod_two_eq_zero_or_one i with heven | hodd
    · have hplace : i + i % 2 = i := by omega
      rw [hplace]
      exact .of_lower hlow heq.le fun _ => heven
    · have hplace : i + i % 2 = i + 1 := by omega
      rw [hplace]
      exact .of_upper hhigh.le heq.ge fun _ => hodd

/-- Rounding finds the nearest place, or that of infinity if it is before it. -/
theorem nearestIndex_of_isNearest {n d i : Nat} (hd : 0 < d) (h : IsNearest ((n : ℚ) / d) i) :
    nearestIndex n d = min i infinityIndex := by
  obtain ⟨j, hj, heq⟩ := exists_isNearest n hd
  rw [heq, hj.unique h]

end LoxLang.Number
