import LoxLang.Proofs.Number.Numeral
import LoxLang.Value
import Mathlib

/-!
# Printed numbers

What printing a finite number shows is a numeral, and the number is the double nearest to it. So
different numbers are printed differently.

## Main results

* `isPrintedPositional_iff`: the bounds of positional notation as numbers.
* `exists_numeral`: the printed form is a numeral that rounds to the number.
* `printedChars_inj`: numbers are printed alike only if they are the same.
-/

namespace LoxLang.Number

/-! ## The bounds of positional notation -/

/-- The first place whose magnitude is at least `q`. -/
theorem le_magnitude_iff {q : ℚ} {i k : Nat} (hlt : magnitude (k - 1) < q)
    (hle : q ≤ magnitude k) : q ≤ magnitude i ↔ k ≤ i := by
  constructor
  · intro h
    by_contra hnot
    have hi : magnitude i ≤ magnitude (k - 1) := magnitude_strictMono.monotone (by omega)
    linarith
  · intro h
    exact hle.trans (magnitude_strictMono.monotone h)

theorem thousandth_le_iff (i : Nat) : 1 / 1000 ≤ magnitude i ↔ nearestIndex 1 1000 ≤ i := by
  -- The magnitude nearest to a thousandth is above it, so that it is the first that is not below.
  have hlow : scaled (nearestIndex 1 1000 - 1) * 1000 < unit := by decide +kernel
  have hhigh : unit ≤ scaled (nearestIndex 1 1000) * 1000 := by decide +kernel
  have hlow' : (scaled (nearestIndex 1 1000 - 1) : ℚ) * 1000 < unit := by exact_mod_cast hlow
  have hhigh' : (unit : ℚ) ≤ scaled (nearestIndex 1 1000) * 1000 := by exact_mod_cast hhigh
  apply le_magnitude_iff
  · rw [magnitude, div_lt_div_iff₀ cast_unit_pos (by norm_num), one_mul]
    exact hlow'
  · rw [magnitude, div_le_div_iff₀ (by norm_num) cast_unit_pos, one_mul]
    exact hhigh'

theorem lt_tenMillion_iff (i : Nat) : magnitude i < 10000000 ↔ i < nearestIndex 10000000 1 := by
  have hscaled : scaled (nearestIndex 10000000 1) = unit * 10000000 := by decide +kernel
  have hmagnitude : magnitude (nearestIndex 10000000 1) = 10000000 := by
    rw [magnitude, hscaled, Nat.cast_mul, mul_div_cancel_left₀ _ cast_unit_pos.ne']
    norm_num
  rw [← hmagnitude, magnitude_strictMono.lt_iff_lt]

/-- Positional notation is for the magnitudes from a thousandth up to ten million. -/
theorem isPrintedPositional_iff (i : Nat) :
    isPrintedPositional i ↔ 1 / 1000 ≤ magnitude i ∧ magnitude i < 10000000 := by
  rw [isPrintedPositional, thousandth_le_iff, lt_tenMillion_iff, Bool.and_eq_true,
    decide_eq_true_eq, decide_eq_true_eq]

/-! ## Numerals -/

theorem coefficient_shortest_pos (tie : Tie) {i : Nat} (h : i ≠ 0) :
    0 < (shortest tie i).coefficient := by
  refine Nat.pos_of_ne_zero fun hzero => h ?_
  have hnearest := isNearest_shortest tie i
  rw [Decimal.value, hzero, Nat.cast_zero, zero_mul, ← magnitude_zero] at hnearest
  exact hnearest.unique (.refl 0)

/-- The printed form of a finite number is a numeral that rounds to it. -/
theorem exists_numeral (negative : Bool) (i : Nat) : ∃ n : Numeral,
    n.chars = printedChars (.finite negative i) ∧ n.negative = negative ∧
      IsNearest n.absolute i ∧
      (n.exponent.isSome ↔ i ≠ 0 ∧ ¬ isPrintedPositional i) ∧
      (n.exponent.isSome → ∃ c, n.whole = [c] ∧ c ≠ '0' ∧ n.fraction ≠ []) := by
  rw [printedChars]
  split
  · next hi =>
    have hspells : Spells ['0'] (0 : ℕ) := spells_digits (by simp) (by simp)
    obtain ⟨n, hchars, hnegative, hvalue, hexponent⟩ := Numeral.exists_of_spells hspells negative
    refine ⟨n, hchars, hnegative, ?_, by simp [hexponent, hi], by simp [hexponent]⟩
    rw [hvalue, hi, Nat.cast_zero, ← magnitude_zero]
    exact .refl 0
  · next hi =>
    have hnearest := isNearest_shortest .up i
    dsimp only
    split
    · next hpositional =>
      obtain ⟨n, hchars, hnegative, hvalue, hexponent⟩ :=
        Numeral.exists_of_spells (spells_positional (shortest .up i)) negative
      refine ⟨n, hchars, hnegative, by rwa [hvalue], by simp [hexponent, hpositional],
        by simp [hexponent]⟩
    · next hpositional =>
      obtain ⟨n, hchars, hnegative, hvalue, hexponent, hwhole⟩ :=
        Numeral.exists_of_scientific (coefficient_shortest_pos .up hi) negative
      exact ⟨n, hchars, hnegative, by rwa [hvalue], by simp [hexponent, hpositional, hi],
        fun _ => hwhole⟩

/-- The names of the infinities are not numerals. -/
theorem ofChars?_infinite (negative : Bool) :
    Numeral.ofChars? (printedChars (.infinite negative)) = none := by
  cases negative <;> decide +kernel

/-- Numbers are printed alike only if they are the same. -/
theorem printedChars_inj {a b : Binary64} (ha : a ≠ .nan) (hb : b ≠ .nan)
    (h : printedChars a = printedChars b) : a = b := by
  have hnot (negative negative' : Bool) (i : Nat) :
      printedChars (.infinite negative) ≠ printedChars (.finite negative' i) := by
    obtain ⟨n, hchars, -⟩ := exists_numeral negative' i
    intro hsame
    have hread := ofChars?_infinite negative
    rw [hsame, ← hchars, n.ofChars?_chars] at hread
    cases hread
  cases a with
  | nan => exact absurd rfl ha
  | infinite negative =>
    cases b with
    | nan => exact absurd rfl hb
    | infinite negative' =>
      cases negative <;> cases negative' <;> first | rfl | exact absurd h (by decide +kernel)
    | finite negative' i => exact absurd h (hnot negative negative' i)
  | finite negative i =>
    cases b with
    | nan => exact absurd rfl hb
    | infinite negative' => exact absurd h.symm (hnot negative' negative i)
    | finite negative' j =>
      obtain ⟨n, hchars, rfl, hn, -⟩ := exists_numeral negative i
      obtain ⟨m, hchars', rfl, hm, -⟩ := exists_numeral negative' j
      obtain rfl : n = m := Numeral.chars_injective (by rw [hchars, hchars', h])
      rw [hn.unique hm]

theorem ofFloat_ne_nan {x : Float} (h : x.isNaN = false) : Binary64.ofFloat x ≠ .nan := by
  intro hx
  rcases ofFloat_cases x with ⟨_, _, hfloat, -⟩ | ⟨_, hfloat, -⟩ | ⟨-, -, -, hnan⟩
  · cases hx.symm.trans hfloat
  · cases hx.symm.trans hfloat
  · rw [h] at hnan
    cases hnan

/-- The only double of its sign that a numeral rounds to. -/
theorem roundsTo_value_iff {n : Numeral} {i : Nat} (h : IsNearest n.absolute i)
    (hi : i < infinityIndex) (y : Float) :
    RoundsTo n.value y ∧ (n.negative ↔ 2 ^ 63 ≤ y.toBits.toNat) ↔ y = ofPlace n.negative i := by
  constructor
  · rintro ⟨hround, hsign⟩
    obtain ⟨negative, j, -, rfl, hj, -⟩ := ofFloat_of_isFinite hround.finite
    rw [le_toBits_ofPlace_iff negative hj.le, ← Bool.eq_iff_iff] at hsign
    subst hsign
    rw [hround.place_eq h hi hj]
  · rintro rfl
    exact ⟨roundsTo_of_isNearest n.absolute_nonneg h hi n.negative,
      (le_toBits_ofPlace_iff n.negative hi.le).symm⟩

/-- Where the printed form has an exponent, as a bound on the number. -/
theorem ne_zero_and_not_isPrintedPositional_iff {x : Float} {negative : Bool} {i : Nat}
    (h : exact x = withSign negative (magnitude i)) : i ≠ 0 ∧ ¬ isPrintedPositional i ↔
      exact x ≠ 0 ∧ ¬ (1 / 1000 ≤ |exact x| ∧ |exact x| < 10000000) := by
  have habs : |exact x| = magnitude i := by
    rw [h, abs_withSign, abs_of_nonneg (magnitude_nonneg i)]
  have hzero : exact x ≠ 0 ↔ i ≠ 0 := by
    rw [← abs_pos, habs, ← magnitude_zero, magnitude_strictMono.lt_iff_lt, Nat.pos_iff_ne_zero]
  rw [hzero, habs, isPrintedPositional_iff]

/-- A printed text identifies its number. Two numbers are printed differently, a zero and its
negative included, and the text of a finite number is a numeral that no other double of its sign is
nearest to. An exponent stands in it just for the magnitudes below a thousandth and from ten million
on, after one digit that is not zero, a point and more digits. -/
theorem printed_text_identifies_number :
    (∀ x y : Float, x.isNaN = false → y.isNaN = false → x.toBits ≠ y.toBits →
      (Value.number x).text ≠ (Value.number y).text) ∧
    ∀ x : Float, x.isFinite → ∃ n, Numeral.ofChars? (Value.number x).text.toList = some n ∧
      (∀ y : Float, RoundsTo n.value y ∧ (n.negative ↔ 2 ^ 63 ≤ y.toBits.toNat) ↔ y = x) ∧
      (n.exponent.isSome ↔ exact x ≠ 0 ∧ ¬ (1 / 1000 ≤ |exact x| ∧ |exact x| < 10000000)) ∧
      (n.exponent.isSome → ∃ c, n.whole = [c] ∧ c ≠ '0' ∧ n.fraction ≠ []) := by
  constructor
  · intro x y hx hy hbits htext
    have hchars : printedChars (.ofFloat x) = printedChars (.ofFloat y) :=
      String.ofList_injective htext
    have hfloat := printedChars_inj (ofFloat_ne_nan hx) (ofFloat_ne_nan hy) hchars
    have hsame := congrArg Binary64.toFloat hfloat
    rw [toFloat_ofFloat hx, toFloat_ofFloat hy] at hsame
    exact hbits (congrArg Float.toBits hsame)
  · intro x hx
    obtain ⟨negative, i, hfloat, hplace, hi, hvalue⟩ := ofFloat_of_isFinite hx
    obtain ⟨n, hchars, rfl, hnearest, hexponent, hwhole⟩ := exists_numeral negative i
    have htext : (Value.number x).text.toList = n.chars := by
      rw [hchars, ← hfloat, Value.text, printed, String.toList_ofList]
    refine ⟨n, ?_, fun y => ?_, ?_, hwhole⟩
    · rw [htext, n.ofChars?_chars]
    · rw [roundsTo_value_iff hnearest hi, hplace]
    · rw [hexponent, ne_zero_and_not_isPrintedPositional_iff hvalue]

/-- The two zeros, and the least positive double. -/
theorem printed_text_identifies_number_at_zero :
    (Value.number (.ofBits 0)).text ≠ (Value.number (.ofBits 0x8000000000000000)).text ∧
      ∃ n, Numeral.ofChars? "5.0E-324".toList = some n ∧
        ∀ y : Float, RoundsTo n.value y ∧ (n.negative ↔ 2 ^ 63 ≤ y.toBits.toNat) ↔
          y = .ofBits 1 := by
  have hleast : (Value.number (.ofBits 1)).text = "5.0E-324" := by decide +kernel
  obtain ⟨n, hread, hround, -⟩ := printed_text_identifies_number.2 (.ofBits 1) (by decide +kernel)
  rw [hleast] at hread
  exact ⟨printed_text_identifies_number.1 _ _ (by decide +kernel) (by decide +kernel)
    (by decide +kernel), n, hread, hround⟩

end LoxLang.Number
