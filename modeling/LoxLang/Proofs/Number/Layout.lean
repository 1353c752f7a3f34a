import LoxLang.Number.Text
import LoxLang.Proofs.Number.Double
import LoxLang.Proofs.Number.Shortest
import LoxLang.Proofs.Token.Longest
import Mathlib

/-!
# Number texts as literals

Decimals in positional notation and whole numbers with a point and a zero after them are literals,
and they spell the number that they were made from.

## Main definitions

* `reading`: the number that a literal spells, before it is rounded.
* `Spells`: a text is a literal that spells a number.

## Main results

* `read_of_isNearest`: a literal is read as the nearest double.
* `spells_positional`: positional notation spells its decimal.
* `spells_whole`: so does a whole number with a point and a zero after it.
-/

namespace LoxLang.Number

open Piece

/-! ## Digits -/

theorem natOfDigits_eq (ds : List Char) : natOfDigits ds = Nat.ofDigitChars 10 ds 0 :=
  Nat.ofDigitChars_eq_foldl.symm

theorem natOfDigits_digits (n : Nat) : natOfDigits (digits n) = n := by
  rw [natOfDigits_eq, digits, Nat.ofDigitChars_ten_toDigits]

theorem natOfDigits_append (ds es : List Char) :
    natOfDigits (ds ++ es) = 10 ^ es.length * natOfDigits ds + natOfDigits es := by
  rw [natOfDigits_eq, natOfDigits_eq, natOfDigits_eq, Nat.ofDigitChars_append,
    Nat.ofDigitChars_eq_ofDigitChars_zero]

theorem natOfDigits_zeros (n : Nat) : natOfDigits (List.replicate n '0') = 0 := by
  rw [natOfDigits_eq, Nat.ofDigitChars_replicate_zero, Nat.mul_zero]

theorem isDigit_of_mem_digits {n : Nat} {c : Char} (h : c ∈ digits n) : c.isDigit :=
  Nat.isDigit_of_mem_toDigits (by decide) (by decide) h

theorem length_digits_pos (n : Nat) : 0 < (digits n).length := Nat.length_toDigits_pos

/-! ## Literals -/

/-- The number that digits, a point and more digits spell. -/
def reading (whole fraction : List Char) : ℚ :=
  (natOfDigits (whole ++ fraction) : ℚ) / (10 ^ fraction.length : ℕ)

theorem reading_nonneg (whole fraction : List Char) : 0 ≤ reading whole fraction := by
  unfold reading
  positivity

theorem read_eq_ofPlace (whole fraction : List Char) : read whole fraction =
    ofPlace false (nearestIndex (natOfDigits (whole ++ fraction)) (10 ^ fraction.length)) := by
  rw [read, ofPlace, Nat.pow_eq, if_neg Bool.false_ne_true, Nat.zero_add]

/-- A literal is read as the nearest double. -/
theorem read_of_isNearest {whole fraction : List Char} {i : Nat}
    (h : IsNearest (reading whole fraction) i) (hi : i < infinityIndex) :
    read whole fraction = ofPlace false i := by
  rw [read_eq_ofPlace, nearestIndex_of_isNearest (Nat.pow_pos (by decide)) h, Nat.min_eq_left hi.le]

/-- The text is a literal of the number, and nothing else stands in it. -/
def Spells (text : List Char) (q : ℚ) : Prop :=
  ∃ whole fraction, (Shape.number whole fraction).Matches text [] ∧ reading whole fraction = q

theorem spells_digits {ds : List Char} (hne : ds ≠ []) (hdigits : ∀ c ∈ ds, c.isDigit) :
    Spells ds (natOfDigits ds) := by
  refine ⟨ds, [], ⟨hne, by rwa [List.append_nil], by simp⟩, ?_⟩
  simp [reading]

theorem spells_point {whole fraction : List Char} (hwhole : whole ≠ []) (hfraction : fraction ≠ [])
    (hdigits : ∀ c ∈ whole ++ fraction, c.isDigit) :
    Spells (whole ++ '.' :: fraction)
      (natOfDigits (whole ++ fraction) / (10 ^ fraction.length : ℕ)) :=
  ⟨whole, fraction, ⟨hwhole, hdigits, by rw [if_neg hfraction]⟩, rfl⟩

theorem isDigit_of_mem_zeros {n : Nat} {c : Char} (h : c ∈ List.replicate n '0') : c.isDigit := by
  rw [List.eq_of_mem_replicate h]
  rfl

/-- Positional notation spells its decimal. -/
theorem spells_positional (d : Decimal) : Spells d.positional d.value := by
  have hpos := length_digits_pos d.coefficient
  have hdigits : ∀ c ∈ digits d.coefficient, c.isDigit := fun c hc => isDigit_of_mem_digits hc
  have hnumber := natOfDigits_digits d.coefficient
  rw [Decimal.positional, Decimal.value, Decimal.zpow_eq_div]
  generalize digits d.coefficient = ds at hpos hdigits hnumber ⊢
  rw [← hnumber]
  have hne : ds ≠ [] := List.ne_nil_of_length_pos hpos
  split
  · next hplaces =>
    have hspells := @spells_digits (ds ++ List.replicate d.exponent.toNat '0') (by simp [hne])
      fun c hc => (List.mem_append.mp hc).elim (hdigits c) isDigit_of_mem_zeros
    rw [natOfDigits_append, natOfDigits_zeros, List.length_replicate, Nat.add_zero] at hspells
    rw [hplaces]
    simpa [mul_comm] using hspells
  · next hplaces =>
    have hwhole : d.exponent.toNat = 0 := by omega
    rw [hwhole]
    split
    · next hlt =>
      -- The point stands between the digits.
      let k := ds.length - (-d.exponent).toNat
      have htake : (ds.take k).length = k := List.length_take_of_le (by omega)
      have hdrop : (ds.drop k).length = (-d.exponent).toNat := by
        rw [List.length_drop]
        omega
      have hspells := @spells_point (ds.take k) (ds.drop k) (List.ne_nil_of_length_pos (by omega))
        (List.ne_nil_of_length_pos (by omega)) (by rwa [List.take_append_drop])
      rw [List.take_append_drop, hdrop] at hspells
      simpa [div_eq_mul_inv] using hspells
    · next hle =>
      -- Zeros stand between the point and the digits.
      let zeros := List.replicate ((-d.exponent).toNat - ds.length) '0'
      have hlength : (zeros ++ ds).length = (-d.exponent).toNat := by
        rw [List.length_append, List.length_replicate]
        omega
      have hzero : natOfDigits ['0'] = 0 := rfl
      have hspells := @spells_point ['0'] (zeros ++ ds) (by simp) (by simp [hne]) (by
        intro c hc
        rw [List.mem_append, List.mem_singleton, List.mem_append] at hc
        rcases hc with rfl | hc | hc
        · rfl
        · exact isDigit_of_mem_zeros hc
        · exact hdigits c hc)
      rw [natOfDigits_append, natOfDigits_append, hzero, natOfDigits_zeros, hlength] at hspells
      simpa [div_eq_mul_inv] using hspells

/-! ## Whole numbers -/

/-- The magnitude of a whole number. -/
theorem magnitude_of_isWhole {i : Nat} (h : isWhole i) : magnitude i = (scaled i / unit : ℕ) := by
  obtain ⟨w, hw⟩ : unit ∣ scaled i := by
    rw [isWhole, decide_eq_true_eq] at h
    exact Nat.dvd_of_mod_eq_zero h
  rw [magnitude, hw, Nat.mul_div_cancel_left w unit_pos, Nat.cast_mul,
    mul_div_cancel_left₀ _ cast_unit_pos.ne']

/-- A whole number with a point and a zero after it is a literal. -/
theorem spells_whole {i : Nat} (h : isWhole i) :
    Spells (wholeDigits i ++ ['.', '0']) (magnitude i) := by
  have hspells := @spells_point (wholeDigits i) ['0'] (List.ne_nil_of_length_pos (length_digits_pos _))
    (by simp) (by
      intro c hc
      rcases List.mem_append.mp hc with hc | hc
      · exact isDigit_of_mem_digits hc
      · rw [List.mem_singleton.mp hc]
        rfl)
  have hzero : natOfDigits ['0'] = 0 := rfl
  rw [natOfDigits_append, wholeDigits, natOfDigits_digits, hzero, List.length_singleton, pow_one,
    Nat.add_zero, Nat.cast_mul, mul_div_cancel_left₀ _ (by norm_num), ← magnitude_of_isWhole h]
    at hspells
  exact hspells

end LoxLang.Number
