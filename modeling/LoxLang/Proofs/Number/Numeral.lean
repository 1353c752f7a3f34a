import LoxLang.Proofs.Number.Layout
import Mathlib

/-!
# Decimal numerals

A numeral is a literal that may have a minus sign before it and a power of ten after it. Its text is
read back from the front: the sign, the digits before and after the point, and the exponent.

## Main definitions

* `Numeral`: a numeral by its parts, with `Numeral.chars` its text and `Numeral.value` its number.
* `Numeral.ofChars?`: the numeral that a text is.

## Main results

* `Numeral.ofChars?_chars`: a numeral is read back from its text.
* `Numeral.exists_of_spells`: literals are numerals, also with a sign.
* `Numeral.exists_of_scientific`: so are decimals in scientific notation.
-/

namespace LoxLang.Number

/-- A decimal numeral, with the power of ten that stands after an `E`. -/
structure Numeral where
  negative : Bool
  whole : List Char
  fraction : List Char
  exponent : Option Int
  whole_ne_nil : whole ≠ []
  isDigit_of_mem : ∀ c ∈ whole ++ fraction, c.isDigit
  deriving DecidableEq

namespace Numeral

/-- The number without its sign. -/
def absolute (n : Numeral) : ℚ := reading n.whole n.fraction * 10 ^ n.exponent.getD 0

theorem absolute_nonneg (n : Numeral) : 0 ≤ n.absolute :=
  mul_nonneg (reading_nonneg n.whole n.fraction) (by positivity)

def value (n : Numeral) : ℚ := withSign n.negative n.absolute

def exponentChars : Option Int → List Char
  | none => []
  | some e => 'E' :: (toString e).toList

def chars (n : Numeral) : List Char :=
  signed n.negative <|
    n.whole ++ ((if n.fraction = [] then [] else '.' :: n.fraction) ++ exponentChars n.exponent)

/-! ## Reading -/

def splitSign : List Char → Bool × List Char
  | '-' :: cs => (true, cs)
  | cs => (false, cs)

/-- A point and the digits after it. Without digits there is no point either. -/
def splitFraction : List Char → List Char × List Char
  | '.' :: cs => if cs.takeWhile Char.isDigit = [] then ([], '.' :: cs) else cs.span Char.isDigit
  | cs => ([], cs)

def integer? (cs : List Char) : Option Int :=
  let (negative, ds) := splitSign cs
  if ds ≠ [] ∧ ∀ c ∈ ds, c.isDigit then
    some (if negative then -natOfDigits ds else natOfDigits ds)
  else none

/-- The exponent, if nothing else is left. -/
def exponent? : List Char → Option (Option Int)
  | [] => some none
  | 'E' :: cs => (integer? cs).map some
  | _ => none

/-- The numeral that a text is. -/
def ofChars? (cs : List Char) : Option Numeral :=
  let (negative, cs) := splitSign cs
  let (whole, cs) := cs.span Char.isDigit
  let (fraction, cs) := splitFraction cs
  if h : whole ≠ [] ∧ ∀ c ∈ whole ++ fraction, c.isDigit then
    (exponent? cs).map fun exponent => ⟨negative, whole, fraction, exponent, h.1, h.2⟩
  else none

theorem splitSign_signed (negative : Bool) {cs : List Char} (h : cs.head? ≠ some '-') :
    splitSign (signed negative cs) = (negative, cs) := by
  cases negative with
  | true => rfl
  | false =>
    rw [signed, if_neg Bool.false_ne_true]
    unfold splitSign
    split
    · exact absurd rfl h
    · rfl

/-- Digits at the front are split off up to the first other character. -/
theorem span_isDigit_append {ds cs : List Char} (hds : ∀ c ∈ ds, c.isDigit)
    (hcs : ∀ c ∈ cs.head?, c.isDigit = false) : (ds ++ cs).span Char.isDigit = (ds, cs) := by
  rw [List.span_eq_takeWhile_dropWhile, List.takeWhile_append_of_pos hds,
    List.dropWhile_append_of_pos hds]
  cases cs with
  | nil => simp
  | cons c cs => simp [hcs c rfl]

theorem splitFraction_append {ds cs : List Char} (hds : ∀ c ∈ ds, c.isDigit)
    (hcs : ∀ c ∈ cs.head?, c.isDigit = false ∧ c ≠ '.') :
    splitFraction ((if ds = [] then [] else '.' :: ds) ++ cs) = (ds, cs) := by
  have hspan := span_isDigit_append hds fun c hc => (hcs c hc).1
  split
  · next hnil =>
    rw [List.nil_append, hnil]
    unfold splitFraction
    split
    · exact absurd rfl (hcs '.' rfl).2
    · rfl
  · next hne =>
    have htake : (ds ++ cs).takeWhile Char.isDigit = ds := by
      rw [List.span_eq_takeWhile_dropWhile] at hspan
      exact congrArg Prod.fst hspan
    rw [List.cons_append, splitFraction, if_neg (by rwa [htake]), hspan]

theorem integer?_toString (e : Int) : integer? (toString e).toList = some e := by
  have hpos (n : Nat) : digits n ≠ [] := List.ne_nil_of_length_pos (length_digits_pos n)
  have hall (n : Nat) : ∀ c ∈ digits n, c.isDigit := fun _ h => isDigit_of_mem_digits h
  have hhead (n : Nat) : (digits n).head? ≠ some '-' := by
    intro h
    exact absurd (hall n '-' (List.mem_of_mem_head? h)) (by decide)
  obtain ⟨negative, n, htext, rfl⟩ : ∃ negative n, (toString e).toList = signed negative (digits n) ∧
      (if negative then -(n : Int) else n) = e := by
    rw [Int.toString_eq_repr, Int.repr_eq_if]
    split
    · next h => exact ⟨false, e.toNat, Nat.toList_repr, Int.toNat_of_nonneg h⟩
    · next h =>
      refine ⟨true, (-e).toNat, ?_, ?_⟩
      · rw [String.toList_append, Nat.toList_repr]
        rfl
      · rw [if_pos rfl]
        omega
  rw [integer?, htext, splitSign_signed negative (hhead n)]
  dsimp only
  rw [if_pos ⟨hpos n, hall n⟩, natOfDigits_digits]

theorem exponent?_exponentChars (exponent : Option Int) :
    exponent? (exponentChars exponent) = some exponent := by
  cases exponent with
  | none => rfl
  | some e => rw [exponentChars, exponent?, integer?_toString, Option.map_some]

theorem mem_head?_exponentChars {exponent : Option Int} {c : Char}
    (h : c ∈ (exponentChars exponent).head?) : c = 'E' := by
  cases exponent with
  | none => cases h
  | some e =>
    cases h
    rfl

/-- A numeral is read back from its text. -/
theorem ofChars?_chars (n : Numeral) : ofChars? n.chars = some n := by
  have hwhole : ∀ c ∈ n.whole, c.isDigit := fun c h => n.isDigit_of_mem c (by simp [h])
  have hfraction : ∀ c ∈ n.fraction, c.isDigit := fun c h => n.isDigit_of_mem c (by simp [h])
  let tail := (if n.fraction = [] then [] else '.' :: n.fraction) ++ exponentChars n.exponent
  have htail : ∀ c ∈ tail.head?, c.isDigit = false := by
    intro c hc
    by_cases h : n.fraction = []
    · rw [show tail = exponentChars n.exponent by simp [tail, h]] at hc
      rw [mem_head?_exponentChars hc]
      rfl
    · rw [show tail = '.' :: (n.fraction ++ exponentChars n.exponent) by simp [tail, h]] at hc
      cases hc
      rfl
  have hhead : (n.whole ++ tail).head? ≠ some '-' := by
    obtain ⟨c, cs, h⟩ := List.exists_cons_of_ne_nil n.whole_ne_nil
    rw [h]
    rintro ⟨⟩
    exact absurd (hwhole '-' (h ▸ List.mem_cons_self)) (by decide)
  have hsplit : splitFraction tail = (n.fraction, exponentChars n.exponent) :=
    splitFraction_append hfraction fun c hc => by
      rw [mem_head?_exponentChars hc]
      decide
  rw [chars, ofChars?, splitSign_signed n.negative hhead]
  dsimp only
  rw [span_isDigit_append hwhole htail]
  dsimp only
  rw [hsplit]
  dsimp only
  rw [dif_pos ⟨n.whole_ne_nil, n.isDigit_of_mem⟩, exponent?_exponentChars, Option.map_some]

theorem chars_injective : Function.Injective chars := by
  intro n m h
  have hread := congrArg ofChars? h
  rw [ofChars?_chars, ofChars?_chars] at hread
  exact Option.some.inj hread

/-! ## Literals and scientific notation -/

/-- A literal is a numeral without an exponent, and it may have a sign. -/
theorem exists_of_spells {text : List Char} {q : ℚ} (h : Spells text q) (negative : Bool) :
    ∃ n : Numeral, n.chars = signed negative text ∧ n.negative = negative ∧ n.absolute = q ∧
      n.exponent = none := by
  obtain ⟨whole, fraction, ⟨hne, hdigits, rfl⟩, rfl⟩ := h
  refine ⟨⟨negative, whole, fraction, none, hne, hdigits⟩, ?_, rfl, ?_, rfl⟩
  · rw [chars, exponentChars, List.append_nil]
  · rw [absolute, Option.getD_none, zpow_zero, mul_one]

/-- The first digit of a positive number. -/
theorem head?_digits_ne {n : Nat} (h : 0 < n) : (digits n).head? ≠ some '0' := by
  induction n using Nat.strong_induction_on with
  | _ n ih =>
    rcases Nat.lt_or_ge n 10 with hlt | hge
    · interval_cases n <;> decide
    · have hdigits : digits n = digits (n / 10) ++ [(n % 10).digitChar] :=
        Nat.toDigits_of_base_le (by decide) hge
      rw [hdigits, List.head?_append_of_ne_nil _ (List.ne_nil_of_length_pos (length_digits_pos _))]
      exact ih (n / 10) (by omega) (by omega)

/-- The point of a scientific notation stands after the first digit, and a digit follows it. -/
theorem exists_point_after_first {ds : List Char} (hpos : 0 < ds.length)
    (hall : ∀ c ∈ ds, c.isDigit) : ∃ c fraction, ds.head? = some c ∧
      ds.take 1 ++ '.' :: (if ds.length = 1 then ['0'] else ds.drop 1) = [c] ++ '.' :: fraction ∧
      fraction ≠ [] ∧ (∀ d ∈ [c] ++ fraction, d.isDigit) ∧
      reading [c] fraction * 10 ^ ((ds.length : ℤ) - 1) = natOfDigits ds := by
  cases ds with
  | nil => cases hpos
  | cons c ds =>
    cases ds with
    | nil =>
      have hzero : natOfDigits ['0'] = 0 := rfl
      refine ⟨c, ['0'], rfl, rfl, by simp, ?_, ?_⟩
      · intro d hd
        rcases List.mem_cons.mp hd with rfl | hd
        · exact hall d List.mem_cons_self
        · rw [List.mem_singleton.mp hd]
          rfl
      · rw [reading, natOfDigits_append, hzero]
        simp
    | cons c' ds =>
      have hlength : (((c :: c' :: ds).length : ℕ) - 1 : ℤ) = (c' :: ds).length := by
        simp
      refine ⟨c, c' :: ds, rfl, rfl, by simp, hall, ?_⟩
      rw [reading, hlength, zpow_natCast, Nat.cast_pow, Nat.cast_ofNat,
        div_mul_cancel₀ _ (by positivity), List.singleton_append]

/-- Scientific notation is a numeral with an exponent, and one digit stands before its point. -/
theorem exists_of_scientific {d : Decimal} (h : 0 < d.coefficient) (negative : Bool) :
    ∃ n : Numeral, n.chars = signed negative (printedScientific d) ∧ n.negative = negative ∧
      n.absolute = d.value ∧ n.exponent = some d.order ∧
      ∃ c, n.whole = [c] ∧ c ≠ '0' ∧ n.fraction ≠ [] := by
  obtain ⟨c, fraction, hfirst, htext, hfraction, hdigits, hreading⟩ :=
    exists_point_after_first (length_digits_pos d.coefficient) fun _ => isDigit_of_mem_digits
  refine ⟨⟨negative, [c], fraction, some d.order, by simp, hdigits⟩, ?_, rfl, ?_, rfl, c, rfl, ?_,
    hfraction⟩
  · rw [chars, printedScientific, if_neg hfraction, ← List.append_assoc, ← htext]
    rfl
  · have horder : d.order = ((digits d.coefficient).length - 1) + d.exponent := by
      rw [Decimal.order]
      ring
    rw [absolute, Option.getD_some, horder, zpow_add₀ (by norm_num), ← mul_assoc, hreading,
      natOfDigits_digits, Decimal.value]
  · rintro rfl
    exact head?_digits_ne h hfirst

end Numeral

end LoxLang.Number
