/-!
# Decimal numbers and their layouts

A decimal is a coefficient times a power of ten. It is laid out either in positional notation or
as the parts of a scientific notation, from which each format builds its own text.
-/

namespace LoxLang.Number

/-- The digits of `n` in base ten, most significant first. -/
def digits (n : Nat) : List Char := Nat.toDigits 10 n

/-- The number `coefficient * 10 ^ exponent`. -/
structure Decimal where
  coefficient : Nat
  exponent : Int
  deriving DecidableEq, Repr

namespace Decimal

/-- Moves up to `n` zeros at the end of the coefficient into the exponent. -/
def trim : Nat → Decimal → Decimal
  | 0, d => d
  | n + 1, d =>
    if d.coefficient % 10 = 0 then trim n ⟨d.coefficient / 10, d.exponent + 1⟩ else d

/-- The power of ten of the first digit. -/
def order (d : Decimal) : Int := d.exponent + (digits d.coefficient).length - 1

/-- All digits in their places, with a point only before a fraction. -/
def positional (d : Decimal) : List Char :=
  let ds := digits d.coefficient
  let places := (-d.exponent).toNat
  if places = 0 then ds ++ List.replicate d.exponent.toNat '0'
  else if places < ds.length then
    ds.take (ds.length - places) ++ '.' :: ds.drop (ds.length - places)
  else '0' :: '.' :: (List.replicate (places - ds.length) '0' ++ ds)

end Decimal

end LoxLang.Number
