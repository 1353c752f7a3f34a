/-!
# Double precision numbers by their place in the order

The magnitudes of the doubles, from zero over the subnormal and the normal numbers to infinity,
are numbered in increasing order, and the number of a magnitude is its bit pattern without the
sign bit. A finite magnitude is an integer multiple of `2 ^ -1074`.
-/

namespace LoxLang.Number

/-- The common denominator of all finite doubles. -/
def unit : Nat := .pow 2 1074

/-- The place of infinity. Every smaller number is the place of a finite magnitude. -/
def infinityIndex : Nat := 2047 * .pow 2 52

/-- The magnitude at place `i`, as a multiple of `2 ^ -1074`. -/
def scaled (i : Nat) : Nat :=
  if i < .pow 2 52 then i else (.pow 2 52 + i % .pow 2 52) * .pow 2 (i / .pow 2 52 - 1)

/-- A double by sign and place. -/
inductive Binary64 where
  | nan
  | infinite (negative : Bool)
  | finite (negative : Bool) (index : Nat)
  deriving DecidableEq, Repr

def Binary64.ofBits (bits : UInt64) : Binary64 :=
  let negative := decide (.pow 2 63 ≤ bits.toNat)
  let index := bits.toNat % .pow 2 63
  if index < infinityIndex then .finite negative index
  else if index = infinityIndex then .infinite negative
  else .nan

def Binary64.ofFloat (x : Float) : Binary64 := .ofBits x.toBits

end LoxLang.Number
