import LoxLang.Number.Binary64
import LoxLang.Number.Decimal

/-!
# The nearest double

A non-negative ratio is rounded to the nearest double, a tie to the even place, and to infinity
from the midpoint above the largest finite double on.
-/

namespace LoxLang.Number

/-- The place of the largest magnitude that is at most `x * 2 ^ -1074`. -/
def floorIndex (x : Nat) : Nat :=
  let p := x.log2 - 52
  p * .pow 2 52 + x / .pow 2 p

/-- The place of the magnitude nearest to `n / d`. -/
def nearestIndex (n d : Nat) : Nat :=
  let i := floorIndex (n * unit / d)
  let j := match compare (2 * n * unit) ((scaled i + scaled (i + 1)) * d) with
    | .lt => i
    | .gt => i + 1
    | .eq => i + i % 2
  min j infinityIndex

/-- The number that a list of digits spells. -/
def natOfDigits (ds : List Char) : Nat :=
  ds.foldl (fun n c => 10 * n + (c.toNat - '0'.toNat)) 0

/-- The double nearest to the number spelled by digits, a point and more digits. -/
def read (whole fraction : List Char) : Float :=
  .ofBits (nearestIndex (natOfDigits (whole ++ fraction)) (.pow 10 fraction.length)).toUInt64

end LoxLang.Number
