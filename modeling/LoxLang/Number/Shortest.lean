import LoxLang.Number.Binary64
import LoxLang.Number.Decimal

/-!
# The fewest digits that read back

Among the decimals that round to a given double, `shortest` takes one with the fewest digits, and
of those the nearest to the double. The search goes through the grids `10 ^ e` from coarse to fine
and looks at the two points around the double; the finest grid, `10 ^ -1074`, holds the double
itself.
-/

namespace LoxLang.Number

/-- Which of two equally near decimals is taken. -/
inductive Tie where
  | up
  | even
  deriving DecidableEq, Repr

/-- Compares `c * 10 ^ e` with `x` halves of `2 ^ -1074`. -/
def compareHalves (c : Nat) (e : Int) (x : Nat) : Ordering :=
  compare (2 * unit * (c * .pow 10 e.toNat)) (x * .pow 10 (-e).toNat)

/-- The numbers that round to a magnitude: those between the midpoints to the neighbouring
magnitudes, in halves of `2 ^ -1074`, and the midpoints themselves if the interval is closed. -/
structure Interval where
  low : Nat
  high : Nat
  closed : Bool

namespace Interval

/-- The numbers that round to the magnitude at place `i`. A midpoint goes to the even place. -/
def around (i : Nat) : Interval :=
  ⟨scaled (i - 1) + scaled i, scaled i + scaled (i + 1), i % 2 = 0⟩

def contains (r : Interval) (d : Decimal) : Bool :=
  match compareHalves d.coefficient d.exponent r.low,
      compareHalves d.coefficient d.exponent r.high with
  | .gt, .lt => true
  | .eq, _ => r.closed
  | _, .eq => r.closed
  | _, _ => false

end Interval

/-- The last multiple of `10 ^ e` that is not above `s * 2 ^ -1074`. -/
def gridFloor (s : Nat) (e : Int) : Nat := s * .pow 10 (-e).toNat / (unit * .pow 10 e.toNat)

/-- The one of `c * 10 ^ e` and `(c + 1) * 10 ^ e` that is nearer to `s * 2 ^ -1074`. -/
def nearer (tie : Tie) (s c : Nat) (e : Int) : Decimal :=
  match compareHalves (2 * c + 1) e (4 * s) with
  | .lt => ⟨c + 1, e⟩
  | .gt => ⟨c, e⟩
  | .eq => if tie = .even ∧ c % 2 = 0 then ⟨c, e⟩ else ⟨c + 1, e⟩

/-- A point of the grid `10 ^ e` in an interval around `s * 2 ^ -1074`, if there is one. -/
def onGrid? (tie : Tie) (r : Interval) (s : Nat) (e : Int) : Option Decimal :=
  let c := gridFloor s e
  match r.contains ⟨c, e⟩, r.contains ⟨c + 1, e⟩ with
  | true, true => some (nearer tie s c e)
  | true, false => some ⟨c, e⟩
  | false, true => some ⟨c + 1, e⟩
  | false, false => none

/-- Searches the grids `10 ^ e`, `10 ^ (e - 1)`, … and stops at the latest after `n` of them. -/
def searchGrids (tie : Tie) (r : Interval) (s : Nat) : Nat → Int → Decimal
  | 0, e => ⟨gridFloor s e, e⟩
  | n + 1, e =>
    match onGrid? tie r s e with
    | some d => d
    | none => searchGrids tie r s n (e - 1)

/-- A power of ten that is not below that of the first digit of `s * 2 ^ -1074`, and above it by at
most two. -/
def startOrder (s : Nat) : Int := ((s.log2 : Int) - 1074) * 30103 / 100000 + 1

/-- The decimal with the fewest digits that reads back as the magnitude at place `i`, and of these
the nearest one. -/
def shortest (tie : Tie) (i : Nat) : Decimal :=
  let s := scaled i
  let e := startOrder s
  let d := searchGrids tie (.around i) s (e + 1074).toNat e
  d.trim (digits d.coefficient).length

end LoxLang.Number
