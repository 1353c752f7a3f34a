import LoxLang.Number.Nearest
import LoxLang.Number.Shortest

/-!
# Number texts

Four formats write a number: what a program prints, the token listing, the syntax tree and JSON.
They differ in where positional notation ends, in what marks a whole number and in the names of
the values that are not finite.
-/

namespace LoxLang.Number

def signed (negative : Bool) (text : List Char) : List Char :=
  if negative then '-' :: text else text

/-- Whether the magnitude at place `i` is a whole number. -/
def isWhole (i : Nat) : Bool := scaled i % unit = 0

/-- The whole part of the magnitude at place `i`, every digit of it. -/
def wholeDigits (i : Nat) : List Char := digits (scaled i / unit)

/-- Scientific notation of the printed form: always a fraction, no plus sign. -/
def printedScientific (d : Decimal) : List Char :=
  let ds := digits d.coefficient
  ds.take 1 ++ '.' :: (if ds.length = 1 then ['0'] else ds.drop 1) ++
    'E' :: (toString d.order).toList

/-- Scientific notation of JSON: a fraction only if there are more digits, always a sign. -/
def jsonScientific (d : Decimal) : List Char :=
  let ds := digits d.coefficient
  ds.take 1 ++ (if ds.length = 1 then [] else '.' :: ds.drop 1) ++
    'e' :: (if d.order < 0 then '-' else '+') :: digits d.order.natAbs

/-- The places of the magnitudes that are printed in positional notation: from `0.001` up to, but
not including, ten million. -/
def isPrintedPositional (i : Nat) : Bool :=
  nearestIndex 1 1000 ≤ i && i < nearestIndex 10000000 1

/-- What printing a number shows. Whole numbers in positional notation have no point. -/
def printedChars : Binary64 → List Char
  | .nan => "NaN".toList
  | .infinite negative => signed negative "Infinity".toList
  | .finite negative i =>
    if i = 0 then signed negative ['0'] else
    let d := shortest .up i
    signed negative (if isPrintedPositional i then d.positional else printedScientific d)

/-- Numbers that are not whole, and those past the range of the other rules: the fewest digits, in
positional notation whatever their size. -/
def plainChars : Binary64 → List Char
  | .nan => "NaN".toList
  | .infinite negative => signed negative "inf".toList
  | .finite negative i => signed negative (shortest .up i).positional

/-- A number in a token listing. Whole numbers below `2 ^ 63` are marked by `.0`, and a zero has no
sign. -/
def listedChars : Binary64 → List Char
  | .finite negative i =>
    if isWhole i ∧ scaled i < .pow 2 63 * unit then
      signed (negative && i != 0) (wholeDigits i ++ ['.', '0'])
    else plainChars (.finite negative i)
  | x => plainChars x

/-- A number in a syntax tree. All whole numbers are written out and marked by `.0`. -/
def treeChars : Binary64 → List Char
  | .finite negative i =>
    if isWhole i then signed negative (wholeDigits i ++ ['.', '0'])
    else plainChars (.finite negative i)
  | x => plainChars x

/-- A number in JSON. Positional from `0.00001` up to `10 ^ 16`, whole numbers marked by `.0`. -/
def jsonChars : Binary64 → List Char
  | .finite negative i =>
    if i = 0 then signed negative ['0', '.', '0'] else
    let d := shortest .even i
    signed negative <|
      if -5 ≤ d.order ∧ d.order < 16 then
        if 0 ≤ d.exponent then d.positional ++ ['.', '0'] else d.positional
      else jsonScientific d
  | _ => "null".toList

def printed (x : Float) : String := .ofList (printedChars (.ofFloat x))

def listed (x : Float) : String := .ofList (listedChars (.ofFloat x))

def inTree (x : Float) : String := .ofList (treeChars (.ofFloat x))

def inJson (x : Float) : String := .ofList (jsonChars (.ofFloat x))

end LoxLang.Number
