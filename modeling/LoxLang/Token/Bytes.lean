/-!
# Bytes of source text

Source text is read as bytes in UTF-8. A place in it is the number of bytes before it. After the last
byte a zero is read, which is in no class of bytes, so that no run of bytes goes on over the end.
-/

namespace LoxLang

/-- A class of bytes without zero. -/
structure ByteClass where
  test : UInt8 → Bool
  test_zero : test 0 = false

namespace ByteClass

def digit : ByteClass := ⟨fun b => '0'.toUInt8 ≤ b && b ≤ '9'.toUInt8, rfl⟩

def letter : ByteClass where
  test b := 'a'.toUInt8 ≤ b && b ≤ 'z'.toUInt8 || 'A'.toUInt8 ≤ b && b ≤ 'Z'.toUInt8 ||
    b == '_'.toUInt8
  test_zero := rfl

/-- Letters and digits. -/
def word : ByteClass := ⟨fun b => letter.test b || digit.test b, rfl⟩

/-- The bytes of a character after its first one. -/
def continuation : ByteClass := ⟨fun b => b &&& 0xC0 == 0x80, rfl⟩

end ByteClass

namespace Bytes

/-- The byte at a place, and zero after the last one. -/
def peek (bytes : ByteArray) (i : Nat) : UInt8 := if h : i < bytes.size then bytes[i] else 0

theorem peek_of_le {bytes : ByteArray} {i : Nat} (h : bytes.size ≤ i) : peek bytes i = 0 := by
  rw [peek, dif_neg (Nat.not_lt.mpr h)]

/-- Whether a byte stands at a place. -/
def isAt (b : UInt8) (bytes : ByteArray) (i : Nat) : Bool := i < bytes.size && peek bytes i == b

/-- The first place from `i` on whose byte is not in a class. -/
def skipWhile (k : ByteClass) (bytes : ByteArray) (i : Nat) : Nat :=
  if h : k.test (peek bytes i) then skipWhile k bytes (i + 1) else i
termination_by bytes.size - i
decreasing_by
  rcases Nat.lt_or_ge i bytes.size with hi | hi
  · omega
  · rw [peek_of_le hi, k.test_zero] at h
    cases h

/-- The first place from `i` on where a byte stands. -/
def find? (b : UInt8) (bytes : ByteArray) (i : Nat) : Option Nat :=
  if i < bytes.size then
    if peek bytes i == b then some i else find? b bytes (i + 1)
  else none
termination_by bytes.size - i

/-- The text between two places. -/
def slice (bytes : ByteArray) (i j : Nat) : String :=
  (String.fromUTF8? (bytes.extract i j)).getD ""

theorem le_skipWhile (k : ByteClass) (bytes : ByteArray) (i : Nat) : i ≤ skipWhile k bytes i := by
  fun_induction skipWhile k bytes i with
  | case1 i _ ih => exact Nat.le_of_succ_le ih
  | case2 => exact Nat.le_refl _

theorem le_find? {b : UInt8} {bytes : ByteArray} {i j : Nat} (h : find? b bytes i = some j) :
    i ≤ j := by
  fun_induction find? b bytes i with
  | case1 i _ _ =>
    cases h
    exact Nat.le_refl _
  | case2 i _ _ ih => exact Nat.le_of_succ_le (ih h)
  | case3 => cases h

end Bytes

end LoxLang
