import LoxLang.Number.Nearest
import LoxLang.Token.Basic
import LoxLang.Token.Bytes

/-!
# Scanning

A source text is scanned from left to right. From where it stands the scanner goes on to the end of
a token, of a blank or a comment, or of what is wrong there, and counts the lines that end in blanks
and strings. A token or a fault gets the line on which it ends. The end of the text has a line too.
-/

namespace LoxLang

/-- What is wrong with a piece of text. -/
inductive LexicalFault where
  | unexpectedCharacter
  | unterminatedString
  deriving DecidableEq, Repr

def LexicalFault.message : LexicalFault → String
  | unexpectedCharacter => "Unexpected character."
  | unterminatedString => "Unterminated string."

/-- What a piece of text gives. -/
inductive ScanItem where
  | token (t : Token)
  | fault (f : LexicalFault) (line : Nat)
  deriving DecidableEq, Repr

/-- The kind of token of a word. -/
def Token.Kind.ofWord (word : String) : Token.Kind :=
  match Keyword.ofSpelling? word with
  | some k => .keyword k
  | none => .identifier

namespace Scanner

open Bytes

/-- What the scanner finds: a token before its spelling is known, a fault, or a blank or comment. -/
inductive Find where
  | token (kind : Token.Kind)
  | fault (f : LexicalFault)
  | skipped

/-- Goes on to the next quote or to the end. Gives the place and the line there. -/
def skipToQuote (bytes : ByteArray) (i line : Nat) : Nat × Nat :=
  if i < bytes.size ∧ peek bytes i ≠ '"'.toUInt8 then
    skipToQuote bytes (i + 1) (if peek bytes i = '\n'.toUInt8 then line + 1 else line)
  else (i, line)
termination_by bytes.size - i

/-- A string, with the line on which it ends. -/
def scanString (bytes : ByteArray) (start line : Nat) : Find × Nat × Nat :=
  let (stop, line) := skipToQuote bytes (start + 1) line
  if stop < bytes.size then (.token (.string (slice bytes (start + 1) stop)), stop + 1, line)
  else (.fault .unterminatedString, stop, line)

/-- A number. A point belongs to it only if a digit stands after it. -/
def scanNumber (bytes : ByteArray) (start : Nat) : Find × Nat :=
  let point := skipWhile .digit bytes (start + 1)
  let whole := (slice bytes start point).toList
  if peek bytes point = '.'.toUInt8 ∧ ByteClass.digit.test (peek bytes (point + 1)) then
    let stop := skipWhile .digit bytes (point + 1)
    (.token (.number (Number.read whole (slice bytes (point + 1) stop).toList)), stop)
  else (.token (.number (Number.read whole [])), point)

def scanWord (bytes : ByteArray) (start : Nat) : Find × Nat :=
  let stop := skipWhile .word bytes (start + 1)
  (.token (.ofWord (slice bytes start stop)), stop)

/-- A mark, or a stray character with all its bytes. -/
def scanMark (bytes : ByteArray) (start : Nat) : Find × Nat :=
  match Mark.ofChar? (.ofUInt8 (peek bytes start)) with
  | none => (.fault .unexpectedCharacter, skipWhile .continuation bytes (start + 1))
  | some m =>
    match m.withEqual?, isAt '='.toUInt8 bytes (start + 1) with
    | some long, true => (.token (.mark long), start + 2)
    | _, _ => (.token (.mark m), start + 1)

/-- What begins at a place, where it ends, and the line there. -/
def scanToken (bytes : ByteArray) (start line : Nat) : Find × Nat × Nat :=
  let b := peek bytes start
  if b = ' '.toUInt8 ∨ b = '\r'.toUInt8 ∨ b = '\t'.toUInt8 then (.skipped, start + 1, line)
  else if b = '\n'.toUInt8 then (.skipped, start + 1, line + 1)
  else if b = '/'.toUInt8 ∧ isAt '/'.toUInt8 bytes (start + 1) then
    (.skipped, (find? '\n'.toUInt8 bytes (start + 2)).getD bytes.size, line)
  else if b = '"'.toUInt8 then scanString bytes start line
  else
    let (found, stop) :=
      if ByteClass.digit.test b then scanNumber bytes start
      else if ByteClass.letter.test b then scanWord bytes start
      else scanMark bytes start
    (found, stop, line)

theorem le_skipToQuote (bytes : ByteArray) (i line : Nat) : i ≤ (skipToQuote bytes i line).1 := by
  fun_induction skipToQuote bytes i line with
  | case1 i line _ ih => exact Nat.le_of_succ_le ih
  | case2 => exact Nat.le_refl _

/-- The scanner never stays where it is. -/
theorem lt_scanToken {bytes : ByteArray} {start : Nat} (h : start < bytes.size) (line : Nat) :
    start < (scanToken bytes start line).2.1 := by
  have hquote := le_skipToQuote bytes (start + 1) line
  have hskip := fun k => le_skipWhile k bytes (start + 1)
  have hdigits := le_skipWhile .digit bytes (skipWhile .digit bytes (start + 1) + 1)
  have hnumber : start < (scanNumber bytes start).2 := by
    have := hskip .digit
    unfold scanNumber
    dsimp only
    split <;> dsimp only <;> omega
  have hmark : start < (scanMark bytes start).2 := by
    have := hskip .continuation
    unfold scanMark
    repeat' split
    all_goals dsimp only
    all_goals omega
  unfold scanToken
  dsimp only
  repeat' split
  · exact Nat.lt_succ_self _
  · exact Nat.lt_succ_self _
  · cases hfind : find? '\n'.toUInt8 bytes (start + 2) with
    | none => exact h
    | some j =>
      have := le_find? hfind
      simp only [Option.getD_some]
      omega
  · unfold scanString
    dsimp only
    split <;> dsimp only <;> omega
  · exact hnumber
  · exact hskip .word
  · exact hmark

end Scanner

/-- A scanned text: what its pieces give, in order, and the line on which it ends. -/
structure Scan where
  items : List ScanItem
  endLine : Nat
  deriving DecidableEq, Repr

namespace Scan

def tokens (s : Scan) : List Token :=
  s.items.filterMap fun
    | .token t => some t
    | .fault _ _ => none

/-- The faults with their lines. -/
def faults (s : Scan) : List (LexicalFault × Nat) :=
  s.items.filterMap fun
    | .token _ => none
    | .fault f line => some (f, line)

/-- Scans from a place on, which is on the given line. -/
def ofBytes (bytes : ByteArray) (start line : Nat) : Scan :=
  if start < bytes.size then
    let found := Scanner.scanToken bytes start line
    let rest := ofBytes bytes found.2.1 found.2.2
    match found.1 with
    | .token kind =>
      ⟨.token ⟨kind, Bytes.slice bytes start found.2.1, found.2.2⟩ :: rest.items, rest.endLine⟩
    | .fault f => ⟨.fault f found.2.2 :: rest.items, rest.endLine⟩
    | .skipped => rest
  else ⟨[], line⟩
termination_by bytes.size - start
decreasing_by exact Nat.sub_lt_sub_left ‹_› (Scanner.lt_scanToken ‹_› line)

end Scan

/-- Scans a source text. Lines count from one. -/
def scan (source : String) : Scan := .ofBytes source.toByteArray 0 1

end LoxLang
