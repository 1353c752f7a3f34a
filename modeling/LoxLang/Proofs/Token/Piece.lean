import LoxLang.Token.Scan

/-!
# Pieces of source text

Source text, as a list of characters, is cut from left to right into pieces: blanks, comments,
strings, numbers, words, marks and stray characters. Each piece is the longest one of its shape at
its place, and the pieces together are the text. What they give is counted by lines.

## Main definitions

* `pieces`: all pieces of a text.
* `Scan.ofPieces`: what pieces give.
-/

namespace LoxLang

def isBlank (c : Char) : Bool := c = ' ' || c = '\t' || c = '\r' || c = '\n'

def isDigit (c : Char) : Bool := '0' ≤ c && c ≤ '9'

def isLetter (c : Char) : Bool := 'a' ≤ c && c ≤ 'z' || 'A' ≤ c && c ≤ 'Z' || c = '_'

def isWordChar (c : Char) : Bool := isLetter c || isDigit c

namespace Piece

inductive Shape where
  /-- One space, tab, carriage return or newline. -/
  | blank
  /-- From two slashes up to the end of the line. -/
  | comment
  /-- A string with both quotes. -/
  | string (contents : List Char)
  /-- A quote without a partner, and all that follows. -/
  | unclosed
  /-- Digits, and more of them after a point. -/
  | number (whole fraction : List Char)
  | word
  | mark (m : Mark)
  /-- A character that begins nothing else. -/
  | stray
  deriving DecidableEq, Repr

end Piece

structure Piece where
  shape : Piece.Shape
  text : List Char
  deriving DecidableEq, Repr

namespace Piece

/-- A string that begins with the quote before `cs`, and what follows it. -/
def takeString (cs : List Char) : Piece × List Char :=
  let contents := cs.takeWhile (· != '"')
  match cs.dropWhile (· != '"') with
  | [] => (⟨.unclosed, '"' :: contents⟩, [])
  | quote :: rest => (⟨.string contents, '"' :: contents ++ [quote]⟩, rest)

/-- A number that begins with the digit `c`, and what follows it. A point belongs to the number only
if a digit stands after it. -/
def takeNumber (c : Char) (cs : List Char) : Piece × List Char :=
  let whole := c :: cs.takeWhile isDigit
  match cs.dropWhile isDigit with
  | '.' :: d :: rest =>
    if isDigit d then
      let fraction := d :: rest.takeWhile isDigit
      (⟨.number whole fraction, whole ++ '.' :: fraction⟩, rest.dropWhile isDigit)
    else (⟨.number whole [], whole⟩, '.' :: d :: rest)
  | rest => (⟨.number whole [], whole⟩, rest)

/-- A mark that begins with the character `c`, and what follows it. -/
def takeMark (c : Char) (cs : List Char) : Piece × List Char :=
  match Mark.ofChar? c with
  | none => (⟨.stray, [c]⟩, cs)
  | some m =>
    match m.withEqual?, cs with
    | some long, '=' :: rest => (⟨.mark long, [c, '=']⟩, rest)
    | _, _ => (⟨.mark m, [c]⟩, cs)

/-- The piece at the beginning of `c :: cs`, and what follows it. -/
def first (c : Char) (cs : List Char) : Piece × List Char :=
  if isBlank c then (⟨.blank, [c]⟩, cs)
  else if c = '/' && cs.head? = some '/' then
    (⟨.comment, c :: cs.takeWhile (· != '\n')⟩, cs.dropWhile (· != '\n'))
  else if c = '"' then takeString cs
  else if isDigit c then takeNumber c cs
  else if isLetter c then (⟨.word, c :: cs.takeWhile isWordChar⟩, cs.dropWhile isWordChar)
  else takeMark c cs

theorem text_takeString (cs : List Char) :
    (takeString cs).1.text ++ (takeString cs).2 = '"' :: cs := by
  have h := List.takeWhile_append_dropWhile (p := (· != '"')) (l := cs)
  unfold takeString
  split <;> simp_all

theorem text_takeNumber (c : Char) (cs : List Char) :
    (takeNumber c cs).1.text ++ (takeNumber c cs).2 = c :: cs := by
  have h := List.takeWhile_append_dropWhile (p := isDigit) (l := cs)
  unfold takeNumber
  split
  · split <;> simp_all
  · simp_all

theorem text_takeMark (c : Char) (cs : List Char) :
    (takeMark c cs).1.text ++ (takeMark c cs).2 = c :: cs := by
  unfold takeMark
  repeat' split
  all_goals simp

/-- The first piece and what follows it are the text. -/
theorem text_first (c : Char) (cs : List Char) : (first c cs).1.text ++ (first c cs).2 = c :: cs := by
  unfold first
  repeat' split
  all_goals simp_all [text_takeString, text_takeNumber, text_takeMark]

theorem length_dropWhile_le (p : Char → Bool) (cs : List Char) :
    (cs.dropWhile p).length ≤ cs.length :=
  (List.dropWhile_suffix p).length_le

theorem length_takeString_le (cs : List Char) : (takeString cs).2.length ≤ cs.length := by
  have h := length_dropWhile_le (· != '"') cs
  unfold takeString
  split <;> simp_all
  omega

theorem length_takeNumber_le (c : Char) (cs : List Char) :
    (takeNumber c cs).2.length ≤ cs.length := by
  have h := length_dropWhile_le isDigit cs
  unfold takeNumber
  split
  · next d rest hr =>
    have := length_dropWhile_le isDigit rest
    split <;> simp_all
    omega
  · simpa using h

theorem length_takeMark_le (c : Char) (cs : List Char) : (takeMark c cs).2.length ≤ cs.length := by
  unfold takeMark
  repeat' split
  all_goals simp

theorem length_first_le (c : Char) (cs : List Char) : (first c cs).2.length ≤ cs.length := by
  unfold first
  repeat' split
  all_goals first
    | exact Nat.le_refl _
    | exact length_dropWhile_le _ _
    | exact length_takeString_le _
    | exact length_takeNumber_le _ _
    | exact length_takeMark_le _ _

end Piece

/-- All pieces of a text. -/
def pieces : List Char → List Piece
  | [] => []
  | c :: cs => (Piece.first c cs).1 :: pieces (Piece.first c cs).2
termination_by cs => cs.length
decreasing_by exact Nat.lt_succ_of_le (Piece.length_first_le c cs)

/-- The pieces together are the text. -/
theorem flatMap_text_pieces (cs : List Char) : (pieces cs).flatMap (·.text) = cs := by
  fun_induction pieces cs with
  | case1 => rfl
  | case2 c cs ih => rw [List.flatMap_cons, ih, Piece.text_first]

namespace Piece

/-- The lines that end in a piece. Only blanks and strings have any. -/
def newlines (p : Piece) : Nat := p.text.count '\n'

/-- What a piece that ends on the given line gives. -/
def item? (p : Piece) (line : Nat) : Option ScanItem :=
  let lexeme := String.ofList p.text
  match p.shape with
  | .blank => none
  | .comment => none
  | .string contents => some (.token ⟨.string (.ofList contents), lexeme, line⟩)
  | .unclosed => some (.fault .unterminatedString line)
  | .number whole fraction => some (.token ⟨.number (Number.read whole fraction), lexeme, line⟩)
  | .word => some (.token ⟨.ofWord lexeme, lexeme, line⟩)
  | .mark m => some (.token ⟨.mark m, lexeme, line⟩)
  | .stray => some (.fault .unexpectedCharacter line)

end Piece

/-- Scans pieces of which the first begins on the given line. -/
def Scan.ofPieces (line : Nat) : List Piece → Scan
  | [] => ⟨[], line⟩
  | p :: ps =>
    let rest := ofPieces (line + p.newlines) ps
    match p.item? (line + p.newlines) with
    | some i => ⟨i :: rest.items, rest.endLine⟩
    | none => rest

end LoxLang
