import LoxLang.Proofs.Program.Renaming
import LoxLang.Proofs.Token.Scanner

/-!
# Scanned text

Reserved words are no identifiers. Pieces end before a blank, except for strings and comments. A text
in which all strings are closed is scanned in the same way when a newline and another text follow it,
and the other text only has its lines moved.
-/

namespace LoxLang

/-! ## Words -/

namespace Scan

/-- A word that is a reserved one does not become an identifier. -/
theorem ofSpelling?_eq_none_of_mem_tokens {line : Nat} {ps : List Piece} {t : Token}
    (ht : t ∈ (ofPieces line ps).tokens) (hk : t.kind = .identifier) :
    Keyword.ofSpelling? t.lexeme = none := by
  induction ps generalizing line with
  | nil => cases ht
  | cons p ps ih =>
    rw [ofPieces] at ht
    cases hi : p.item? (line + p.newlines) with
    | none =>
      simp only [hi] at ht
      exact ih ht
    | some i =>
      simp only [hi, tokens, List.filterMap_cons] at ht
      cases i with
      | fault f l => exact ih ht
      | token u =>
        rcases List.mem_cons.mp ht with rfl | ht
        · -- Only a word can be an identifier.
          unfold Piece.item? at hi
          cases hs : p.shape <;> simp only [hs, Option.some.injEq, reduceCtorEq,
            ScanItem.token.injEq] at hi <;> subst hi <;> simp only [reduceCtorEq] at hk
          unfold Token.Kind.ofWord at hk
          split at hk
          · cases hk
          · assumption
        · exact ih ht

end Scan

/-! ## Two texts -/

section Newline

variable {α : Type} {p : α → Bool} {x : α}

theorem takeWhile_append_cons (h : p x = false) (l r : List α) :
    (l ++ x :: r).takeWhile p = l.takeWhile p := by
  induction l with
  | nil => simp [h]
  | cons a l ih => simp only [List.cons_append, List.takeWhile_cons, ih]

theorem dropWhile_append_cons (h : p x = false) (l r : List α) :
    (l ++ x :: r).dropWhile p = l.dropWhile p ++ x :: r := by
  induction l with
  | nil => simp [h]
  | cons a l ih =>
    simp only [List.cons_append, List.dropWhile_cons, ih]
    split <;> rfl

end Newline

namespace Piece

/-- A string that is closed stays the same. -/
theorem takeString_append {cs : List Char} (h : (takeString cs).1.shape ≠ .unclosed)
    (rest : List Char) :
    takeString (cs ++ rest) = ((takeString cs).1, (takeString cs).2 ++ rest) := by
  unfold takeString at h ⊢
  cases hd : cs.dropWhile (· != '"') with
  | nil => simp [hd] at h
  | cons quote l =>
    have hlength : (cs.takeWhile (· != '"')).length ≠ cs.length := by
      have := congrArg List.length (List.takeWhile_append_dropWhile (p := (· != '"')) (l := cs))
      rw [List.length_append, hd, List.length_cons] at this
      omega
    simp [List.takeWhile_append, List.dropWhile_append, hd, hlength]

/-- A blank belongs to no piece but itself, except in strings and comments. -/
theorem class_of_isBlank {x : Char} (h : isBlank x) :
    isDigit x = false ∧ isWordChar x = false ∧ x ≠ '.' ∧ x ≠ '=' ∧ x ≠ '/' := by
  simp only [isBlank, Bool.or_eq_true, decide_eq_true_eq] at h
  rcases h with ((rfl | rfl) | rfl) | rfl <;> decide

/-- A blank after the piece is not part of it. -/
def EndsBefore (x : Char) (p : Piece) : Prop :=
  p.shape ≠ .unclosed ∧ (p.shape = .comment → x = '\n')

section Blank

variable {x : Char} (hx : isBlank x)
include hx

theorem takeNumber_append (c : Char) (cs rest : List Char) :
    takeNumber c (cs ++ x :: rest) = ((takeNumber c cs).1, (takeNumber c cs).2 ++ x :: rest) := by
  obtain ⟨hdigit, -, hdot, -⟩ := class_of_isBlank hx
  unfold takeNumber
  simp only [takeWhile_append_cons hdigit, dropWhile_append_cons hdigit]
  cases hd : cs.dropWhile isDigit with
  | nil => simp [hdot]
  | cons a l =>
    cases l with
    | nil =>
      by_cases ha : a = '.'
      · subst ha
        simp [hdigit]
      · simp [ha]
    | cons d l =>
      by_cases ha : a = '.'
      · subst ha
        cases hd : isDigit d <;>
          simp [hd, takeWhile_append_cons hdigit, dropWhile_append_cons hdigit]
      · simp [ha]

theorem takeMark_append (c : Char) (cs rest : List Char) :
    takeMark c (cs ++ x :: rest) = ((takeMark c cs).1, (takeMark c cs).2 ++ x :: rest) := by
  obtain ⟨-, -, -, hequal, -⟩ := class_of_isBlank hx
  unfold takeMark
  cases Mark.ofChar? c with
  | none => rfl
  | some m =>
    dsimp only
    cases m.withEqual? with
    | none => rfl
    | some long =>
      cases cs with
      | nil => simp [hequal]
      | cons d l => by_cases hd : d = '=' <;> simp [hd]

/-- Except for strings that are not closed and for comments, a piece ends before a blank at the
latest. -/
theorem first_append {c : Char} {cs : List Char} (h : (first c cs).1.EndsBefore x)
    (rest : List Char) :
    first c (cs ++ x :: rest) = ((first c cs).1, (first c cs).2 ++ x :: rest) := by
  obtain ⟨-, hword, -, -, hslash⟩ := class_of_isBlank hx
  obtain ⟨hclosed, hline⟩ := h
  have hcomment : ((cs ++ x :: rest).head? = some '/') = (cs.head? = some '/') := by
    cases cs <;> simp [hslash]
  unfold first at hclosed hline ⊢
  simp only [hcomment]
  by_cases hblank : isBlank c
  · simp [hblank]
  simp only [hblank, Bool.false_eq_true, if_false] at hclosed hline ⊢
  by_cases hc : c = '/' && cs.head? = some '/'
  · rw [if_pos hc] at hline ⊢
    rw [if_pos hc, hline rfl]
    simp [takeWhile_append_cons, dropWhile_append_cons]
  rw [if_neg hc] at hclosed ⊢
  rw [if_neg hc]
  by_cases hquote : c = '"'
  · rw [if_pos hquote] at hclosed ⊢
    rw [if_pos hquote]
    exact takeString_append hclosed _
  rw [if_neg hquote, if_neg hquote]
  by_cases hdigit : isDigit c
  · rw [if_pos hdigit, if_pos hdigit]
    exact takeNumber_append hx c cs rest
  rw [if_neg hdigit, if_neg hdigit]
  by_cases hletter : isLetter c
  · rw [if_pos hletter, if_pos hletter, takeWhile_append_cons hword, dropWhile_append_cons hword]
  · rw [if_neg hletter, if_neg hletter]
    exact takeMark_append hx c cs rest

end Blank

end Piece

theorem pieces_append {x : Char} (hx : isBlank x) {cs : List Char}
    (h : ∀ p ∈ pieces cs, p.EndsBefore x) (rest : List Char) :
    pieces (cs ++ x :: rest) = pieces cs ++ ⟨.blank, [x]⟩ :: pieces rest := by
  have hblank : pieces (x :: rest) = ⟨.blank, [x]⟩ :: pieces rest := by
    rw [pieces, Piece.first, if_pos hx]
  rw [← hblank]
  fun_induction pieces cs with
  | case1 => rfl
  | case2 c cs ih =>
    obtain ⟨hfirst, hrest⟩ := List.forall_mem_cons.mp h
    rw [List.cons_append, pieces, Piece.first_append hx hfirst, ih hrest, List.cons_append]

namespace ScanItem

def rename (f : Renaming) : ScanItem → ScanItem
  | .token t => .token (t.rename f)
  | .fault what line => .fault what (f.line line)

end ScanItem

theorem Piece.item?_line (p : Piece) (line k : Nat) :
    p.item? (line + k) = (p.item? line).map (·.rename (.ofLine (· + k))) := by
  unfold Piece.item?
  cases p.shape <;> rfl

namespace Scan

/-- Pieces that begin on a later line. -/
theorem ofPieces_line (line k : Nat) (ps : List Piece) :
    ofPieces (line + k) ps = ⟨(ofPieces line ps).items.map (·.rename (.ofLine (· + k))),
      (ofPieces line ps).endLine + k⟩ := by
  induction ps generalizing line with
  | nil => rfl
  | cons p ps ih =>
    have hitem := Piece.item?_line p (line + p.newlines) k
    simp only [ofPieces, Nat.add_right_comm line k, ih, hitem]
    cases p.item? (line + p.newlines) <;> rfl

theorem ofPieces_append (line : Nat) (ps qs : List Piece) :
    ofPieces line (ps ++ qs) =
      ⟨(ofPieces line ps).items ++ (ofPieces (ofPieces line ps).endLine qs).items,
        (ofPieces (ofPieces line ps).endLine qs).endLine⟩ := by
  induction ps generalizing line with
  | nil => rfl
  | cons p ps ih =>
    simp only [List.cons_append, ofPieces, ih]
    cases p.item? (line + p.newlines) <;> rfl

theorem endLine_ofPieces (line : Nat) (ps : List Piece) :
    (ofPieces line ps).endLine = line + (ps.flatMap (·.text)).count '\n' := by
  induction ps generalizing line with
  | nil => rfl
  | cons p ps ih =>
    have hrest : (ofPieces line (p :: ps)).endLine = (ofPieces (line + p.newlines) ps).endLine := by
      simp only [ofPieces]
      cases p.item? (line + p.newlines) <;> rfl
    rw [hrest, ih, List.flatMap_cons, List.count_append, Piece.newlines, Nat.add_assoc]

/-- A string that is not closed is a fault. -/
theorem shape_ne_unclosed {line : Nat} {ps : List Piece}
    (h : ∀ l, .fault .unterminatedString l ∉ (ofPieces line ps).items) :
    ∀ p ∈ ps, p.shape ≠ .unclosed := by
  induction ps generalizing line with
  | nil => simp
  | cons p ps ih =>
    rw [ofPieces] at h
    have hshape : p.shape ≠ .unclosed := by
      intro hs
      apply h (line + p.newlines)
      simp [Piece.item?, hs]
    refine List.forall_mem_cons.mpr ⟨hshape, @ih (line + p.newlines) fun l hl => ?_⟩
    apply h l
    cases p.item? (line + p.newlines) with
    | none => exact hl
    | some i => exact List.mem_cons_of_mem i hl

theorem faults_eq_nil_iff {s : Scan} : s.faults = [] ↔ ∀ f line, .fault f line ∉ s.items := by
  rw [faults, List.filterMap_eq_nil_iff]
  constructor
  · intro h f line hmem
    cases h _ hmem
  · intro h i hi
    cases i with
    | token t => rfl
    | fault f line => exact absurd hi (h f line)

end Scan

/-- A text in which all strings are closed, a newline and another text. -/
theorem scan_append {first second : String} (h : ∀ p ∈ pieces first.toList, p.shape ≠ .unclosed) :
    let k := first.toList.count '\n' + 1
    scan (first ++ "\n" ++ second) =
      ⟨(scan first).items ++ (scan second).items.map (·.rename (.ofLine (· + k))),
        (scan second).endLine + k⟩ := by
  intro k
  have htext : (first ++ "\n" ++ second).toList = first.toList ++ '\n' :: second.toList := by
    simp
  have hends : ∀ p ∈ pieces first.toList, p.EndsBefore '\n' := fun p hp => ⟨h p hp, fun _ => rfl⟩
  have hend : (Scan.ofPieces 1 (pieces first.toList)).endLine = 1 + first.toList.count '\n' := by
    rw [Scan.endLine_ofPieces, flatMap_text_pieces]
  have hsecond : Scan.ofPieces (1 + first.toList.count '\n') (⟨.blank, ['\n']⟩ ::
      pieces second.toList) = Scan.ofPieces (1 + k) (pieces second.toList) := rfl
  simp only [scan_eq_ofPieces]
  rw [htext, pieces_append rfl hends, Scan.ofPieces_append, hend, hsecond, Scan.ofPieces_line]

section Append

variable {first second : String} (h : (scan first).faults = [])
include h

theorem scan_append_of_faults_eq_nil : let k := first.toList.count '\n' + 1
    scan (first ++ "\n" ++ second) =
      ⟨(scan first).items ++ (scan second).items.map (·.rename (.ofLine (· + k))),
        (scan second).endLine + k⟩ := by
  rw [scan_eq_ofPieces] at h
  exact scan_append (Scan.shape_ne_unclosed fun l => Scan.faults_eq_nil_iff.mp h _ l)

theorem tokens_scan_append : (scan (first ++ "\n" ++ second)).tokens = (scan first).tokens ++
    (scan second).tokens.map (·.rename (.ofLine (· + (first.toList.count '\n' + 1)))) := by
  rw [scan_append_of_faults_eq_nil h]
  simp only [Scan.tokens, List.filterMap_append, List.filterMap_map, List.map_filterMap]
  congr 2
  funext i
  cases i <;> rfl

theorem faults_scan_append (h' : (scan second).faults = []) :
    (scan (first ++ "\n" ++ second)).faults = [] := by
  rw [scan_append_of_faults_eq_nil h]
  simp only [Scan.faults, List.filterMap_append, List.append_eq_nil_iff] at h h' ⊢
  refine ⟨h, List.filterMap_eq_nil_iff.mpr fun i hi => ?_⟩
  obtain ⟨j, hj, rfl⟩ := List.mem_map.mp hi
  have hnone := List.filterMap_eq_nil_iff.mp h' j hj
  cases j with
  | token t => rfl
  | fault f line => cases hnone

end Append

end LoxLang
