import LoxLang.Proofs.Token.Scan
import LoxLang.Token.Listing
import Mathlib.Data.List.Forall2
import Mathlib.Data.List.TakeWhile

/-!
# The longest match

The lexical grammar as a set of texts for each shape of a piece. A text is cut into pieces from left
to right, each of which is the longest one that occurs at its place, and there is only one way to do
so. Every piece that is not skipped gives one token or one fault.

## Main definitions

* `Piece.Shape.Matches`: the texts of a shape.
* `Piece.IsLongest`: a piece that occurs in a text, and no longer one does at its place.
* `Cut`: a text cut into longest pieces.
* `Piece.Gives`: what a piece becomes.

## Main results

* `cut_iff`: the pieces that a text is cut into.
* `scan_longest_match`: scanning by longest match.
-/

namespace LoxLang

/-! ## Characters -/

theorem isBlank_eq (c : Char) : isBlank c = c.isWhitespace := by
  simp only [isBlank, Char.isWhitespace]

theorem isDigit_eq (c : Char) : isDigit c = c.isDigit := rfl

theorem isLetter_iff {c : Char} : isLetter c ↔ c.isAlpha ∨ c = '_' := by
  simp only [isLetter, Char.le_def]
  delta Char.isAlpha Char.isUpper Char.isLower
  grind

theorem isWordChar_iff {c : Char} : isWordChar c ↔ c.isAlphanum ∨ c = '_' := by
  simp only [isWordChar, Char.isAlphanum, Bool.or_eq_true, isLetter_iff, isDigit_eq]
  grind

theorem isDigit_eq_false_of_isLetter {c : Char} (h : isLetter c) : isDigit c = false := by
  by_contra hdigit
  simp only [isLetter, isDigit, Bool.or_eq_true, Bool.and_eq_true, Bool.not_eq_false,
    decide_eq_true_eq] at h hdigit
  rcases h with (h | h) | rfl
  · exact absurd (Char.le_trans h.1 hdigit.2) (by decide)
  · exact absurd (Char.le_trans h.1 hdigit.2) (by decide)
  · exact absurd hdigit.2 (by decide)

/-- Digits and letters begin no other piece. -/
theorem isBlank_eq_false_of_isWordChar {c : Char} (h : isWordChar c) :
    isBlank c = false ∧ c ≠ '/' ∧ c ≠ '"' := by
  refine ⟨?_, ?_, ?_⟩
  · by_contra hblank
    simp only [isBlank, Bool.not_eq_false, Bool.or_eq_true, decide_eq_true_eq] at hblank
    rcases hblank with ((rfl | rfl) | rfl) | rfl <;> exact absurd h (by decide)
  · rintro rfl
    exact absurd h (by decide)
  · rintro rfl
    exact absurd h (by decide)

/-! ## The lexical grammar -/

namespace Piece

/-- The texts of a shape, where `rest` comes after them. -/
def Shape.Matches : Shape → (text rest : List Char) → Prop
  | .blank, text, _ => ∃ c, text = [c] ∧ c.isWhitespace
  | .comment, text, _ => ∃ body, text = '/' :: '/' :: body ∧ '\n' ∉ body
  | .string contents, text, _ => text = '"' :: (contents ++ ['"']) ∧ '"' ∉ contents
  | .unclosed, text, rest => ∃ contents, text = '"' :: contents ∧ '"' ∉ contents ∧ rest = []
  | .number whole fraction, text, _ => whole ≠ [] ∧ (∀ c ∈ whole ++ fraction, c.isDigit) ∧
      text = whole ++ if fraction = [] then [] else '.' :: fraction
  | .word, text, _ => ∃ c cs, text = c :: cs ∧ (c.isAlpha ∨ c = '_') ∧
      ∀ d ∈ cs, d.isAlphanum ∨ d = '_'
  | .mark m, text, _ => text = m.spelling.toList
  | .stray, _, _ => False

/-- A piece occurs before `rest`. A stray character is one with which no other piece begins. -/
def Occurs (p : Piece) (rest : List Char) : Prop :=
  p.shape.Matches p.text rest ∨ p.shape = .stray ∧ p.text.length = 1 ∧
    ∀ shape text rest', text ++ rest' = p.text ++ rest → ¬ Shape.Matches shape text rest'

/-- A piece occurs before `rest`, and no longer piece occurs at the same place. -/
def IsLongest (p : Piece) (rest : List Char) : Prop :=
  p.Occurs rest ∧ ∀ q rest', Occurs q rest' → q.text ++ rest' = p.text ++ rest →
    q.text.length ≤ p.text.length

end Piece

/-- A text is cut into longest pieces, from left to right and without gaps. -/
inductive Cut : List Char → List Piece → Prop where
  | nil : Cut [] []
  | cons {p : Piece} {rest : List Char} {ps : List Piece} (hp : p.IsLongest rest)
      (hrest : Cut rest ps) : Cut (p.text ++ rest) (p :: ps)

/-! ## The first piece -/

namespace Piece

/-- The first piece is the given one, or it is longer. -/
def FirstFrom (found : Piece × List Char) (p : Piece) (rest : List Char) : Prop :=
  found = (p, rest) ∨ p.text.length < found.1.text.length

section Runs

variable {p : Char → Bool} {l r : List Char}

/-- A run of characters of a class ends where the class does, or it goes on. -/
theorem takeWhile_nil_or_pos (p : Char → Bool) (r : List Char) :
    r.takeWhile p = [] ∧ r.dropWhile p = r ∨ 0 < (r.takeWhile p).length := by
  have happend := List.takeWhile_append_dropWhile (p := p) (l := r)
  cases h : r.takeWhile p with
  | nil =>
    rw [h, List.nil_append] at happend
    exact .inl ⟨rfl, happend⟩
  | cons a as => exact .inr (by simp)

theorem takeWhile_until {x : Char} (h : ∀ y ∈ l, p y) (hx : p x = false) :
    (l ++ x :: r).takeWhile p = l ∧ (l ++ x :: r).dropWhile p = x :: r := by
  rw [List.takeWhile_append_of_pos h, List.dropWhile_append_of_pos h]
  simp [hx]

theorem bne_of_not_mem {x : Char} (h : x ∉ l) : ∀ y ∈ l, (y != x) = true :=
  fun _ hy => bne_iff_ne.mpr fun he => h (he ▸ hy)

/-- A piece that is a run of characters of a class after its first one. -/
theorem firstFrom_run {shape : Shape} {c : Char} (h : ∀ x ∈ l, p x) :
    FirstFrom (⟨shape, c :: (l ++ r).takeWhile p⟩, (l ++ r).dropWhile p) ⟨shape, c :: l⟩ r := by
  rw [List.takeWhile_append_of_pos h, List.dropWhile_append_of_pos h]
  rcases takeWhile_nil_or_pos p r with ⟨htake, hdrop⟩ | hpos
  · exact .inl (by rw [htake, hdrop, List.append_nil])
  · refine .inr ?_
    simp only [List.length_cons, List.length_append]
    omega

end Runs

variable {c : Char} {cs text rest : List Char}

theorem first_of_isBlank (h : isBlank c) (cs : List Char) : first c cs = (⟨.blank, [c]⟩, cs) := by
  rw [first, if_pos h]

theorem first_comment (cs : List Char) : first '/' ('/' :: cs) =
    (⟨.comment, '/' :: ('/' :: cs).takeWhile (· != '\n')⟩,
      ('/' :: cs).dropWhile (· != '\n')) := rfl

theorem first_quote (cs : List Char) : first '"' cs = takeString cs := rfl

theorem first_of_isDigit (h : isDigit c) (cs : List Char) : first c cs = takeNumber c cs := by
  have hword : isWordChar c := by simp [isWordChar, h]
  obtain ⟨hblank, hslash, hquote⟩ := isBlank_eq_false_of_isWordChar hword
  simp [first, hblank, hslash, hquote, h]

theorem first_of_isLetter (h : isLetter c) (cs : List Char) :
    first c cs = (⟨.word, c :: cs.takeWhile isWordChar⟩, cs.dropWhile isWordChar) := by
  have hword : isWordChar c := by simp [isWordChar, h]
  obtain ⟨hblank, hslash, hquote⟩ := isBlank_eq_false_of_isWordChar hword
  simp [first, hblank, hslash, hquote, isDigit_eq_false_of_isLetter h, h]

/-! ### Pieces of each shape -/

theorem firstFrom_blank (h : Shape.blank.Matches text rest) (ht : text ++ rest = c :: cs) :
    FirstFrom (first c cs) ⟨.blank, text⟩ rest := by
  obtain ⟨d, rfl, hd⟩ := h
  obtain ⟨rfl, rfl⟩ := List.cons.inj ht
  exact .inl (first_of_isBlank (by rwa [isBlank_eq]) _)

theorem firstFrom_comment (h : Shape.comment.Matches text rest) (ht : text ++ rest = c :: cs) :
    FirstFrom (first c cs) ⟨.comment, text⟩ rest := by
  obtain ⟨body, rfl, hbody⟩ := h
  obtain ⟨rfl, rfl⟩ := List.cons.inj ht
  exact firstFrom_run (bne_of_not_mem (by simpa using hbody))

theorem firstFrom_string {contents : List Char} (h : (Shape.string contents).Matches text rest)
    (ht : text ++ rest = c :: cs) : FirstFrom (first c cs) ⟨.string contents, text⟩ rest := by
  obtain ⟨rfl, hcontents⟩ := h
  obtain ⟨rfl, hcs⟩ := List.cons.inj ht
  obtain rfl : contents ++ '"' :: rest = cs := by simpa using hcs
  obtain ⟨htake, hdrop⟩ := takeWhile_until (x := '"') (r := rest) (bne_of_not_mem hcontents) rfl
  refine .inl ?_
  rw [first_quote]
  simp only [takeString, htake, hdrop]
  rfl

theorem firstFrom_unclosed (h : Shape.unclosed.Matches text rest) (ht : text ++ rest = c :: cs) :
    FirstFrom (first c cs) ⟨.unclosed, text⟩ rest := by
  obtain ⟨contents, rfl, hcontents, rfl⟩ := h
  obtain ⟨rfl, hcs⟩ := List.cons.inj ht
  obtain rfl : contents = cs := by simpa using hcs
  have hrun := bne_of_not_mem hcontents
  refine .inl ?_
  rw [first_quote]
  simp [takeString, List.takeWhile_eq_self_iff.mpr hrun, List.dropWhile_eq_nil_iff.mpr hrun]

theorem firstFrom_word (h : Shape.word.Matches text rest) (ht : text ++ rest = c :: cs) :
    FirstFrom (first c cs) ⟨.word, text⟩ rest := by
  obtain ⟨d, ds, rfl, hd, hds⟩ := h
  obtain ⟨rfl, rfl⟩ := List.cons.inj ht
  rw [first_of_isLetter (isLetter_iff.mpr hd)]
  exact firstFrom_run fun x hx => isWordChar_iff.mpr (hds x hx)

theorem length_takeWhile_lt_takeNumber (c : Char) (cs : List Char) :
    (cs.takeWhile isDigit).length < (takeNumber c cs).1.text.length := by
  unfold takeNumber
  split
  · split
    · simp only [List.length_append, List.length_cons]
      omega
    · simp
  · simp

theorem firstFrom_number {whole fraction : List Char}
    (h : (Shape.number whole fraction).Matches text rest) (ht : text ++ rest = c :: cs) :
    FirstFrom (first c cs) ⟨.number whole fraction, text⟩ rest := by
  obtain ⟨hne, hdigits, rfl⟩ := h
  obtain ⟨d, ws, rfl⟩ := List.exists_cons_of_ne_nil hne
  obtain ⟨rfl, hcs⟩ := List.cons.inj ht
  have hfirst : isDigit d := hdigits d (by simp)
  have hws : ∀ x ∈ ws, isDigit x := fun x hx => hdigits x (by simp [hx])
  rw [first_of_isDigit hfirst]
  cases fraction with
  | nil =>
    obtain rfl : ws ++ rest = cs := by simpa using hcs
    rw [if_pos rfl, List.append_nil]
    rcases takeWhile_nil_or_pos isDigit rest with ⟨htake, hdrop⟩ | hpos
    · simp only [takeNumber, List.takeWhile_append_of_pos hws, List.dropWhile_append_of_pos hws,
        htake, hdrop, List.append_nil]
      split
      · split
        · exact .inr (by simp)
        · exact .inl rfl
      · exact .inl rfl
    · have hlength := length_takeWhile_lt_takeNumber d (ws ++ rest)
      rw [List.takeWhile_append_of_pos hws, List.length_append] at hlength
      refine .inr ?_
      rw [List.length_cons]
      omega
  | cons e fs =>
    have he : isDigit e := hdigits e (by simp)
    have hfs : ∀ x ∈ fs, isDigit x := fun x hx => hdigits x (by simp [hx])
    obtain rfl : ws ++ '.' :: e :: (fs ++ rest) = cs := by simpa using hcs
    obtain ⟨htake, hdrop⟩ := takeWhile_until (x := '.') (r := e :: (fs ++ rest)) hws rfl
    simp only [takeNumber, htake, hdrop, if_pos he, List.takeWhile_append_of_pos hfs,
      List.dropWhile_append_of_pos hfs]
    rcases takeWhile_nil_or_pos isDigit rest with ⟨htake, hdrop⟩ | hpos
    · exact .inl (by simp [htake, hdrop])
    · exact .inr (by simp; omega)

/-! ### Marks -/

/-- A mark is one character, or two of which the second is an equals sign. -/
theorem toList_spelling (m : Mark) :
    (∃ c, m.spelling.toList = [c] ∧ Mark.ofChar? c = some m) ∨
      ∃ c m', m.spelling.toList = [c, '='] ∧ Mark.ofChar? c = some m' ∧ m'.withEqual? = some m := by
  cases m
  case bangEqual | equalEqual | greaterEqual | lessEqual => exact .inr ⟨_, _, rfl, rfl, rfl⟩
  all_goals exact .inl ⟨_, rfl, rfl⟩

theorem toList_spelling_of_ofChar? {m : Mark} (h : Mark.ofChar? c = some m) :
    m.spelling.toList = [c] := by
  unfold Mark.ofChar? at h
  split at h <;> cases h <;> rfl

theorem toList_spelling_of_withEqual? {m long : Mark} (h : Mark.ofChar? c = some m)
    (hlong : m.withEqual? = some long) : long.spelling.toList = [c, '='] := by
  unfold Mark.ofChar? at h
  split at h <;> cases h <;> cases hlong <;> rfl

theorem first_of_ofChar? {m : Mark} (h : Mark.ofChar? c = some m)
    (hslash : (c = '/' && cs.head? = some '/') = false) : first c cs = takeMark c cs := by
  have hclass : isBlank c = false ∧ c ≠ '"' ∧ isDigit c = false ∧ isLetter c = false := by
    unfold Mark.ofChar? at h
    split at h <;> cases h <;> decide
  obtain ⟨hblank, hquote, hdigit, hletter⟩ := hclass
  rw [first, hblank, hslash, hdigit, hletter, if_neg hquote]
  rfl

theorem firstFrom_mark {m : Mark} (h : (Shape.mark m).Matches text rest)
    (ht : text ++ rest = c :: cs) : FirstFrom (first c cs) ⟨.mark m, text⟩ rest := by
  obtain rfl : text = m.spelling.toList := h
  rcases toList_spelling m with ⟨d, hspelling, hd⟩ | ⟨d, m', hspelling, hd, hm⟩
  · rw [hspelling] at ht ⊢
    obtain ⟨rfl, hcs⟩ := List.cons.inj ht
    obtain rfl : rest = cs := hcs
    by_cases hslash : d = '/' ∧ rest.head? = some '/'
    · -- Two slashes are more than one.
      obtain ⟨rfl, hhead⟩ := hslash
      obtain ⟨rest, rfl⟩ := List.head?_eq_some_iff.mp hhead
      exact .inr (by simp [first_comment])
    · rw [first_of_ofChar? hd (by simpa using hslash), takeMark, hd]
      dsimp only
      split
      · exact .inr (by simp)
      · exact .inl rfl
  · rw [hspelling] at ht ⊢
    obtain ⟨rfl, hcs⟩ := List.cons.inj ht
    obtain rfl : '=' :: rest = cs := hcs
    rw [first_of_ofChar? hd (by simp), takeMark, hd]
    simp only [hm]
    exact .inl rfl

/-- No text of a shape is longer than the first piece. -/
theorem Shape.Matches.firstFrom {shape : Shape} (h : shape.Matches text rest)
    (ht : text ++ rest = c :: cs) : FirstFrom (first c cs) ⟨shape, text⟩ rest := by
  cases shape with
  | blank => exact firstFrom_blank h ht
  | comment => exact firstFrom_comment h ht
  | string contents => exact firstFrom_string h ht
  | unclosed => exact firstFrom_unclosed h ht
  | number whole fraction => exact firstFrom_number h ht
  | word => exact firstFrom_word h ht
  | mark m => exact firstFrom_mark h ht
  | stray => exact h.elim

theorem Shape.Matches.ne_nil {shape : Shape} (h : shape.Matches text rest) : text ≠ [] := by
  cases shape with
  | blank =>
    obtain ⟨c, rfl, -⟩ := h
    simp
  | comment | unclosed =>
    obtain ⟨body, rfl, -⟩ := h
    simp
  | string contents =>
    obtain ⟨rfl, -⟩ := h
    simp
  | number whole fraction =>
    obtain ⟨hne, -, rfl⟩ := h
    simp [hne]
  | word =>
    obtain ⟨c, cs, rfl, -⟩ := h
    simp
  | mark m =>
    obtain rfl : text = m.spelling.toList := h
    rcases toList_spelling m with ⟨c, hs, -⟩ | ⟨c, m', hs, -⟩ <;> simp [hs]
  | stray => exact h.elim

/-! ### The first piece occurs -/

theorem occurs_takeString (cs : List Char) : (takeString cs).1.Occurs (takeString cs).2 := by
  have hcontents : '"' ∉ cs.takeWhile (· != '"') := fun h => by simpa using List.mem_takeWhile_imp h
  unfold takeString
  cases hd : cs.dropWhile (· != '"') with
  | nil => exact .inl ⟨_, rfl, hcontents, rfl⟩
  | cons quote rest =>
    have hquote : quote = '"' := by
      have := List.head?_dropWhile_not (· != '"') cs
      simpa [hd] using this
    subst hquote
    exact .inl ⟨rfl, hcontents⟩

theorem occurs_takeNumber (h : isDigit c) (cs : List Char) :
    (takeNumber c cs).1.Occurs (takeNumber c cs).2 := by
  have hwhole : ∀ x ∈ c :: cs.takeWhile isDigit, x.isDigit := by
    intro x hx
    rcases List.mem_cons.mp hx with rfl | hx
    · exact h
    · exact List.mem_takeWhile_imp hx
  unfold takeNumber
  split
  · next d rest _ =>
    split
    · next hd =>
      refine .inl ⟨by simp, fun x hx => ?_, by simp⟩
      rcases List.mem_append.mp hx with hx | hx
      · exact hwhole x hx
      · rcases List.mem_cons.mp hx with rfl | hx
        · exact hd
        · exact List.mem_takeWhile_imp hx
    · exact .inl ⟨by simp, by simpa using hwhole, by simp⟩
  · exact .inl ⟨by simp, by simpa using hwhole, by simp⟩

theorem occurs_takeMark {m : Mark} (h : Mark.ofChar? c = some m) (cs : List Char) :
    (takeMark c cs).1.Occurs (takeMark c cs).2 := by
  unfold takeMark
  rw [h]
  dsimp only
  split
  · next long rest hlong => exact .inl (toList_spelling_of_withEqual? h hlong).symm
  · exact .inl (toList_spelling_of_ofChar? h).symm

/-- The character before `cs` is a piece of its own if the first piece is a stray one. -/
theorem occurs_stray (h : first c cs = (⟨.stray, [c]⟩, cs)) : Occurs ⟨.stray, [c]⟩ cs := by
  refine .inr ⟨rfl, rfl, fun shape text rest ht hmatch => ?_⟩
  have ht : text ++ rest = c :: cs := ht
  have hpos := List.length_pos_iff.mpr hmatch.ne_nil
  rcases hmatch.firstFrom ht with heq | hlt
  · obtain rfl : shape = .stray := congrArg (·.1.shape) (heq.symm.trans h)
    exact hmatch
  · rw [h, List.length_singleton] at hlt
    dsimp only at hlt
    omega

theorem occurs_first (c : Char) (cs : List Char) : (first c cs).1.Occurs (first c cs).2 := by
  by_cases hblank : isBlank c
  · rw [first_of_isBlank hblank]
    exact .inl ⟨c, rfl, isBlank_eq c ▸ hblank⟩
  by_cases hslash : c = '/' ∧ cs.head? = some '/'
  · obtain ⟨rfl, hhead⟩ := hslash
    obtain ⟨cs, rfl⟩ := List.head?_eq_some_iff.mp hhead
    rw [first_comment]
    refine .inl ⟨cs.takeWhile (· != '\n'), rfl, fun h => ?_⟩
    simpa using List.mem_takeWhile_imp h
  by_cases hquote : c = '"'
  · subst hquote
    exact occurs_takeString cs
  by_cases hdigit : isDigit c
  · rw [first_of_isDigit hdigit]
    exact occurs_takeNumber hdigit cs
  by_cases hletter : isLetter c
  · rw [first_of_isLetter hletter]
    refine .inl ⟨c, _, rfl, isLetter_iff.mp hletter, fun d hd => ?_⟩
    exact isWordChar_iff.mp (List.mem_takeWhile_imp hd)
  cases hmark : Mark.ofChar? c with
  | some m =>
    rw [first_of_ofChar? hmark (by simpa using hslash)]
    exact occurs_takeMark hmark cs
  | none =>
    have hstray : first c cs = (⟨.stray, [c]⟩, cs) := by
      simp [first, takeMark, hblank, hslash, hquote, hdigit, hletter, hmark]
    rw [hstray]
    exact occurs_stray hstray

/-! ### The longest piece -/

/-- No piece is longer than the first one. -/
theorem Occurs.firstFrom {p : Piece} (h : p.Occurs rest) (ht : p.text ++ rest = c :: cs) :
    FirstFrom (first c cs) p rest := by
  rcases h with hmatch | ⟨hshape, hlength, hnone⟩
  · exact hmatch.firstFrom ht
  · -- No other piece begins here, so that the first one is a stray character too.
    rcases occurs_first c cs with hmatch | ⟨hshape', hlength', -⟩
    · exact absurd hmatch (hnone _ _ _ ((text_first c cs).trans ht.symm))
    · obtain ⟨htext, hrest⟩ := List.append_inj (ht.trans (text_first c cs).symm)
        (hlength.trans hlength'.symm)
      refine .inl (Prod.ext ?_ hrest.symm)
      obtain ⟨shape, text⟩ := p
      exact congrArg₂ Piece.mk (hshape'.trans hshape.symm) htext.symm

theorem Occurs.ne_nil {p : Piece} (h : p.Occurs rest) : p.text ≠ [] := by
  rcases h with hmatch | ⟨-, hlength, -⟩
  · exact hmatch.ne_nil
  · rintro hnil
    simp [hnil] at hlength

theorem isLongest_iff {p : Piece} (ht : p.text ++ rest = c :: cs) :
    p.IsLongest rest ↔ first c cs = (p, rest) := by
  constructor
  · rintro ⟨hoccurs, hmax⟩
    refine (hoccurs.firstFrom ht).resolve_right fun hlt => ?_
    have hle := hmax _ _ (occurs_first c cs) ((text_first c cs).trans ht.symm)
    omega
  · intro h
    have hoccurs := occurs_first c cs
    rw [h] at hoccurs
    refine ⟨hoccurs, fun q rest' hq htext => ?_⟩
    rcases hq.firstFrom (htext.trans ht) with heq | hlt
    · rw [h] at heq
      exact Nat.le_of_eq (congrArg (·.1.text.length) heq.symm)
    · rw [h] at hlt
      exact Nat.le_of_lt hlt

end Piece

/-- There is one way to cut a text into longest pieces. -/
theorem cut_iff {cs : List Char} {ps : List Piece} : Cut cs ps ↔ ps = pieces cs := by
  constructor
  · intro h
    induction h with
    | nil => rw [pieces]
    | @cons p rest ps hp _ ih =>
      obtain ⟨c, cs, hcs⟩ := List.exists_cons_of_ne_nil
        (List.append_ne_nil_of_left_ne_nil hp.1.ne_nil rest)
      rw [hcs, pieces, (Piece.isLongest_iff hcs).mp hp, ih]
  · rintro rfl
    fun_induction pieces cs with
    | case1 => exact .nil
    | case2 c cs ih =>
      have hlongest := (Piece.isLongest_iff (Piece.text_first c cs)).mpr rfl
      have hcut := Cut.cons hlongest ih
      rwa [Piece.text_first] at hcut

/-! ## What pieces become -/

namespace Piece

/-- Blanks and comments are skipped. -/
def isSkipped (p : Piece) : Bool := p.shape = .blank || p.shape = .comment

/-- A piece becomes a token with its text, or a fault. A word is a keyword if it is spelled like
one. -/
def Gives (p : Piece) : ScanItem → Prop
  | .token t => t.lexeme = String.ofList p.text ∧
    match p.shape with
    | .string contents => t.kind = .string (.ofList contents)
    | .number whole fraction => t.kind = .number (Number.read whole fraction)
    | .word => (∀ k, t.kind = .keyword k ↔ t.lexeme = k.spelling) ∧
        (t.kind = .identifier ↔ ∀ k : Keyword, t.lexeme ≠ k.spelling)
    | .mark m => t.kind = .mark m
    | _ => False
  | .fault f _ => f = .unterminatedString ∧ p.shape = .unclosed ∨
      f = .unexpectedCharacter ∧ p.shape = .stray

theorem ofSpelling?_eq_some_iff {word : String} {k : Keyword} :
    Keyword.ofSpelling? word = some k ↔ word = k.spelling := by
  constructor
  · intro h
    unfold Keyword.ofSpelling? at h
    have hfound := List.find?_some h
    exact (eq_of_beq hfound).symm
  · rintro rfl
    cases k <;> rfl

theorem ofWord_eq_keyword_iff {word : String} {k : Keyword} :
    Token.Kind.ofWord word = .keyword k ↔ word = k.spelling := by
  rw [← ofSpelling?_eq_some_iff, Token.Kind.ofWord]
  cases Keyword.ofSpelling? word <;> simp

theorem ofWord_eq_identifier_iff {word : String} :
    Token.Kind.ofWord word = .identifier ↔ ∀ k : Keyword, word ≠ k.spelling := by
  simp only [ne_eq, ← ofSpelling?_eq_some_iff, Token.Kind.ofWord]
  cases Keyword.ofSpelling? word <;> simp

theorem isSkipped_of_item?_eq_none {p : Piece} {line : Nat} (h : p.item? line = none) :
    p.isSkipped := by
  unfold item? at h
  split at h <;> simp_all [isSkipped]

theorem gives_of_item?_eq_some {p : Piece} {line : Nat} {i : ScanItem}
    (h : p.item? line = some i) : p.isSkipped = false ∧ p.Gives i := by
  unfold item? at h
  split at h <;> cases h
  case h_6 hshape =>
    refine ⟨by simp [isSkipped, hshape], rfl, ?_⟩
    rw [hshape]
    exact ⟨fun k => ofWord_eq_keyword_iff, ofWord_eq_identifier_iff⟩
  all_goals simp_all [isSkipped, Gives]

end Piece

/-- Every piece that is not skipped becomes one item, in the same order. -/
theorem Scan.gives_items_ofPieces (line : Nat) (ps : List Piece) :
    List.Forall₂ Piece.Gives (ps.filter (!·.isSkipped)) (ofPieces line ps).items := by
  induction ps generalizing line with
  | nil => exact .nil
  | cons p ps ih =>
    rw [ofPieces]
    cases h : p.item? (line + p.newlines) with
    | none => simpa [Piece.isSkipped_of_item?_eq_none h] using ih (line + p.newlines)
    | some i =>
      obtain ⟨hskipped, hgives⟩ := Piece.gives_of_item?_eq_some h
      simpa [hskipped] using List.Forall₂.cons hgives (ih (line + p.newlines))

/-- A source is cut into longest pieces, which can be done in one way only. Each piece that is not
skipped gives one item, and the listing of the tokens closes with the end of the source. -/
theorem scan_longest_match (source : String) :
    ∃ ps, (∀ qs, Cut source.toList qs ↔ qs = ps) ∧
      List.Forall₂ Piece.Gives (ps.filter (!·.isSkipped)) (scan source).items ∧
      (scan source).entries = (scan source).tokens.map .ofToken ++
        [.ofEnd (1 + source.toList.count '\n')] := by
  rw [Scan.entries, scan_eq_ofPieces, Scan.endLine_ofPieces, flatMap_text_pieces]
  exact ⟨pieces source.toList, fun qs => cut_iff, Scan.gives_items_ofPieces 1 _, rfl⟩

end LoxLang
