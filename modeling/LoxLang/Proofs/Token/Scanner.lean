import LoxLang.Proofs.Token.Bytes
import Mathlib.Data.List.TakeWhile

/-!
# What the scanner finds

From a place between two characters the scanner goes on to the end of the first piece of the text
there. The lines that it counts, in blanks and in strings, are those that end in this piece, since no
other piece has a newline. So a scan of bytes gives what the pieces give.

## Main results

* `scanToken_eq`: the scanner finds the first piece.
* `scan_eq_ofPieces`: a source is scanned by its pieces.
-/

namespace LoxLang

/-- What the scanner finds in a piece. -/
def Piece.find (p : Piece) : Scanner.Find :=
  match p.shape with
  | .blank => .skipped
  | .comment => .skipped
  | .string contents => .token (.string (.ofList contents))
  | .unclosed => .fault .unterminatedString
  | .number whole fraction => .token (.number (Number.read whole fraction))
  | .word => .token (.ofWord (.ofList p.text))
  | .mark m => .token (.mark m)
  | .stray => .fault .unexpectedCharacter

theorem count_encode {d : Char} (hd : d.toNat < 128) (cs : List Char) :
    (encode cs).count d.toUInt8 = cs.count d := by
  induction cs with
  | nil => rfl
  | cons c cs ih =>
    rcases Nat.lt_or_ge c.toNat 128 with hc | hc
    · have hsame : (c.toUInt8 == d.toUInt8) = (c == d) := by
        rw [Bool.eq_iff_iff, beq_iff_eq, beq_iff_eq, toUInt8_inj hc hd]
      rw [encode_cons_of_lt hc, List.count_cons, List.count_cons, ih, hsame]
    · have hbyte : d.toUInt8 ∉ String.utf8EncodeChar c := fun hmem =>
        absurd (le_of_mem_utf8EncodeChar hc hmem) (Nat.not_le.mpr (toNat_toUInt8_lt hd))
      have hne : c ≠ d := by
        rintro rfl
        omega
      rw [encode_cons, List.count_append, List.count_eq_zero.mpr hbyte, ih, Nat.zero_add,
        List.count_cons_of_ne hne]

namespace Piece

variable {c : Char} {cs : List Char}

/-! ## Pieces without newlines -/

theorem newlines_eq_zero_iff {p : Piece} : p.newlines = 0 ↔ '\n' ∉ p.text := List.count_eq_zero

theorem newline_not_mem_takeWhile {p : Char → Bool} (h : p '\n' = false) (cs : List Char) :
    '\n' ∉ cs.takeWhile p := fun hmem => by
  rw [List.mem_takeWhile_imp hmem] at h
  cases h

theorem newlines_comment (cs : List Char) :
    newlines ⟨.comment, '/' :: '/' :: cs.takeWhile (· != '\n')⟩ = 0 := by
  rw [newlines_eq_zero_iff]
  simpa using newline_not_mem_takeWhile (p := (· != '\n')) rfl cs

theorem newlines_takeNumber (hc : isDigit c) (cs : List Char) :
    (takeNumber c cs).1.newlines = 0 := by
  have hdigits : ∀ {d : Char}, isDigit d → ∀ ds : List Char, '\n' ∉ d :: ds.takeWhile isDigit := by
    intro d hd ds hmem
    rcases List.mem_cons.mp hmem with rfl | hmem
    · cases hd
    · exact newline_not_mem_takeWhile (p := isDigit) rfl ds hmem
  rw [newlines_eq_zero_iff]
  unfold takeNumber
  split
  · split
    · next d rest _ hd =>
      rw [List.mem_append, not_or, List.mem_cons (a := '\n') (b := '.'), not_or]
      exact ⟨hdigits hc cs, by decide, hdigits hd rest⟩
    · exact hdigits hc cs
  · exact hdigits hc cs

theorem newlines_word (hc : isLetter c) (cs : List Char) :
    newlines ⟨.word, c :: cs.takeWhile isWordChar⟩ = 0 := by
  have hne : '\n' ≠ c := by
    rintro rfl
    cases hc
  rw [newlines_eq_zero_iff, List.mem_cons, not_or]
  exact ⟨hne, newline_not_mem_takeWhile (p := isWordChar) rfl cs⟩

theorem newlines_takeMark (hc : c ≠ '\n') (cs : List Char) : (takeMark c cs).1.newlines = 0 := by
  rw [newlines_eq_zero_iff]
  unfold takeMark
  repeat' split
  all_goals simp [hc.symm]

end Piece

namespace Scanner

open Bytes

variable {bytes : ByteArray} {i line : Nat} {c : Char} {cs : List Char}

theorem skipToQuote_eq (bytes : ByteArray) (i line : Nat) :
    skipToQuote bytes i line = (i + ((rest bytes i).takeWhile (· != '"'.toUInt8)).length,
      line + ((rest bytes i).takeWhile (· != '"'.toUInt8)).count '\n'.toUInt8) := by
  fun_induction skipToQuote bytes i line with
  | case1 i line h ih =>
    cases hr : rest bytes i with
    | nil => exact absurd h.1 (Nat.not_lt.mpr (rest_eq_nil_iff.mp hr))
    | cons b bs =>
      simp only [dite_eq_ite, peek_of_rest hr, rest_succ hr] at h ih ⊢
      rw [ih, List.takeWhile_cons, if_pos (bne_iff_ne.mpr h.2), List.length_cons, List.count_cons]
      by_cases hb : b = '\n'.toUInt8
      · simp [hb]
        omega
      · simp [hb]
        omega
  | case2 i line h =>
    cases hr : rest bytes i with
    | nil => rfl
    | cons b bs =>
      rw [peek_of_rest hr] at h
      have hb : b = '"'.toUInt8 := not_not.mp fun hne => h ⟨lt_size_of_rest hr, hne⟩
      rw [hb, List.takeWhile_cons, bne_self_eq_false]
      rfl

theorem skipWhile_succ {k : ByteClass} (h : k.test (peek bytes i)) :
    skipWhile k bytes (i + 1) = skipWhile k bytes i := by
  rw [skipWhile.eq_def k bytes i, dif_pos h]

/-- The first byte of a character is in a class if the character is. -/
theorem test_peek {k : ByteClass} {p : Char → Bool} (hk : Mirrors k.test p)
    (h : rest bytes i = encode cs) : k.test (peek bytes i) = cs.head?.any p := by
  cases cs with
  | nil =>
    rw [peek_eq_headD, h]
    exact k.test_zero
  | cons c cs =>
    rcases Nat.lt_or_ge c.toNat 128 with hc | hc
    · rw [encode_cons_of_lt hc] at h
      rw [peek_of_rest h, hk.ascii c hc]
      rfl
    · obtain ⟨v, hbyte, hchar⟩ := hk.wide
      obtain ⟨lead, bs, hbytes, hlead, -⟩ := exists_utf8EncodeChar_eq hc
      rw [encode_cons, hbytes, List.cons_append] at h
      rw [peek_of_rest h, hbyte lead (by omega), List.head?_cons, Option.any_some, hchar c hc]

theorem peek_eq_iff {d : Char} (hd : d.toNat < 128) (hzero : d.toUInt8 ≠ 0)
    (h : rest bytes i = encode cs) : peek bytes i = d.toUInt8 ↔ cs.head? = some d := by
  have htest := test_peek (k := ⟨(· == d.toUInt8), by simpa using hzero.symm⟩) (mirrors_eq hd) h
  rw [Bool.eq_iff_iff, beq_iff_eq] at htest
  rw [htest]
  cases cs.head? <;> simp

/-- A run of bytes ends where the run of characters does. -/
theorem rest_takeWhile (p : Char → Bool) (h : rest bytes i = encode cs) :
    rest bytes i = encode (cs.takeWhile p) ++ encode (cs.dropWhile p) ∧
      rest bytes (i + (encode (cs.takeWhile p)).length) = encode (cs.dropWhile p) := by
  have hbytes : rest bytes i = encode (cs.takeWhile p) ++ encode (cs.dropWhile p) := by
    rw [← encode_append, List.takeWhile_append_dropWhile, h]
  exact ⟨hbytes, rest_of_append hbytes⟩

theorem scanString_eq (line : Nat) (h : rest bytes (i + 1) = encode cs) :
    scanString bytes i line = ((Piece.takeString cs).1.find,
      i + (encode (Piece.takeString cs).1.text).length,
      line + (Piece.takeString cs).1.newlines) := by
  let contents := cs.takeWhile (· != '"')
  have hskip : skipToQuote bytes (i + 1) line =
      (i + 1 + (encode contents).length, line + contents.count '\n') := by
    rw [skipToQuote_eq, h, takeWhile_encode (mirrors_ne (by decide)), count_encode (by decide)]
  obtain ⟨hbytes, hstop⟩ := rest_takeWhile (· != '"') h
  unfold scanString Piece.takeString
  rw [hskip]
  dsimp only
  cases hd : cs.dropWhile (· != '"') with
  | nil =>
    rw [hd] at hstop
    have hend := rest_eq_nil_iff.mp hstop
    rw [if_neg (Nat.not_lt.mpr hend)]
    simp [Piece.find, Piece.newlines, encode_cons_of_lt, contents]
    omega
  | cons quote after =>
    have hquote : quote = '"' := by
      have hhead := List.head?_dropWhile_not (· != '"') cs
      rw [hd] at hhead
      simpa using hhead
    subst hquote
    rw [hd, encode_cons_of_lt (by decide)] at hstop
    rw [if_pos (lt_size_of_rest hstop), slice_eq hbytes rfl]
    simp [Piece.find, Piece.newlines, encode_cons_of_lt, encode_append, contents]
    omega

/-- Where a run of a class ends, and its text. -/
theorem skipWhile_encode {k : ByteClass} {p : Char → Bool} (hk : Mirrors k.test p)
    (h : rest bytes i = encode cs) :
    skipWhile k bytes i = i + (encode (cs.takeWhile p)).length ∧
      slice bytes i (i + (encode (cs.takeWhile p)).length) = .ofList (cs.takeWhile p) ∧
        rest bytes (i + (encode (cs.takeWhile p)).length) = encode (cs.dropWhile p) := by
  obtain ⟨hbytes, hstop⟩ := rest_takeWhile p h
  refine ⟨?_, slice_eq hbytes rfl, hstop⟩
  rw [skipWhile_eq, h, takeWhile_encode hk]

/-- Where a fraction follows, in bytes and in characters. -/
theorem fraction_iff (h : rest bytes i = encode cs) :
    peek bytes i = '.'.toUInt8 ∧ ByteClass.digit.test (peek bytes (i + 1)) ↔
      ∃ d after, cs = '.' :: d :: after ∧ isDigit d := by
  have hdot := peek_eq_iff (d := '.') (by decide) (by decide) h
  constructor
  · rintro ⟨hpoint, hdigit⟩
    obtain ⟨after, rfl⟩ := List.head?_eq_some_iff.mp (hdot.mp hpoint)
    rw [encode_cons_of_lt (by decide)] at h
    rw [test_peek mirrors_digit (rest_succ h)] at hdigit
    cases after with
    | nil => cases hdigit
    | cons d after => exact ⟨d, after, rfl, hdigit⟩
  · rintro ⟨d, after, rfl, hd⟩
    rw [encode_cons_of_lt (by decide)] at h
    rw [test_peek mirrors_digit (rest_succ h)]
    exact ⟨hdot.mpr rfl, hd⟩

theorem scanNumber_eq (hc : isDigit c) (h : rest bytes i = encode (c :: cs)) :
    scanNumber bytes i = ((Piece.takeNumber c cs).1.find,
      i + (encode (Piece.takeNumber c cs).1.text).length) := by
  obtain ⟨hskip, hwhole, hpoint⟩ := skipWhile_encode mirrors_digit h
  have hfirst : ByteClass.digit.test (peek bytes i) := by simp [test_peek mirrors_digit h, hc]
  rw [List.takeWhile_cons, if_pos hc] at hskip hwhole hpoint
  rw [List.dropWhile_cons, if_pos hc] at hpoint
  unfold scanNumber Piece.takeNumber
  rw [skipWhile_succ hfirst, hskip]
  dsimp only
  rw [hwhole, String.toList_ofList]
  have hfollows := fraction_iff hpoint
  generalize c :: cs.takeWhile isDigit = whole at *
  generalize cs.dropWhile isDigit = ds at *
  by_cases hfraction : ∃ d after, ds = '.' :: d :: after ∧ isDigit d
  · rw [if_pos (hfollows.mpr hfraction)]
    obtain ⟨d, after, rfl, hd⟩ := hfraction
    rw [encode_cons_of_lt (by decide)] at hpoint
    obtain ⟨hstop, hslice, -⟩ := skipWhile_encode mirrors_digit (rest_succ hpoint)
    rw [List.takeWhile_cons, if_pos hd] at hstop hslice
    rw [hstop, hslice, String.toList_ofList]
    simp [hd, Piece.find, encode_append, encode_cons_of_lt]
    omega
  · rw [if_neg (mt hfollows.mp hfraction)]
    split
    · next d after =>
      have hd : ¬ isDigit d := fun hd => hfraction ⟨d, after, rfl, hd⟩
      rw [if_neg hd]
      rfl
    · rfl

theorem scanWord_eq (hc : isLetter c) (h : rest bytes i = encode (c :: cs)) :
    scanWord bytes i = (.token (.ofWord (.ofList (c :: cs.takeWhile isWordChar))),
      i + (encode (c :: cs.takeWhile isWordChar)).length) := by
  have hword : isWordChar c := by simp [isWordChar, hc]
  have hfirst : ByteClass.word.test (peek bytes i) := by simp [test_peek mirrors_word h, hword]
  obtain ⟨hskip, hslice, -⟩ := skipWhile_encode mirrors_word h
  rw [List.takeWhile_cons, if_pos hword] at hskip hslice
  unfold scanWord
  rw [skipWhile_succ hfirst, hskip]
  dsimp only
  rw [hslice]

theorem isAt_iff_head? {d : Char} (hd : d.toNat < 128) (hzero : d.toUInt8 ≠ 0)
    (h : rest bytes i = encode cs) : isAt d.toUInt8 bytes i ↔ cs.head? = some d := by
  rw [isAt, Bool.and_eq_true, decide_eq_true_eq, beq_iff_eq, peek_eq_iff hd hzero h]
  refine ⟨fun h => h.2, fun hhead => ⟨?_, hhead⟩⟩
  obtain ⟨after, rfl⟩ := List.head?_eq_some_iff.mp hhead
  rw [encode_cons_of_lt hd] at h
  exact lt_size_of_rest h

theorem toNat_lt_of_ofChar? {m : Mark} (h : Mark.ofChar? c = some m) : c.toNat < 128 := by
  unfold Mark.ofChar? at h
  split at h <;> first | decide | cases h

/-- A stray character is passed over with all its bytes. -/
theorem scanMark_eq (h : rest bytes i = encode (c :: cs)) :
    scanMark bytes i = ((Piece.takeMark c cs).1.find,
      i + (encode (Piece.takeMark c cs).1.text).length) := by
  unfold scanMark Piece.takeMark
  rcases Nat.lt_or_ge c.toNat 128 with hc | hc
  · rw [encode_cons_of_lt hc] at h
    have hrest := rest_succ h
    rw [peek_of_rest h, ofUInt8_toUInt8 hc]
    cases Mark.ofChar? c with
    | none =>
      dsimp only
      rw [skipWhile_eq, hrest, takeWhile_continuation_encode, encode_cons_of_lt hc]
      rfl
    | some m =>
      have hequal := isAt_iff_head? (d := '=') (by decide) (by decide) hrest
      cases hm : m.withEqual? with
      | none => simp [hm, Piece.find, encode_cons_of_lt hc]
      | some long =>
        by_cases hhead : cs.head? = some '='
        · obtain ⟨after, rfl⟩ := List.head?_eq_some_iff.mp hhead
          simp [hm, hequal.mpr rfl, Piece.find, encode_cons_of_lt, hc]
        · have hnot : isAt '='.toUInt8 bytes (i + 1) = false :=
            Bool.eq_false_iff.mpr fun h => hhead (hequal.mp h)
          simp only [hm, hnot]
          split
          · exact absurd rfl hhead
          · simp [Piece.find, encode_cons_of_lt hc]
  · obtain ⟨lead, bs, hbytes, hlead, hbs⟩ := exists_utf8EncodeChar_eq hc
    have hnone : Mark.ofChar? c = none := by
      cases hm : Mark.ofChar? c with
      | none => rfl
      | some m => exact absurd (toNat_lt_of_ofChar? hm) (Nat.not_lt.mpr hc)
    have hnone' : Mark.ofChar? (.ofUInt8 lead) = none :=
      forall_byte (P := fun b => 192 ≤ b.toNat → Mark.ofChar? (.ofUInt8 b) = none)
        (by decide +kernel) lead hlead
    rw [encode_cons, hbytes, List.cons_append] at h
    rw [peek_of_rest h, hnone, hnone']
    dsimp only
    rw [skipWhile_eq, rest_succ h, List.takeWhile_append_of_pos hbs, takeWhile_continuation_encode,
      List.append_nil, encode_cons, hbytes]
    simp [Piece.find]
    omega

/-- A comment goes on to the end of its line. -/
theorem find?_newline (h : rest bytes (i + 1) = encode ('/' :: cs)) :
    (find? '\n'.toUInt8 bytes (i + 2)).getD bytes.size =
      i + 2 + (encode (cs.takeWhile (· != '\n'))).length := by
  rw [encode_cons_of_lt (by decide)] at h
  rw [find?_eq _ (lt_size_of_rest h), rest_succ h, takeWhile_encode (mirrors_ne (by decide))]

/-- The scanner finds the first piece of the text. It counts the lines that end in this piece. -/
theorem scanToken_eq (line : Nat) (h : rest bytes i = encode (c :: cs)) :
    scanToken bytes i line = ((Piece.first c cs).1.find,
      i + (encode (Piece.first c cs).1.text).length, line + (Piece.first c cs).1.newlines) := by
  have hbyte : ∀ d : Char, d.toNat < 128 → d.toUInt8 ≠ 0 → (peek bytes i = d.toUInt8 ↔ c = d) :=
    fun d hd hzero => by rw [peek_eq_iff hd hzero h]; simp
  have hrest : c.toNat < 128 → rest bytes (i + 1) = encode cs := fun hc => by
    rw [encode_cons_of_lt hc] at h
    exact rest_succ h
  have hdigit : ByteClass.digit.test (peek bytes i) = isDigit c := test_peek mirrors_digit h
  have hletter : ByteClass.letter.test (peek bytes i) = isLetter c := test_peek mirrors_letter h
  simp only [scanToken, hbyte ' ' (by decide) (by decide), hbyte '\r' (by decide) (by decide),
    hbyte '\t' (by decide) (by decide), hbyte '\n' (by decide) (by decide),
    hbyte '/' (by decide) (by decide), hbyte '"' (by decide) (by decide), hdigit, hletter]
  by_cases hblank : c = ' ' ∨ c = '\r' ∨ c = '\t'
  · have hfirst : Piece.first c cs = (⟨.blank, [c]⟩, cs) := by
      rcases hblank with rfl | rfl | rfl <;> rfl
    rw [if_pos hblank, hfirst]
    rcases hblank with rfl | rfl | rfl <;> rfl
  by_cases hline : c = '\n'
  · subst hline
    rfl
  have hnotBlank : ¬ isBlank c := by
    simp only [isBlank, Bool.or_eq_true, decide_eq_true_eq]
    tauto
  rw [if_neg hblank, if_neg hline]
  by_cases hslash : c = '/' ∧ cs.head? = some '/'
  · obtain ⟨rfl, hhead⟩ := hslash
    have hrest := hrest (by decide)
    rw [if_pos ⟨rfl, (isAt_iff_head? (by decide) (by decide) hrest).mpr hhead⟩]
    obtain ⟨after, rfl⟩ := List.head?_eq_some_iff.mp hhead
    have hfirst : Piece.first '/' ('/' :: after) =
        (⟨.comment, '/' :: '/' :: after.takeWhile (· != '\n')⟩, after.dropWhile (· != '\n')) := rfl
    rw [find?_newline hrest, hfirst, Piece.newlines_comment]
    simp [Piece.find, encode_cons_of_lt]
    omega
  have hnotSlash : ¬ (c = '/' ∧ isAt '/'.toUInt8 bytes (i + 1)) := by
    rintro ⟨rfl, hat⟩
    exact hslash ⟨rfl, (isAt_iff_head? (by decide) (by decide) (hrest (by decide))).mp hat⟩
  rw [if_neg hnotSlash]
  by_cases hquote : c = '"'
  · subst hquote
    exact scanString_eq line (hrest (by decide))
  have hfirst : Piece.first c cs = if isDigit c then Piece.takeNumber c cs
      else if isLetter c then (⟨.word, c :: cs.takeWhile isWordChar⟩, cs.dropWhile isWordChar)
      else Piece.takeMark c cs := by
    simp [Piece.first, hnotBlank, hslash, hquote]
  rw [if_neg hquote, hfirst]
  by_cases hd : isDigit c
  · rw [if_pos hd, if_pos hd, scanNumber_eq hd h, Piece.newlines_takeNumber hd]
    rfl
  by_cases hl : isLetter c
  · rw [if_neg hd, if_neg hd, if_pos hl, if_pos hl, scanWord_eq hl h, Piece.newlines_word hl]
    rfl
  · rw [if_neg hd, if_neg hd, if_neg hl, if_neg hl, scanMark_eq h, Piece.newlines_takeMark hline]
    rfl

end Scanner

/-! ## Whole texts -/

theorem Piece.item?_eq (p : Piece) (line : Nat) : p.item? line =
    match p.find with
    | .token kind => some (.token ⟨kind, .ofList p.text, line⟩)
    | .fault f => some (.fault f line)
    | .skipped => none := by
  unfold item? find
  cases p.shape <;> rfl

/-- From a place between characters on, bytes are scanned as the pieces of the text that they are. -/
theorem Scan.ofBytes_eq {bytes : ByteArray} {i : Nat} {cs : List Char} (line : Nat)
    (h : Bytes.rest bytes i = encode cs) : ofBytes bytes i line = ofPieces line (pieces cs) := by
  fun_induction pieces cs generalizing i line with
  | case1 =>
    rw [ofBytes, if_neg (Nat.not_lt.mpr (Bytes.rest_eq_nil_iff.mp h))]
    rfl
  | case2 c cs ih =>
    have htext : Bytes.rest bytes i =
        encode (Piece.first c cs).1.text ++ encode (Piece.first c cs).2 := by
      rw [h, ← encode_append, Piece.text_first]
    have hsize : i < bytes.size := by
      refine Nat.lt_of_not_le fun hle => ?_
      rw [Bytes.rest_eq_nil_iff.mpr hle] at h
      exact encode_cons_ne_nil c cs h.symm
    rw [ofBytes, if_pos hsize, Scanner.scanToken_eq line h, ofPieces, Piece.item?_eq]
    dsimp only
    rw [ih _ (Bytes.rest_of_append htext), Bytes.slice_eq htext rfl]
    cases (Piece.first c cs).1.find <;> rfl

/-- A source is scanned by its pieces. -/
theorem scan_eq_ofPieces (source : String) : scan source = .ofPieces 1 (pieces source.toList) :=
  Scan.ofBytes_eq 1 (toList_data_toByteArray source)

end LoxLang
