import LoxLang.Proofs.Token.Joined

/-!
# Lines

An item stands on the line that is reached when its piece ends. Only blanks and strings go over to
another line; comments stop before it.

## Main definitions

* `Piece.withEnds`: pieces with the text read up to the end of each.

## Main results

* `newlines_eq_zero_or`: the pieces that have newlines.
* `scan_lines_exact`: the line of every item and of the end of the source.
-/

namespace LoxLang

/-- The line on which an item ends. -/
def ScanItem.line : ScanItem → Nat
  | .token t => t.line
  | .fault _ line => line

namespace Piece

/-! ## Newlines in pieces -/

/-- Newlines stand alone or in strings. -/
theorem Shape.Matches.newline {shape : Shape} {text rest : List Char} (h : shape.Matches text rest) :
    '\n' ∉ text ∨ shape = .blank ∧ text = ['\n'] ∨ (∃ contents, shape = .string contents) ∨
      shape = .unclosed := by
  cases shape with
  | blank =>
    obtain ⟨c, rfl, -⟩ := h
    by_cases hc : c = '\n'
    · exact .inr (.inl ⟨rfl, by rw [hc]⟩)
    · exact .inl (by simpa [eq_comm] using hc)
  | comment =>
    obtain ⟨body, rfl, hbody⟩ := h
    exact .inl (by simpa using hbody)
  | string contents => exact .inr (.inr (.inl ⟨contents, rfl⟩))
  | unclosed => exact .inr (.inr (.inr rfl))
  | number whole fraction =>
    obtain ⟨-, hdigits, rfl⟩ := h
    have hnot : '\n' ∉ whole ++ fraction := fun hmem => absurd (hdigits _ hmem) (by decide)
    rw [List.mem_append, not_or] at hnot
    refine .inl ?_
    split
    · simpa using hnot.1
    · simpa using hnot
  | word =>
    obtain ⟨c, cs, rfl, hc, hcs⟩ := h
    refine .inl fun hmem => ?_
    rcases List.mem_cons.mp hmem with rfl | hmem
    · exact absurd hc (by decide)
    · exact absurd (hcs _ hmem) (by decide)
  | mark m =>
    obtain rfl : text = m.spelling.toList := h
    exact .inl (by cases m <;> decide)
  | stray => exact h.elim

/-- Only blanks and strings have newlines. -/
theorem newlines_eq_zero_or {p : Piece} {cs : List Char} (hp : p ∈ pieces cs) :
    p.newlines = 0 ∨ p = ⟨.blank, ['\n']⟩ ∨ (∃ contents, p.shape = .string contents) ∨
      p.shape = .unclosed := by
  obtain ⟨shape, text⟩ := p
  rw [newlines_eq_zero_iff]
  obtain ⟨rest, hmatch | ⟨hstray, hlength, hnone⟩⟩ := occurs_of_mem_pieces hp
  · rcases hmatch.newline with h | ⟨rfl, rfl⟩ | h
    · exact .inl h
    · exact .inr (.inl rfl)
    · exact .inr (.inr h)
  · -- A newline is a blank, so it is no stray character.
    obtain ⟨c, rfl⟩ := List.length_eq_one_iff.mp hlength
    refine .inl fun hmem => ?_
    obtain rfl := List.mem_singleton.mp hmem
    exact hnone .blank ['\n'] rest rfl ⟨'\n', rfl, by decide⟩

/-! ## The text read up to a piece -/

/-- Pieces with the text read up to the end of each, if `before` is read at first. -/
def withEnds (before : List Char) : List Piece → List (Piece × List Char)
  | [] => []
  | p :: ps => (p, before ++ p.text) :: withEnds (before ++ p.text) ps

/-- What is read up to a piece is the text of the pieces before it and its own. -/
theorem mem_withEnds_iff {before read : List Char} {p : Piece} {ps : List Piece} :
    (p, read) ∈ withEnds before ps ↔ ∃ qs rs, ps = qs ++ p :: rs ∧
      read = before ++ (qs ++ [p]).flatMap (·.text) := by
  induction ps generalizing before with
  | nil => simp [withEnds]
  | cons q ps ih =>
    rw [withEnds, List.mem_cons, ih]
    constructor
    · rintro (heq | ⟨qs, rs, rfl, rfl⟩)
      · obtain ⟨rfl, rfl⟩ := Prod.mk.inj heq
        exact ⟨[], ps, rfl, by simp⟩
      · exact ⟨q :: qs, rs, rfl, by simp⟩
    · rintro ⟨qs, rs, hps, rfl⟩
      cases qs with
      | nil =>
        obtain ⟨rfl, rfl⟩ := List.cons.inj hps
        exact .inl (by simp)
      | cons _ qs =>
        obtain ⟨rfl, rfl⟩ := List.cons.inj hps
        exact .inr ⟨qs, rs, rfl, by simp⟩

theorem pairwise_withEnds (before : List Char) (ps : List Piece) :
    (withEnds before ps).Pairwise (·.2 <+: ·.2) := by
  induction ps generalizing before with
  | nil => exact .nil
  | cons p ps ih =>
    refine .cons ?_ (ih _)
    rintro ⟨q, read⟩ hmem
    obtain ⟨qs, rs, -, rfl⟩ := mem_withEnds_iff.mp hmem
    exact List.prefix_append ..

/-- A string that is not closed goes up to the end of the text. -/
theorem read_of_unclosed {before read : List Char} {p : Piece} {cs : List Char}
    (h : (p, read) ∈ withEnds before (pieces cs)) (hp : p.shape = .unclosed) :
    read = before ++ cs := by
  fun_induction pieces cs generalizing before with
  | case1 => cases h
  | case2 c cs ih =>
    rw [← text_first c cs, ← List.append_assoc]
    rcases List.mem_cons.mp h with heq | h
    · obtain ⟨rfl, rfl⟩ := Prod.mk.inj heq
      rw [rest_eq_nil_of_unclosed hp, List.append_nil]
    · exact ih h

theorem line_of_item?_eq_some {p : Piece} {line : Nat} {i : ScanItem} (h : p.item? line = some i) :
    i.line = line := by
  unfold item? at h
  split at h <;> cases h <;> rfl

end Piece

/-! ## Items -/

/-- Each item stands on the line that is reached at the end of its piece. -/
theorem Scan.lines_ofPieces (first : Nat) (before : List Char) (ps : List Piece) :
    List.Forall₂ (fun entry i => entry.1.Gives i ∧ i.line = first + entry.2.count '\n')
      ((Piece.withEnds before ps).filter (!·.1.isSkipped))
      (ofPieces (first + before.count '\n') ps).items := by
  induction ps generalizing before with
  | nil => exact .nil
  | cons p ps ih =>
    have hline : first + before.count '\n' + p.newlines = first + (before ++ p.text).count '\n' := by
      rw [List.count_append, Piece.newlines, Nat.add_assoc]
    rw [ofPieces, hline, Piece.withEnds]
    cases h : p.item? (first + (before ++ p.text).count '\n') with
    | none => simpa [Piece.isSkipped_of_item?_eq_none h] using ih (before ++ p.text)
    | some i =>
      obtain ⟨hskipped, hgives⟩ := Piece.gives_of_item?_eq_some h
      have hitem := And.intro hgives (Piece.line_of_item?_eq_some h)
      rw [List.filter_cons_of_pos (by simpa using hskipped)]
      exact .cons hitem (ih (before ++ p.text))

/-- Lines never go back along the scan. -/
theorem pairwise_line_scan (source : String) :
    ((scan source).items.map (·.line) ++ [(scan source).endLine]).Pairwise (· ≤ ·) := by
  let entries := (Piece.withEnds [] (pieces source.toList)).filter (!·.1.isSkipped)
  have hlines : entries.map (1 + ·.2.count '\n') = (scan source).items.map (·.line) := by
    rw [← List.forall₂_eq_eq_eq, List.forall₂_map_left_iff, List.forall₂_map_right_iff,
      scan_eq_ofPieces]
    exact (Scan.lines_ofPieces 1 [] _).imp fun _ _ h => h.2.symm
  have hend : (scan source).endLine = 1 + source.toList.count '\n' := by
    rw [scan_eq_ofPieces, Scan.endLine_ofPieces, flatMap_text_pieces]
  have hprefixes : entries.Pairwise (·.2 <+: ·.2) := (Piece.pairwise_withEnds _ _).filter _
  rw [← hlines, hend, List.pairwise_append]
  refine ⟨List.pairwise_map.mpr (hprefixes.imp fun h => ?_), List.pairwise_singleton _ _, ?_⟩
  · exact Nat.add_le_add_left (h.sublist.count_le _) 1
  · intro line hline last hlast
    obtain ⟨⟨p, read⟩, hmem, rfl⟩ := List.mem_map.mp hline
    obtain rfl := List.mem_singleton.mp hlast
    -- What is read up to a piece is a part of the whole text.
    obtain ⟨qs, rs, hps, rfl⟩ := Piece.mem_withEnds_iff.mp (List.mem_filter.mp hmem).1
    have htext : (qs ++ [p]).flatMap (·.text) ++ rs.flatMap (·.text) = source.toList := by
      rw [← List.flatMap_append, List.append_assoc, List.singleton_append, ← hps,
        flatMap_text_pieces]
    rw [← htext]
    exact Nat.add_le_add_left ((List.sublist_append_left ..).count_le _) 1

/-- Every item stands on the line that is reached when its piece ends, a string that is not closed
and the end of the source on the last one. Lines never go back along the scan. They only change in
newlines that stand alone and in strings. -/
theorem scan_lines_exact (source : String) :
    ∃ ps, (∀ qs, Cut source.toList qs ↔ qs = ps) ∧
      List.Forall₂ (fun entry i => entry.1.Gives i ∧ i.line = 1 + entry.2.count '\n' ∧
          (entry.1.shape = .unclosed → entry.2 = source.toList))
        ((Piece.withEnds [] ps).filter (!·.1.isSkipped)) (scan source).items ∧
      (scan source).endLine = 1 + source.toList.count '\n' ∧
      ((scan source).items.map (·.line) ++ [(scan source).endLine]).Pairwise (· ≤ ·) ∧
      ∀ p ∈ ps, p.newlines = 0 ∨ p = ⟨.blank, ['\n']⟩ ∨ (∃ contents, p.shape = .string contents) ∨
        p.shape = .unclosed := by
  have hunclosed : ∀ entry ∈ (Piece.withEnds [] (pieces source.toList)).filter (!·.1.isSkipped),
      entry.1.shape = .unclosed → entry.2 = source.toList :=
    fun entry hmem => Piece.read_of_unclosed (List.mem_filter.mp hmem).1
  refine ⟨pieces source.toList, fun qs => cut_iff, ?_, ?_, pairwise_line_scan source,
    fun p hp => Piece.newlines_eq_zero_or hp⟩
  · rw [scan_eq_ofPieces]
    refine ((List.forall₂_and_left _ _).mpr ⟨hunclosed, Scan.lines_ofPieces 1 [] _⟩).imp ?_
    rintro entry i ⟨hend, hgives, hline⟩
    exact ⟨hgives, hline, hend⟩
  · rw [scan_eq_ofPieces, Scan.endLine_ofPieces, flatMap_text_pieces]

end LoxLang
