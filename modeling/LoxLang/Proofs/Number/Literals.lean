import LoxLang.Program.Text
import LoxLang.Proofs.Number.Layout
import LoxLang.Proofs.Token.Lines
import LoxLang.Token.Listing
import Mathlib

/-!
# Number literals in listings and in trees

A token listing and a syntax tree show the number of a literal in texts of their own. Both texts are
literals again, and they have the same number, unless the number is past the largest double.

## Main results

* `scan_literal`: a text that is a literal gives one token.
* `exists_read_of_mem_tokens`: a number of the scan was read from digits.
* `scan_of_spells`: a literal whose number is nearest to a finite double gives that double.
-/

namespace LoxLang.Number

open Piece

/-! ## Scanning -/

/-- A text that is a literal gives one token. -/
theorem scan_literal {whole fraction text : List Char}
    (h : (Shape.number whole fraction).Matches text []) :
    scan (.ofList text) = ⟨[.token ⟨.number (read whole fraction), .ofList text, 1⟩], 1⟩ := by
  have hline : Piece.newlines ⟨.number whole fraction, text⟩ = 0 := by
    rcases h.newline with hnot | ⟨hshape, -⟩ | ⟨contents, hshape⟩ | hshape
    · exact newlines_eq_zero_iff.mpr hnot
    · cases hshape
    · cases hshape
    · cases hshape
  rw [scan_eq_ofPieces, String.toList_ofList, h.pieces_eq, Scan.ofPieces, hline]
  rfl

/-- A number of the scan was read from digits. -/
theorem exists_read_of_mem_tokens {source : String} {t : Token} {x : Float}
    (ht : t ∈ (scan source).tokens) (hx : t.kind = .number x) :
    ∃ whole fraction, x = read whole fraction := by
  have hcontent := List.mem_map_of_mem (f := Token.content) ht
  rw [scan_eq_ofPieces, Scan.contents_ofPieces, List.mem_filterMap] at hcontent
  obtain ⟨⟨shape, text⟩, -, hcontent⟩ := hcontent
  have hshape := congrArg (Option.map Prod.fst) hcontent
  rw [Token.content, hx] at hshape
  cases shape with
  | number whole fraction =>
    cases hshape
    exact ⟨whole, fraction, rfl⟩
  | word =>
    -- A word is a keyword or a name.
    have hword : Token.Kind.ofWord (.ofList text) = .number x := Option.some.inj hshape
    unfold Token.Kind.ofWord at hword
    split at hword <;> cases hword
  | string _ | mark _ | blank | comment | unclosed | stray => cases hshape

/-- A literal whose number is nearest to a finite double gives that double. -/
theorem scan_of_spells {text : List Char} {q : ℚ} {i : Nat} (h : Spells text q)
    (hq : IsNearest q i) (hi : i < infinityIndex) :
    scan (.ofList text) = ⟨[.token ⟨.number (ofPlace false i), .ofList text, 1⟩], 1⟩ := by
  obtain ⟨whole, fraction, hmatch, rfl⟩ := h
  rw [scan_literal hmatch, read_of_isNearest hq hi]

/-! ## The texts of a magnitude -/

/-- A magnitude without a sign is spelled in a listing. -/
theorem spells_listedChars (i : Nat) :
    ∃ q, Spells (listedChars (.finite false i)) q ∧ IsNearest q i := by
  rw [listedChars]
  split
  · next h =>
    rw [Bool.false_and]
    exact ⟨magnitude i, spells_whole h.1, .refl i⟩
  · exact ⟨_, spells_positional _, isNearest_shortest .up i⟩

theorem spells_treeChars (i : Nat) :
    ∃ q, Spells (treeChars (.finite false i)) q ∧ IsNearest q i := by
  rw [treeChars]
  split
  · next h => exact ⟨magnitude i, spells_whole h, .refl i⟩
  · exact ⟨_, spells_positional _, isNearest_shortest .up i⟩

/-- A finite double that was read has a place and no sign. -/
theorem ofFloat_read {whole fraction : List Char} (h : (read whole fraction).isFinite) :
    ∃ i, Binary64.ofFloat (read whole fraction) = .finite false i ∧
      read whole fraction = ofPlace false i ∧ i < infinityIndex := by
  have hread := read_eq_ofPlace whole fraction
  have hle : nearestIndex (natOfDigits (whole ++ fraction)) (10 ^ fraction.length) ≤ infinityIndex :=
    Nat.min_le_right _ _
  obtain ⟨negative, i, hfloat, hplace, hi, -⟩ := ofFloat_of_isFinite h
  obtain ⟨rfl, -⟩ := ofPlace_inj hi.le hle (hplace.symm.trans hread)
  exact ⟨i, hfloat, hplace, hi⟩

/-- The text of a finite number in a listing and the one in a tree are literals of that number. -/
theorem scan_listed_and_inTree {source : String} {t : Token} {x : Float}
    (ht : t ∈ (scan source).tokens) (hkind : t.kind = .number x) (hx : x.isFinite) :
    let listed := (ListEntry.ofToken t).literal
    let inTree := (Expr.literal (.number x)).text
    scan listed = ⟨[.token ⟨.number x, listed, 1⟩], 1⟩ ∧
      scan inTree = ⟨[.token ⟨.number x, inTree, 1⟩], 1⟩ := by
  obtain ⟨whole, fraction, rfl⟩ := exists_read_of_mem_tokens ht hkind
  obtain ⟨i, hfloat, hplace, hi⟩ := ofFloat_read hx
  have hlisted : (ListEntry.ofToken t).literal = .ofList (listedChars (.finite false i)) := by
    rw [ListEntry.ofToken, ListEntry.literal, hkind, ← hfloat]
    rfl
  have htree : (Expr.literal (.number (read whole fraction))).text =
      .ofList (treeChars (.finite false i)) := by
    rw [← hfloat]
    rfl
  intro listed inTree
  obtain ⟨q, hspells, hq⟩ := spells_listedChars i
  obtain ⟨r, hspells', hr⟩ := spells_treeChars i
  constructor
  · rw [show listed = _ from hlisted, hplace]
    exact scan_of_spells hspells hq hi
  · rw [show inTree = _ from htree, hplace]
    exact scan_of_spells hspells' hr hi

/-- The number `2 ^ 63`, the first that a listing does not mark as whole. -/
theorem scan_listed_and_inTree_at_pow_63 :
    let x := read "9223372036854775807".toList []
    scan "9223372036854776000" = ⟨[.token ⟨.number x, "9223372036854776000", 1⟩], 1⟩ ∧
      scan "9223372036854775808.0" = ⟨[.token ⟨.number x, "9223372036854775808.0", 1⟩], 1⟩ := by
  intro x
  have hmatch : (Shape.number "9223372036854775807".toList []).Matches
      "9223372036854775807".toList [] :=
    ⟨by decide +kernel, List.all_eq_true.mp (by decide +kernel), by decide +kernel⟩
  have hscan := scan_literal hmatch
  have hlisted : listed x = "9223372036854776000" := by decide +kernel
  have htree : inTree x = "9223372036854775808.0" := by decide +kernel
  have hmem : (⟨.number x, "9223372036854775807", 1⟩ : Token) ∈
      (scan (.ofList "9223372036854775807".toList)).tokens := by
    rw [hscan, String.ofList_toList]
    exact List.mem_singleton.mpr rfl
  have h := scan_listed_and_inTree hmem rfl (by decide +kernel)
  simp only [ListEntry.ofToken, ListEntry.literal, Expr.text, Literal.text, hlisted, htree] at h
  exact h

end LoxLang.Number
