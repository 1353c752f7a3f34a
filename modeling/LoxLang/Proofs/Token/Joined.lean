import LoxLang.Proofs.Token.Longest

/-!
# Joined texts

No piece goes on over a newline, unless it is a string that is still open. So the scan of a text, a
newline and another text is made of the two scans. Each token is found again in its own lexeme, and
spaces keep lexemes apart: the tokens of a text can be read from their lexemes alone.

## Main definitions

* `Piece.isToken`: the pieces that become tokens.
* `Token.content`: a token without its line.

## Main results

* `pieces_intercalate`: the pieces of texts with blanks between them.
* `scan_newline_iff`: the texts that can be scanned apart from what follows on the next line.
* `rescan_lexemes`: the tokens that the lexemes of a text give.
-/

namespace LoxLang

/-! ## Lines -/

/-- After a string that is not closed there is nothing. -/
theorem Piece.rest_eq_nil_of_unclosed {c : Char} {cs : List Char}
    (h : (first c cs).1.shape = .unclosed) : (first c cs).2 = [] := by
  rcases occurs_first c cs with hmatch | ⟨hstray, -⟩
  · rw [h] at hmatch
    obtain ⟨contents, -, -, hrest⟩ := hmatch
    exact hrest
  · rw [h] at hstray
    cases hstray

/-- A string that is not closed is reported on the last line. -/
theorem Scan.line_of_unterminatedString {line l : Nat} {cs : List Char}
    (h : .fault .unterminatedString l ∈ (ofPieces line (pieces cs)).items) :
    l = (ofPieces line (pieces cs)).endLine := by
  fun_induction pieces cs generalizing line with
  | case1 => cases h
  | case2 c cs ih =>
    rw [ofPieces] at h ⊢
    by_cases hshape : (Piece.first c cs).1.shape = .unclosed
    · have hrest : pieces (Piece.first c cs).2 = [] := by
        rw [Piece.rest_eq_nil_of_unclosed hshape, pieces]
      simp only [Piece.item?, hshape, hrest, ofPieces, List.mem_singleton] at h ⊢
      cases h
      rfl
    · cases hi : (Piece.first c cs).1.item? (line + (Piece.first c cs).1.newlines) with
      | none =>
        simp only [hi] at h ⊢
        exact ih h
      | some i =>
        simp only [hi] at h ⊢
        rcases List.mem_cons.mp h with rfl | h
        · obtain ⟨-, ⟨-, hunclosed⟩ | ⟨hfault, -⟩⟩ := Piece.gives_of_item?_eq_some hi
          · exact absurd hunclosed hshape
          · cases hfault
        · exact ih h

/-- A text in which no string is left open is scanned apart from what follows on the next line, and
no other text is: the items of both texts stand one after the other, those of the second text as
many lines later as the first one has. -/
theorem scan_newline_iff (first : String) :
    (∀ line, .fault .unterminatedString line ∉ (scan first).items) ↔
      ∀ second : String,
        let k := first.toList.count '\n' + 1
        scan (first ++ "\n" ++ second) =
          ⟨(scan first).items ++ (scan second).items.map (·.rename (.ofLine (· + k))),
            (scan second).endLine + k⟩ := by
  constructor
  · intro h second
    rw [scan_eq_ofPieces first] at h
    exact scan_append (Scan.shape_ne_unclosed h)
  · intro h line hmem
    -- With nothing on the next line, the string is still open there.
    have hmem' : .fault .unterminatedString line ∈ (scan (first ++ "\n" ++ "")).items := by
      rw [h ""]
      exact List.mem_append_left _ hmem
    rw [scan_eq_ofPieces] at hmem hmem'
    have hline := Scan.line_of_unterminatedString hmem
    have hline' := Scan.line_of_unterminatedString hmem'
    simp only [Scan.endLine_ofPieces, flatMap_text_pieces] at hline hline'
    simp at hline'
    omega

/-! ## Texts with blanks between them -/

theorem pieces_intercalate {x : Char} (hx : isBlank x) {texts : List (List Char)}
    (h : ∀ cs ∈ texts, ∀ p ∈ pieces cs, p.EndsBefore x) :
    pieces ([x].intercalate texts) = [⟨.blank, [x]⟩].intercalate (texts.map pieces) := by
  induction texts with
  | nil => rw [List.intercalate_nil, pieces]; rfl
  | cons cs texts ih =>
    obtain ⟨hcs, htexts⟩ := List.forall_mem_cons.mp h
    cases texts with
    | nil => simp
    | cons ds texts =>
      rw [List.intercalate_cons_cons, List.append_assoc, List.singleton_append,
        pieces_append hx hcs, ih htexts]
      simp [List.intercalate_cons_cons]

/-- What is found in lists with separators between them, if nothing is found in the separator. -/
theorem filterMap_intercalate {α β : Type} {f : α → Option β} {x : α} (h : f x = none)
    (ls : List (List α)) : ([x].intercalate ls).filterMap f = ls.flatten.filterMap f := by
  induction ls with
  | nil => rfl
  | cons l ls ih =>
    cases ls with
    | nil => simp
    | cons l' ls =>
      rw [List.intercalate_cons_cons, List.filterMap_append, List.filterMap_append, ih]
      simp [h]

/-! ## Lexemes -/

/-- A token without its line. -/
def Token.content (t : Token) : Token.Kind × String := (t.kind, t.lexeme)

namespace Piece

/-- The token that a piece becomes, without its line. -/
def content? (p : Piece) : Option (Token.Kind × String) :=
  match p.item? 0 with
  | some (.token t) => some t.content
  | _ => none

def isToken (p : Piece) : Bool := p.content?.isSome

/-- The fault that a piece becomes. -/
def fault? (p : Piece) : Option LexicalFault :=
  match p.item? 0 with
  | some (.fault f _) => some f
  | _ => none

theorem snd_eq_of_content? {p : Piece} {content : Token.Kind × String}
    (h : p.content? = some content) : content.2 = .ofList p.text := by
  obtain ⟨shape, text⟩ := p
  cases shape with
  | string _ | number _ _ | word | mark _ =>
    cases h
    rfl
  | blank | comment | unclosed | stray => cases h

theorem endsBefore_of_isToken {p : Piece} (h : p.isToken) (x : Char) : p.EndsBefore x := by
  obtain ⟨shape, text⟩ := p
  constructor
  · rintro rfl
    cases h
  · rintro rfl
    cases h

theorem fault?_of_isToken {p : Piece} (h : p.isToken) : p.fault? = none := by
  obtain ⟨shape, text⟩ := p
  cases shape with
  | string _ | number _ _ | word | mark _ => rfl
  | blank | comment | unclosed | stray => cases h

/-- Whether a text is that of a token does not depend on what comes after it. -/
theorem Shape.Matches.alone {shape : Shape} {text rest : List Char} (h : shape.Matches text rest)
    (ht : Piece.isToken ⟨shape, text⟩) : shape.Matches text [] := by
  cases shape with
  | string _ | number _ _ | word | mark _ => exact h
  | blank | comment | unclosed | stray => cases ht

/-- A text that has a shape by itself is one piece. -/
theorem Shape.Matches.pieces_eq {shape : Shape} {text : List Char} (h : shape.Matches text []) :
    pieces text = [⟨shape, text⟩] := by
  obtain ⟨c, ds, rfl⟩ := List.exists_cons_of_ne_nil h.ne_nil
  have hfrom := h.firstFrom (List.append_nil (c :: ds))
  -- The first piece cannot be longer than the text.
  have hlength := congrArg List.length (text_first c ds)
  rw [List.length_append] at hlength
  have hfirst := hfrom.resolve_right (by dsimp only; omega)
  rw [pieces, hfirst, pieces]

theorem occurs_of_mem_pieces {p : Piece} {cs : List Char} (h : p ∈ pieces cs) :
    ∃ rest, p.Occurs rest := by
  fun_induction pieces cs with
  | case1 => cases h
  | case2 c cs ih =>
    rcases List.mem_cons.mp h with rfl | h
    · exact ⟨_, occurs_first c cs⟩
    · exact ih h

/-- A token is found again in its lexeme alone. -/
theorem pieces_text {p : Piece} {cs : List Char} (hp : p ∈ pieces cs) (h : p.isToken) :
    pieces p.text = [p] := by
  obtain ⟨shape, text⟩ := p
  obtain ⟨rest, hmatch | ⟨rfl, -⟩⟩ := occurs_of_mem_pieces hp
  · exact (hmatch.alone h).pieces_eq
  · cases h

end Piece

namespace Scan

theorem contents_ofPieces (line : Nat) (ps : List Piece) :
    (ofPieces line ps).tokens.map (·.content) = ps.filterMap (·.content?) := by
  induction ps generalizing line with
  | nil => rfl
  | cons p ps ih =>
    have hitem := Piece.item?_line p 0 (line + p.newlines)
    rw [Nat.zero_add] at hitem
    rw [ofPieces, hitem, List.filterMap_cons, ← ih (line + p.newlines), Piece.content?]
    rcases p.item? 0 with _ | _ | _ <;> rfl

theorem faults_ofPieces (line : Nat) (ps : List Piece) :
    (ofPieces line ps).faults.map (·.1) = ps.filterMap (·.fault?) := by
  induction ps generalizing line with
  | nil => rfl
  | cons p ps ih =>
    have hitem := Piece.item?_line p 0 (line + p.newlines)
    rw [Nat.zero_add] at hitem
    rw [ofPieces, hitem, List.filterMap_cons, ← ih (line + p.newlines), Piece.fault?]
    rcases p.item? 0 with _ | _ | _ <;> rfl

end Scan

theorem Piece.texts_of_contents (ps : List Piece) :
    (ps.filterMap (·.content?)).map (·.2.toList) = (ps.filter (·.isToken)).map (·.text) := by
  induction ps with
  | nil => rfl
  | cons p ps ih =>
    cases hp : p.content? with
    | none =>
      have htoken : ¬ p.isToken := by simp [isToken, hp]
      rw [List.filterMap_cons_none hp, List.filter_cons_of_neg htoken, ih]
    | some content =>
      have htoken : p.isToken := by simp [isToken, hp]
      rw [List.filterMap_cons_some hp, List.filter_cons_of_pos htoken, List.map_cons, List.map_cons,
        ih, snd_eq_of_content? hp, String.toList_ofList]

theorem lexemes_scan (source : String) : (scan source).tokens.map (·.lexeme.toList) =
    ((pieces source.toList).filter (·.isToken)).map (·.text) := by
  calc (scan source).tokens.map (·.lexeme.toList)
    _ = ((scan source).tokens.map (·.content)).map (·.2.toList) := by rw [List.map_map]; rfl
    _ = _ := by rw [scan_eq_ofPieces, Scan.contents_ofPieces, Piece.texts_of_contents]

/-- Texts whose pieces are tokens, with spaces between them. -/
theorem scan_spaced {texts : List String} {ps : List Piece}
    (htexts : (texts.map (pieces ·.toList)).flatten = ps) (hps : ∀ p ∈ ps, p.isToken) :
    (scan (" ".intercalate texts)).faults = [] ∧
      (scan (" ".intercalate texts)).tokens.map (·.content) = ps.filterMap (·.content?) := by
  have hends : ∀ cs ∈ texts.map String.toList, ∀ p ∈ pieces cs, p.EndsBefore ' ' := by
    intro cs hcs p hp
    obtain ⟨text, htext, rfl⟩ := List.mem_map.mp hcs
    have hmem : p ∈ ps := htexts ▸ List.mem_flatten.mpr ⟨_, List.mem_map_of_mem htext, hp⟩
    exact Piece.endsBefore_of_isToken (hps p hmem) ' '
  have hpieces : pieces (" ".intercalate texts).toList =
      [⟨.blank, [' ']⟩].intercalate (texts.map (pieces ·.toList)) := by
    rw [String.toList_intercalate]
    exact (pieces_intercalate rfl hends).trans (by rw [List.map_map]; rfl)
  constructor
  · have hfaults : (scan (" ".intercalate texts)).faults.map (·.1) = [] := by
      rw [scan_eq_ofPieces, Scan.faults_ofPieces, hpieces, filterMap_intercalate rfl, htexts]
      exact List.filterMap_eq_nil_iff.mpr fun p hp => Piece.fault?_of_isToken (hps p hp)
    exact List.map_eq_nil_iff.mp hfaults
  · rw [scan_eq_ofPieces, Scan.contents_ofPieces, hpieces, filterMap_intercalate rfl, htexts]

/-- The lexemes of a text, with spaces between them, give the tokens of the text and no fault. The
end of the text may be counted as a token with an empty lexeme. -/
theorem rescan_lexemes (source : String) (ending : Bool) :
    let lexemes := (scan source).tokens.map (·.lexeme)
    let text := " ".intercalate (lexemes ++ if ending then [""] else [])
    (scan text).faults = [] ∧
      (scan text).tokens.map (·.content) = (scan source).tokens.map (·.content) := by
  intro lexemes text
  let ps := (pieces source.toList).filter (·.isToken)
  have htoken : ∀ p ∈ ps, p.isToken := fun p hp => (List.mem_filter.mp hp).2
  have hcontents : ps.filterMap (·.content?) = (scan source).tokens.map (·.content) := by
    rw [scan_eq_ofPieces, Scan.contents_ofPieces, List.filterMap_filter]
    refine List.filterMap_congr fun p _ => ?_
    cases h : p.content? <;> simp [Piece.isToken, h]
  have hpieces : lexemes.map (pieces ·.toList) = ps.map ([·]) := by
    have hlexemes : lexemes.map (pieces ·.toList) = (ps.map (·.text)).map pieces := by
      rw [← lexemes_scan, List.map_map, List.map_map]
      rfl
    rw [hlexemes, List.map_map]
    exact List.map_congr_left fun p hp =>
      Piece.pieces_text (List.mem_filter.mp hp).1 (htoken p hp)
  have hflatten : (ps.map ([·])).flatten = ps := by
    rw [← List.flatMap_def, List.flatMap_singleton']
  rw [← hcontents]
  refine scan_spaced ?_ htoken
  rw [List.map_append, List.flatten_append, hpieces, hflatten]
  cases ending <;> simp [pieces]

end LoxLang
