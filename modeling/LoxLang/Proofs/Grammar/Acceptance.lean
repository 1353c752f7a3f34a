import LoxLang.Proofs.Grammar.Completeness.Statement
import LoxLang.Proofs.Grammar.Soundness.Statement

/-!
# What is accepted

A source is read without a fault if and only if the grammar derives its tokens, and the result is
then the tree of the derivation, up to sites.

## Main results

* `readExpression_inverts_yield`: reading an expression is the inverse of spelling out its tree.
* `readProgram_accepts_grammar`: the programs that are read are the ones that the grammar derives.
-/

namespace LoxLang.Grammar

theorem Reading.of_result_eq_ok {α : Type} {reader : Reader α} {tokens : List Token}
    {endLine : Nat} {first : Site} {a : α} :
    (Reading.of reader tokens endLine first).result = .ok a ↔
      ∃ c, reader ⟨tokens, endLine, first, []⟩ = .ok a c ∧ c.reported = [] := by
  unfold Reading.of
  cases reader ⟨tokens, endLine, first, []⟩ with
  | error d c => simp
  | ok b c =>
    dsimp only
    split
    · next hquiet =>
      have hquiet := List.isEmpty_iff.mp hquiet
      constructor
      · rintro ⟨⟩
        exact ⟨c, rfl, hquiet⟩
      · rintro ⟨_, ⟨⟩, -⟩
        rfl
    · next hloud =>
      constructor
      · exact nofun
      · rintro ⟨_, ⟨⟩, hquiet⟩
        exact absurd (List.isEmpty_iff.mpr hquiet) hloud

/-- A reader that yields a result reads a source to it. -/
theorem Reading.of_yields {α : Type} {reader : Reader α} {tokens l : List Token}
    {endLine : Nat} {first : Site} {good : α → Prop}
    (h : reader.Yields ⟨tokens, endLine, first, []⟩ l good) :
    ∃ a, (Reading.of reader tokens endLine first).result = .ok a ∧ good a := by
  obtain ⟨_, c, he, ⟨a, rfl, ha⟩, -, hquiet⟩ := h
  exact ⟨a, Reading.of_result_eq_ok.mpr ⟨c, he, hquiet⟩, ha⟩

variable {tokens : List Token} {endLine : Nat} {first : Site}

theorem derives_of_readExpression {e : Expr}
    (h : (readExpression tokens endLine first).result = .ok e) :
    Derives (.level .assignment) tokens e := by
  have hmeets : Reader.wholeExpression.Meets ⟨tokens, endLine, first, []⟩ fun e c' =>
      c'.reported = [] → Derives (.level .assignment) tokens e := by
    unfold Reader.wholeExpression
    refine .bind ((Reader.meets_expression_took _).mono fun e c' _ he => .bind (.isAtEnd ?_))
    split
    · next hend =>
      refine .pure fun hquiet => ?_
      obtain ⟨ts, hts, hd⟩ := he hquiet
      have hts : tokens = ts := by simpa [List.isEmpty_iff.mp hend] using hts
      exact hts ▸ hd
    · exact .fail _
  obtain ⟨c, hpost, hquiet, -⟩ := (Reading.of_meets hmeets).2 e h
  exact hpost hquiet

theorem readExpression_of_derives {e : Expr} (h : Derives (.level .assignment) tokens e)
    (endLine : Nat) (first : Site) :
    ∃ e', (readExpression tokens endLine first).result = .ok e' ∧ e'.bare = e.bare := by
  refine Reading.of_yields (l := []) (.bind (h.yields (by simp) (Level.ends_nil _))
    fun e' c' he hrest => .isAtEnd hrest (.pure he hrest))

/-- Trees that differ only in their sites are derived from the same tokens. -/
theorem Derives.of_bare_eq {e e' : Expr} (h : Derives (.level .assignment) tokens e)
    (he : e.bare = e'.bare) : Derives (.level .assignment) tokens e' := by
  have he : e.rename .unsited = e'.rename .unsited := he
  rw [derives_iff, ← Expr.canonical_rename .unsited, ← Expr.yield_unsited] at h ⊢
  rwa [← he]

/-- The expressions that tokens are read to, up to sites, are the canonical trees whose yield they
spell, and there is at most one. -/
theorem readExpression_inverts_yield (tokens : List Token) (endLine : Nat) (first : Site) :
    (∀ e : Expr, (∃ e', (readExpression tokens endLine first).result = .ok e' ∧ e'.bare = e.bare) ↔
      e.Canonical ∧ Spells tokens e.yield) ∧
    ∀ e e' : Expr, e.Canonical ∧ Spells tokens e.yield → e'.Canonical ∧ Spells tokens e'.yield →
      e.bare = e'.bare := by
  simp only [← derives_iff]
  refine ⟨fun e => ⟨?_, fun h => readExpression_of_derives h endLine first⟩, fun e e' h h' => ?_⟩
  · rintro ⟨e', hread, he⟩
    exact (derives_of_readExpression hread).of_bare_eq he
  · obtain ⟨e₁, hread, he⟩ := readExpression_of_derives h endLine first
    obtain ⟨e₂, hread', he'⟩ := readExpression_of_derives h' endLine first
    obtain rfl : e₁ = e₂ := Except.ok.inj (hread.symm.trans hread')
    exact he.symm.trans he'

theorem composes_of_readProgram {p : Program}
    (h : (readProgram tokens endLine first).result = .ok p) : Composes .declarations tokens p := by
  obtain ⟨c, hread, hquiet⟩ := Reading.of_result_eq_ok.mp h
  have hread : Reader.declarations (tokens.length + 1) ⟨tokens, endLine, first, []⟩ = .ok p c :=
    hread
  -- There is fuel for every token, so that reading ends with the source.
  have hend : c.rest = [] := (Reader.declarations_cursor (t := .here) (by simp [Passage.here])
    hread hquiet (Nat.lt_succ_self _)).1
  have hmeets := Reader.meets_declarations_took (tokens.length + 1) ⟨tokens, endLine, first, []⟩
  rw [Reader.Meets, hread] at hmeets
  obtain ⟨ts, hts, hp⟩ := hmeets.2 hquiet
  have hts : tokens = ts := by simpa [hend] using hts
  exact hts ▸ hp

theorem readProgram_of_composes {p : Program} (h : Composes .declarations tokens p)
    (endLine : Nat) (first : Site) :
    ∃ p', (readProgram tokens endLine first).result = .ok p' ∧
      p'.map Stmt.bare = p.map Stmt.bare := by
  refine Reading.of_yields (l := []) ?_
  exact (h.accepts.2 (tokens.length + 1) _ rfl (Nat.lt_succ_self _)).congr rfl rfl

theorem Reading.of_result_ne_error_nil {α : Type} (reader : Reader α) (tokens : List Token)
    (endLine : Nat) (first : Site) :
    (Reading.of reader tokens endLine first).result ≠ .error [] := by
  unfold Reading.of
  cases reader ⟨tokens, endLine, first, []⟩ with
  | error d c => simp
  | ok a c =>
    dsimp only
    split
    · exact nofun
    · next hloud =>
      intro h
      exact hloud (List.isEmpty_iff.mpr (Except.error.inj h))

/-- Tokens are read as a program if and only if the grammar derives them. The program is then the
tree of the derivation, which is unique up to sites, and otherwise something is reported. -/
theorem readProgram_accepts_grammar (tokens : List Token) (endLine : Nat) (first : Site) :
    ((∃ p, (readProgram tokens endLine first).result = .ok p) ↔
      ∃ p, Composes .declarations tokens p) ∧
    (∀ p, (readProgram tokens endLine first).result = .ok p → Composes .declarations tokens p ∧
      ∀ q, Composes .declarations tokens q → q.map Stmt.bare = p.map Stmt.bare) ∧
    ∀ ds, (readProgram tokens endLine first).result = .error ds → ds ≠ [] := by
  refine ⟨⟨?_, ?_⟩, fun p hp => ⟨composes_of_readProgram hp, fun q hq => ?_⟩, ?_⟩
  · rintro ⟨p, hp⟩
    exact ⟨p, composes_of_readProgram hp⟩
  · rintro ⟨p, hp⟩
    obtain ⟨p', hread, -⟩ := readProgram_of_composes hp endLine first
    exact ⟨p', hread⟩
  · obtain ⟨p', hread, hbare⟩ := readProgram_of_composes hq endLine first
    obtain rfl : p = p' := Except.ok.inj (hp.symm.trans hread)
    exact hbare.symm
  · rintro ds hds rfl
    exact Reading.of_result_ne_error_nil _ _ _ _ hds

end LoxLang.Grammar
