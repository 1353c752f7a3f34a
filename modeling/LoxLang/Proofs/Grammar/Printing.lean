import LoxLang.Proofs.Grammar.Acceptance

/-!
# An expression that is printed

The tokens of an expression, between the word `print` and a semicolon, are a program of one statement.
The expression in it is the one that is read when the tokens stand alone, with the same sites.

## Main results

* `readProgram_print`: what is read of such tokens.
* `analyse_print`: at the top level there is nothing to find in an expression without `this` and
  `super`.
-/

namespace LoxLang.Grammar

variable {tokens : List Token} {endLine : Nat} {first next : Site} {e : Expr}

theorem readExpression_eq_ok (h : readExpression tokens endLine first = ⟨.ok e, next⟩) :
    ∃ c, Reader.expression ⟨tokens, endLine, first, []⟩ = .ok e c ∧ c.rest = [] ∧ c.reported = [] ∧
      c.nextSite = next := by
  have hresult : (readExpression tokens endLine first).result = .ok e := congrArg (·.result) h
  obtain ⟨c, hread, hquiet⟩ := Reading.of_result_eq_ok.mp hresult
  have hnext : (readExpression tokens endLine first).nextSite = c.nextSite := by
    simp only [readExpression, Reading.of, hread]
  simp only [Reader.wholeExpression, Reader.bind_apply, Reader.isAtEnd] at hread
  cases he : Reader.expression ⟨tokens, endLine, first, []⟩ with
  | error d c₁ => simp [he] at hread
  | ok e₁ c₁ =>
    simp only [he] at hread
    cases hend : c₁.rest with
    | nil =>
      simp only [hend, List.isEmpty_nil, if_true] at hread
      cases hread
      exact ⟨c, rfl, hend, hquiet, hnext.symm.trans (congrArg (·.nextSite) h)⟩
    | cons token l =>
      simp only [hend, List.isEmpty_cons, Bool.false_eq_true, if_false] at hread
      cases hread

/-- A semicolon after an expression changes nothing. -/
theorem expression_before_semicolon (h : readExpression tokens endLine first = ⟨.ok e, next⟩)
    {sign : Token} (hsign : sign.kind = .mark .semicolon) (last : Nat) :
    Reader.expression ⟨tokens ++ [sign], last, first, []⟩ = .ok e ⟨[sign], last, next, []⟩ := by
  obtain ⟨⟨rest, line, site, reported⟩, hread, rfl, rfl, rfl⟩ := readExpression_eq_ok h
  let t : Passage := ⟨0, id, [sign], fun _ => last⟩
  have hstops : t.Stops := ⟨sign, rfl, hsign⟩
  have hmap : tokens.map (·.rename t.names) = tokens := List.map_id _
  have hrename : e.rename t.names = e := e.rename_id
  have htracks := (Reader.stopping_expression (t := t)).ok hread (.inr ⟨rfl, .inr hstops⟩)
  rw [hrename] at htracks
  simpa [Passage.cursor, hmap, t] using htracks

section Statements

variable {word sign : Token}

theorem printStatement_before_end (h : readExpression tokens endLine first = ⟨.ok e, next⟩)
    (hsign : sign.kind = .mark .semicolon) (last : Nat) :
    Reader.printStatement ⟨tokens ++ [sign], last, first, []⟩ =
      .ok (.print e) ⟨[], last, next, []⟩ := by
  simp only [Reader.printStatement, Reader.bind_apply, expression_before_semicolon h hsign last]
  simp only [Reader.expectMark, Reader.bind_apply, Reader.takeMark?, Reader.take?, Reader.takeIf?,
    hsign, if_true]
  rfl

theorem declaration_print (h : readExpression tokens endLine first = ⟨.ok e, next⟩)
    (hword : word.kind = .keyword .print) (hsign : sign.kind = .mark .semicolon) (last n : Nat) :
    Reader.declaration (n + 2) ⟨word :: (tokens ++ [sign]), last, first, []⟩ =
      .ok (.print e) ⟨[], last, next, []⟩ := by
  have hstatement : Reader.statement (n + 1) ⟨word :: (tokens ++ [sign]), last, first, []⟩ =
      .ok (.print e) ⟨[], last, next, []⟩ := by
    simp [Reader.statement, Reader.bind_apply, Reader.takeKeyword?, Reader.take?, Reader.takeIf?,
      hword, printStatement_before_end h hsign]
  simp [Reader.declaration, Reader.bind_apply, Reader.takeKeyword?, Reader.take?, Reader.takeIf?,
    hword, hstatement]

/-- The program is the one statement that prints the expression. -/
theorem readProgram_print (h : readExpression tokens endLine first = ⟨.ok e, next⟩)
    (hword : word.kind = .keyword .print) (hsign : sign.kind = .mark .semicolon) (last : Nat) :
    readProgram (word :: tokens ++ [sign]) last first = ⟨.ok [.print e], next⟩ := by
  let start : Cursor := ⟨word :: (tokens ++ [sign]), last, first, []⟩
  obtain ⟨n, hn⟩ : ∃ n, start.depth = n + 2 :=
    Nat.exists_eq_add_of_le' (by simp [Cursor.depth, start]; omega)
  have hfirst : Reader.recovering (fun c => Reader.declaration c.depth c) start =
      .ok (some (.print e)) ⟨[], last, next, []⟩ := by
    simp only [Reader.recovering, hn, start, declaration_print h hword hsign]
  have hdeclarations : ∀ m, Reader.declarations (m + 2) start =
      .ok [.print e] ⟨[], last, next, []⟩ := by
    intro m
    simp only [Reader.declarations, Reader.bind_apply, Reader.isAtEnd, hfirst, start,
      List.isEmpty_cons, List.isEmpty_nil, Bool.false_eq_true, if_false, if_true]
    rfl
  have hprogram : Reader.program start = .ok [.print e] ⟨[], last, next, []⟩ := by
    simp only [Reader.program, start, List.length_cons, List.length_append]
    exact hdeclarations _
  simp [readProgram, Reading.of, start, hprogram]

end Statements

end LoxLang.Grammar

namespace LoxLang

open Scoping

/-! ## Expressions at the top level -/

/-- The kind of the tokens that a terminal stands for. -/
def Terminal.kind : Terminal → Token.Kind
  | .plain kind | .kept kind _ => kind
  | .name _ => .identifier

theorem Token.Is.kind_eq {t : Token} {p : Terminal} (h : t.Is p) : t.kind = p.kind := by
  cases p with
  | plain kind => exact h
  | kept kind line => exact h.1
  | name n => exact h.1

theorem Spells.map_kind_eq {ts : List Token} {ps : List Terminal} (h : Spells ts ps) :
    ts.map (·.kind) = ps.map (·.kind) := by
  induction h with
  | nil => rfl
  | cons his _ ih => rw [List.map_cons, List.map_cons, his.kind_eq, ih]

/-- A kind of token that has a meaning outside of classes too. -/
def Token.Kind.IsClassless (kind : Token.Kind) : Prop :=
  kind ≠ .keyword .this ∧ kind ≠ .keyword .super

instance : DecidablePred Token.Kind.IsClassless := fun _ => inferInstanceAs (Decidable (_ ∧ _))

mutual

/-- At the top level an expression without `this` and `super` has neither local names nor faults. -/
theorem walkExpr_eq_nil : ∀ e : Expr, (∀ p ∈ e.yield, p.kind.IsClassless) →
    walkExpr .noClass [] none e = []
  | .literal _, _ => rfl
  | .group inner, h => walkExpr_eq_nil inner fun p hp => h p (by simp [Expr.yield, hp])
  | .unary _ _ operand, h => walkExpr_eq_nil operand fun p hp => h p (by simp [Expr.yield, hp])
  | .binary _ _ left right, h | .logical _ _ left right, h => by
    rw [walkExpr, walkExpr_eq_nil left fun p hp => h p (by simp [Expr.yield, hp]),
      walkExpr_eq_nil right fun p hp => h p (by simp [Expr.yield, hp])]
    rfl
  | .variable _ _, _ => rfl
  | .assign _ _ value, h => by
    rw [walkExpr, walkExpr_eq_nil value fun p hp => h p (by simp [Expr.yield, hp])]
    rfl
  | .call callee _ args, h => by
    rw [walkExpr, walkExpr_eq_nil callee fun p hp => h p (by simp [Expr.yield, hp]),
      walkExprs_eq_nil args fun p hp => h p (by simp [Expr.yield, hp])]
    rfl
  | .get object _, h => walkExpr_eq_nil object fun p hp => h p (by simp [Expr.yield, hp])
  | .set object _ value, h => by
    rw [walkExpr, walkExpr_eq_nil object fun p hp => h p (by simp [Expr.yield, hp]),
      walkExpr_eq_nil value fun p hp => h p (by simp [Expr.yield, hp])]
    rfl
  | .this _ line, h => absurd rfl (h (.kept (.keyword .this) line) (by simp [Expr.yield])).1
  | .super _ line _, h => absurd rfl (h (.kept (.keyword .super) line) (by simp [Expr.yield])).2

theorem walkExprs_eq_nil : ∀ es : List Expr, (∀ p ∈ Expr.yieldEach es, p.kind.IsClassless) →
    walkExprs .noClass [] none es = []
  | [], _ => rfl
  | [e], h => by
    rw [walkExprs, walkExpr_eq_nil e h]
    rfl
  | e :: e' :: es, h => by
    rw [walkExprs, walkExpr_eq_nil e fun p hp => h p (by simp [Expr.yieldEach, hp]),
      walkExprs_eq_nil (e' :: es) fun p hp => h p (by simp [Expr.yieldEach, hp])]
    rfl

end

/-- A printed expression without `this` and `super` is accepted, and nothing in it is tied. -/
theorem analyse_print {tokens : List Token} {endLine : Nat} {first : Site} {e : Expr}
    (h : (Grammar.readExpression tokens endLine first).result = .ok e)
    (hwords : ∀ t ∈ tokens, t.kind.IsClassless) : analyse [.print e] = .ok [] := by
  have hspells : Spells tokens e.yield :=
    (Grammar.derives_iff.mp (Grammar.derives_of_readExpression h)).2
  have hleaves : ∀ p ∈ e.yield, p.kind.IsClassless := by
    intro p hp
    have hkind : p.kind ∈ tokens.map (·.kind) := hspells.map_kind_eq ▸ List.mem_map_of_mem hp
    obtain ⟨t, ht, heq⟩ := List.mem_map.mp hkind
    exact heq ▸ hwords t ht
  have hfindings : findings [.print e] = [] := by
    simp [findings, walkStmts, walkStmt, walkExpr_eq_nil e hleaves]
  rw [analyse, hfindings]
  rfl

end LoxLang
