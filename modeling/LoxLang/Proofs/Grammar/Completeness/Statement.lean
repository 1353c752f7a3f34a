import LoxLang.Proofs.Grammar.Completeness.Expression
import LoxLang.Proofs.Grammar.Sentence
import LoxLang.Proofs.Grammar.Tracking

/-!
# Programs that are derived are read

One token is enough to tell which rule of the grammar applies, so that the tokens of a derivation
are read to its tree. The token after a statement matters only if it ends with an `if` without an
`else`.

## Main results

* `Composes.accepts`: the rules of the grammar hold for reading.
-/

namespace LoxLang.Grammar

/-! ## Parts of statements -/

section Parts

open Reader

variable {c : Cursor} {ts rest : List Token} {t : Token}

/-- An expression is read up to a mark that cannot continue it. -/
theorem Derives.yields_mark {m : Mark} {e : Expr} (h : Derives (.level .assignment) ts e)
    (hc : c.rest = ts ++ t :: rest) (ht : t.kind = .mark m) (hm : joins? (.mark m) = none) :
    expression.Yields c (t :: rest) (·.bare = e.bare) :=
  h.yields hc (Level.ends_of_joins?_eq_none (ht ▸ hm) _)

theorem yields_expressionUnless {m : Mark} {value : Option Expr}
    (h : Optional (Derives (.level .assignment)) ts value) (hc : c.rest = ts ++ t :: rest)
    (ht : t.kind = .mark m) (hm : joins? (.mark m) = none) (hopens : opens (.mark m) = false)
    (hunary : unaryOperator? (.mark m) = none) :
    (expressionUnless m).Yields c (t :: rest) (·.map Expr.bare = value.map Expr.bare) := by
  unfold expressionUnless
  cases h with
  | none => exact .isNext hc ht (.pure rfl hc)
  | some hd =>
    refine .isNotNext (hc ▸ hd.nextIsNot hopens hunary _) ?_
    refine .bind (hd.yields_mark hc ht hm) fun e' c' he hrest => ?_
    exact .pure (congrArg some he) hrest

theorem Condition.yields {e : Expr} (h : Condition ts e) (hc : c.rest = ts ++ rest)
    (first last : Expected) : (condition first last).Yields c rest (·.bare = e.bare) := by
  obtain ⟨hopening, hd, hclosing⟩ := h
  unfold condition
  refine .expectMark hc hopening ?_
  refine .bind (hd.yields_mark (List.append_assoc ..) hclosing rfl) fun e' c' he hrest => ?_
  exact .expectMark hrest hclosing (.pure he rfl)

theorem ExpressionStatement.yields {s : Stmt} (h : ExpressionStatement ts s)
    (hc : c.rest = ts ++ rest) : expressionStatement.Yields c rest (·.bare = s.bare) := by
  obtain ⟨hd, hsemicolon⟩ := h
  unfold expressionStatement
  rw [List.append_assoc] at hc
  refine .bind (hd.yields_mark hc hsemicolon rfl) fun e' c' he hrest => ?_
  exact .expectMark hrest hsemicolon (.pure (congrArg Stmt.expression he) rfl)

/-- After its first word, a declaration of a variable is read to the end. -/
theorem VarDeclaration.yields {s : Stmt} (h : VarDeclaration ts s) :
    ∃ keyword us, ts = keyword :: us ∧ keyword.kind = .keyword .var ∧ ∀ (c : Cursor) rest,
      c.rest = us ++ rest → varDeclaration.Yields c rest (·.bare = s.bare) := by
  obtain @⟨keyword, name, semicolon, us, init, hkeyword, hname, hinit, hsemicolon⟩ := h
  refine ⟨keyword, _, rfl, hkeyword, fun c rest hc => ?_⟩
  unfold varDeclaration
  refine .expectName hc hname ?_
  cases hinit with
  | none =>
    refine .pass (by simp [hsemicolon]) ?_
    exact .expectMark rfl hsemicolon (.pure rfl rfl)
  | some hinit =>
    obtain ⟨hsign, hd⟩ := hinit
    refine .take rfl hsign ?_
    simp only [pure_bind]
    refine .bind (hd.yields_mark (List.append_assoc ..) hsemicolon rfl) fun e' c' he hrest => ?_
    refine .expectMark hrest hsemicolon (.pure ?_ rfl)
    exact congrArg (Stmt.var name.toName ∘ some) he

theorem parameters_eq_commaList {n count : Nat} (h : count < 255) : parameters (n + 1) count =
    commaList (expectName .parameterName) (parameters n (count + 1)) := by
  rw [parameters_succ, if_neg (show ¬ maxArity ≤ count from Nat.not_le.mpr h)]

theorem Parameters.yields {names : List Name} (h : Parameters ts names) {n count : Nat}
    (hc : c.rest = ts ++ rest) (hn : ts.length ≤ n) (hcount : count + names.length ≤ 255)
    (hcomma : NextIsNot (.mark .comma) rest) : (parameters n count).Yields c rest (· = names) := by
  induction h generalizing n count c with
  | last hname =>
    simp only [List.length_singleton] at hn hcount
    obtain ⟨n, rfl⟩ : ∃ k, n = k + 1 := ⟨n - 1, by omega⟩
    rw [parameters_eq_commaList (by omega)]
    exact .expectName hc hname (.pass hcomma (.pure rfl rfl))
  | more hname hcomma' _ ih =>
    simp only [List.length_cons] at hn hcount
    obtain ⟨n, rfl⟩ : ∃ k, n = k + 1 := ⟨n - 1, by omega⟩
    rw [parameters_eq_commaList (by omega)]
    refine .expectName hc hname (.take rfl hcomma' ?_)
    refine .bind (ih rfl (by omega) (by omega)) fun names' c' he hrest => ?_
    exact .pure (by rw [he]) hrest

theorem yields_parameterList {names : List Name} (h : ParameterList ts names)
    (hc : c.rest = ts ++ t :: rest) (ht : t.kind = .mark .rightParen) :
    parameterList.Yields c (t :: rest) (· = names) := by
  cases h with
  | none =>
    have he : parameterList c = (pure [] : Reader (List Name)) c := by
      simp [parameterList, Cursor.kind?, hc, ht, pure, EStateM.pure]
    exact .congr (.pure rfl hc) he rfl
  | some h harity =>
    have hfirst : NextIsNot (.mark .rightParen) c.rest := by
      cases h <;> simp [*]
    have hkind : c.kind? ≠ some (.mark .rightParen) := fun he =>
      Cursor.kind?_eq_some_iff.mp he hfirst
    have hlength : ts.length ≤ c.depth := by
      simp only [Cursor.depth, hc, List.length_append]
      omega
    have he : parameterList c = parameters c.depth 0 c := by
      simp only [parameterList, if_neg hkind]
    exact .congr (h.yields hc hlength (by omega) (by simp [ht])) he rfl

theorem yields_superclass {parent : Option Superclass} (h : Optional Heritage ts parent)
    (hc : c.rest = ts ++ t :: rest) (ht : t.kind = .mark .leftBrace) :
    superclass.Yields c (t :: rest)
      (·.map (·.rename .unsited) = parent.map (·.rename .unsited)) := by
  unfold superclass
  cases h with
  | none => exact .pass (by simp [hc, ht]) (.pure rfl hc)
  | some h =>
    obtain ⟨hless, hname⟩ := h
    exact .take hc hless (.expectName rfl hname (.freshSite (.pure rfl rfl)))

/-- The first clause of a `for` statement begins with the word `var`, with a semicolon or with an
expression. -/
theorem ForClauses.yields {clauses : Option Stmt × Option Expr × Option Expr}
    (h : ForClauses ts clauses) (hc : c.rest = ts ++ rest) :
    forClauses.Yields c rest fun r => r.1.map Stmt.bare = clauses.1.map Stmt.bare ∧
      r.2.1.map Expr.bare = clauses.2.1.map Expr.bare ∧
      r.2.2.map Expr.bare = clauses.2.2.map Expr.bare := by
  obtain @⟨opening, semicolon, closing, is, cs, ns, init, condition, increment, hopening, hinit,
    hcondition, hsemicolon, hincrement, hclosing⟩ := h
  have hc : c.rest = opening :: (is ++ (cs ++ semicolon :: (ns ++ closing :: rest))) := by
    simp [hc]
  -- What follows the first clause does not depend on its kind.
  have hafter : ∀ (init' : Option Stmt) (c₁ : Cursor), init'.map Stmt.bare = init.map Stmt.bare →
      c₁.rest = cs ++ semicolon :: (ns ++ closing :: rest) → Yields (do
        let condition ← expressionUnless .semicolon
        let _ ← expectMark .semicolon .forConditionEnd
        let increment ← expressionUnless .rightParen
        let _ ← expectMark .rightParen .forClausesEnd
        return (init', condition, increment)) c₁ rest fun r =>
          r.1.map Stmt.bare = init.map Stmt.bare ∧
            r.2.1.map Expr.bare = condition.map Expr.bare ∧
            r.2.2.map Expr.bare = increment.map Expr.bare := by
    intro init' c₁ hi hc₁
    refine .bind (yields_expressionUnless hcondition hc₁ hsemicolon rfl rfl rfl)
      fun condition' c₂ hcond hrest₂ => .expectMark hrest₂ hsemicolon ?_
    refine .bind (yields_expressionUnless hincrement rfl hclosing rfl rfl rfl)
      fun increment' c₃ hincr hrest₃ => .expectMark hrest₃ hclosing ?_
    exact .pure ⟨hi, hcond, hincr⟩ rfl
  simp only [forClauses, bind_map_left, pure_bind]
  refine .expectMark hc hopening ?_
  cases hinit with
  | none hfirst => exact .take rfl hfirst (hafter none _ rfl rfl)
  | expression hs =>
    have hd : ∃ us vs e, is = us ++ vs ∧ Derives (.level .assignment) us e := by
      obtain ⟨hd, -⟩ := hs
      exact ⟨_, _, _, rfl, hd⟩
    obtain ⟨us, vs, e, rfl, hd⟩ := hd
    refine .pass (by simpa using hd.nextIsNot rfl rfl _)
      (.pass (by simpa using hd.nextIsNot rfl rfl _) ?_)
    refine .bind (hs.yields rfl) fun s' c₁ hs' hrest => ?_
    exact hafter (some s') c₁ (congrArg some hs') hrest
  | var hs =>
    obtain ⟨keyword, us, rfl, hkeyword, hyields⟩ := hs.yields
    refine .pass (by simp [hkeyword]) (.take rfl hkeyword ?_)
    refine .bind (hyields _ _ rfl) fun s' c₁ hs' hrest => ?_
    exact hafter (some s') c₁ (congrArg some hs') hrest

end Parts

/-! ## Declarations and statements -/

/-- How the tokens of a derivation begin. -/
def Construct.Opens : Construct → List Token → Prop
  | .declarations, ts => NextIsNot (.keyword .else_) ts
  | .declaration, ts => ∃ t us, ts = t :: us ∧ t.kind ≠ .keyword .else_ ∧ t.kind ≠ .mark .rightBrace
  | .statement _, ts => ∃ t us, ts = t :: us ∧ t.kind ≠ .keyword .else_ ∧
      t.kind ≠ .mark .rightBrace ∧ t.kind ≠ .keyword .class_ ∧ t.kind ≠ .keyword .fun_ ∧
      t.kind ≠ .keyword .var
  | .block, ts => ∃ t us, ts = t :: us ∧ t.kind = .mark .leftBrace
  | .routines, _ => True
  | .routine, ts => ∃ t us, ts = t :: us ∧ t.kind = .identifier

theorem Composes.opens {k : Construct} {ts : List Token} {x : k.Tree} (h : Composes k ts x) :
    k.Opens ts := by
  induction h with
  | noDeclarations => exact nextIsNot_nil _
  | declarations _ _ ih =>
    obtain ⟨t, us, rfl, ht, -⟩ := ih
    exact nextIsNot_cons.mpr ht
  | class_ hkeyword | function hkeyword => exact ⟨_, _, rfl, by simp [hkeyword]⟩
  | var h =>
    obtain ⟨keyword, us, rfl, hkeyword, -⟩ := h.yields
    exact ⟨_, _, rfl, by simp [hkeyword]⟩
  | statement _ ih =>
    obtain ⟨t, us, rfl, helse, hbrace, -⟩ := ih
    exact ⟨t, us, rfl, helse, hbrace⟩
  | expression h =>
    obtain ⟨hd, hsemicolon⟩ := h
    obtain ⟨t, us, rfl, -⟩ := hd.begins
    have hnot : ∀ k, Grammar.opens k = false → unaryOperator? k = none → t.kind ≠ k :=
      fun k ho hu => nextIsNot_cons.mp (hd.nextIsNot ho hu [])
    exact ⟨t, _, rfl, hnot _ rfl rfl, hnot _ rfl rfl, hnot _ rfl rfl, hnot _ rfl rfl,
      hnot _ rfl rfl⟩
  | for_ hkeyword | if_ hkeyword | ifElse hkeyword | print hkeyword | return_ hkeyword
  | while_ hkeyword => exact ⟨_, _, rfl, by simp [hkeyword]⟩
  | braces _ ih =>
    obtain ⟨t, us, rfl, ht⟩ := ih
    exact ⟨t, us, rfl, by simp [ht]⟩
  | block hopening => exact ⟨_, _, rfl, hopening⟩
  | noRoutines | routines => trivial
  | routine hname => exact ⟨_, _, rfl, hname⟩

namespace Reader

/-- The tokens are read to the tree, up to sites, by a reader of its kind. Declarations are read in
two places, up to a closing brace and up to the end of the source. -/
def Accepts : (k : Construct) → List Token → k.Tree → Prop
  | .declarations, ts, ss =>
    (∀ n (c : Cursor) closing rest, c.rest = ts ++ closing :: rest →
      closing.kind = .mark .rightBrace → 16 * c.rest.length + 3 ≤ n →
      Yields (blockItems n) c (closing :: rest) (·.map Stmt.bare = ss.map Stmt.bare)) ∧
    ∀ n (c : Cursor), c.rest = ts → ts.length < n →
      Yields (declarations n) c [] (·.map Stmt.bare = ss.map Stmt.bare)
  | .declaration, ts, s => ∀ n (c : Cursor) rest, c.rest = ts ++ rest →
      16 * c.rest.length + 2 ≤ n → NextIsNot (.keyword .else_) rest →
      Yields (declaration n) c rest (·.bare = s.bare)
  | .statement dangling, ts, s => ∀ n (c : Cursor) rest, c.rest = ts ++ rest →
      16 * c.rest.length + 1 ≤ n → (dangling = true → NextIsNot (.keyword .else_) rest) →
      Yields (statement n) c rest (·.bare = s.bare)
  | .block, ts, ss => ∃ opening us, ts = opening :: us ∧ opening.kind = .mark .leftBrace ∧
      ∀ n (c : Cursor) rest, c.rest = us ++ rest → 16 * c.rest.length + 4 ≤ n →
        Yields (block n) c rest (·.map Stmt.bare = ss.map Stmt.bare)
  | .routines, ts, rs => ∀ n (c : Cursor) closing rest, c.rest = ts ++ closing :: rest →
      closing.kind = .mark .rightBrace → 16 * c.rest.length + 2 ≤ n →
      Yields (methods n) c (closing :: rest) (·.map Routine.bare = rs.map Routine.bare)
  | .routine, ts, r => ∀ n kind (c : Cursor) rest, c.rest = ts ++ rest →
      16 * c.rest.length + 1 ≤ n → Yields (routine n kind) c rest (·.bare = r.bare)

namespace Accepts

variable {ts us cs bs : List Token} {s body : Stmt} {ss : List Stmt} {keyword : Token}

theorem noDeclarations : Accepts .declarations [] [] := by
  refine ⟨fun n c closing rest hc hclosing hn => ?_, fun n c hc hn => ?_⟩
  · obtain ⟨n, rfl⟩ : ∃ k, n = k + 1 := ⟨n - 1, by omega⟩
    rw [blockItems]
    exact .isNext hc hclosing (.pure rfl hc)
  · obtain ⟨n, rfl⟩ : ∃ k, n = k + 1 := ⟨n - 1, by omega⟩
    rw [Reader.declarations]
    exact .isAtEnd hc (.pure rfl hc)

/-- A declaration is read, and then the ones after it. -/
theorem items {reader : Reader Stmt} {items : Reader (List Stmt)} {c : Cursor}
    {mid rest : List Token} (hfirst : Yields reader c mid (·.bare = s.bare))
    (hrest : ∀ c' : Cursor, c'.rest = mid →
      Yields items c' rest (·.map Stmt.bare = ss.map Stmt.bare)) :
    Yields (do
      let s ← recovering reader
      return s.toList ++ (← items)) c rest (·.map Stmt.bare = (s :: ss).map Stmt.bare) := by
  refine .bind (.recovering hfirst) ?_
  rintro _ c₁ ⟨s', rfl, hs⟩ hmid
  refine .bind (hrest c₁ hmid) fun ss' c₂ hss hrest' => .pure ?_ hrest'
  simp [hs, hss]

theorem declarations (hd : Composes .declaration ts s) (hds : Composes .declarations us ss)
    (h : Accepts .declaration ts s) (hs : Accepts .declarations us ss) :
    Accepts .declarations (ts ++ us) (s :: ss) := by
  obtain ⟨t, ts, rfl, -, hbrace⟩ := hd.opens
  have helse : NextIsNot (.keyword .else_) us := hds.opens
  refine ⟨fun n c closing rest hc hclosing hn => ?_, fun n c hc hn => ?_⟩
  · obtain ⟨n, rfl⟩ : ∃ k, n = k + 1 := ⟨n - 1, by omega⟩
    have hc : c.rest = t :: (ts ++ (us ++ closing :: rest)) := by simp [hc]
    have hlength := congrArg List.length hc
    simp only [List.length_cons, List.length_append] at hlength
    have hnext : NextIsNot (.keyword .else_) (us ++ closing :: rest) := by
      cases us with
      | nil => simp [hclosing]
      | cons u us => simpa using helse
    rw [blockItems]
    refine .isNotNext (by simp [hc, hbrace]) (.isNotAtEnd hc ?_)
    refine items (h n c _ hc (by omega) hnext) fun c' hc' => ?_
    refine hs.1 n c' closing rest hc' hclosing ?_
    simp only [hc', List.length_append, List.length_cons]
    omega
  · obtain ⟨n, rfl⟩ : ∃ k, n = k + 1 := ⟨n - 1, by omega⟩
    have hdepth : 16 * c.rest.length + 2 ≤ c.depth := by
      unfold Cursor.depth
      omega
    simp only [List.length_cons, List.length_append] at hn
    rw [Reader.declarations]
    refine .isNotAtEnd hc (items ?_ fun c' hc' => hs.2 n c' hc' (by omega))
    exact (h c.depth c us hc hdepth helse).congr rfl rfl

theorem class_ {name opening closing : Token} {hs ms : List Token} {parent : Option Superclass}
    {methods : List Routine} (hkeyword : keyword.kind = .keyword .class_)
    (hname : name.kind = .identifier) (hparent : Optional Heritage hs parent)
    (hopening : opening.kind = .mark .leftBrace) (hmethods : Accepts .routines ms methods)
    (hclosing : closing.kind = .mark .rightBrace) :
    Accepts .declaration (keyword :: name :: (hs ++ opening :: (ms ++ [closing])))
      (.class_ name.toName parent methods) := by
  intro n c rest hc hn _
  have hc : c.rest = keyword :: name :: (hs ++ opening :: (ms ++ closing :: rest)) := by simp [hc]
  have hlength := congrArg List.length hc
  simp only [List.length_cons, List.length_append] at hlength
  obtain ⟨n, rfl⟩ : ∃ k, n = k + 2 := ⟨n - 2, by omega⟩
  rw [declaration]
  refine .take hc hkeyword ?_
  rw [classDeclaration]
  refine .expectName rfl hname ?_
  refine .bind (yields_superclass hparent rfl hopening) fun parent' c₁ hp hrest₁ => ?_
  refine .expectMark hrest₁ hopening ?_
  refine .bind (hmethods n _ closing rest rfl hclosing ?_) fun methods' c₂ hm hrest₂ => ?_
  · simp only [List.length_append, List.length_cons]
    omega
  · refine .expectMark hrest₂ hclosing (.pure ?_ rfl)
    rw [Stmt.bare_class, Stmt.bare_class, hp, hm]

theorem function {r : Routine} (hkeyword : keyword.kind = .keyword .fun_)
    (hroutine : Accepts .routine ts r) : Accepts .declaration (keyword :: ts) (.function r) := by
  intro n c rest hc hn _
  have hc : c.rest = keyword :: (ts ++ rest) := hc
  have hlength := congrArg List.length hc
  rw [List.length_cons] at hlength
  obtain ⟨n, rfl⟩ : ∃ k, n = k + 1 := ⟨n - 1, by omega⟩
  rw [declaration]
  refine .pass (by simp [hc, hkeyword]) (.take hc hkeyword ?_)
  refine .map ((hroutine n .function _ rest rfl (by simp only; omega)).mono ?_)
  rintro _ ⟨r', rfl, hr⟩
  exact ⟨r', rfl, congrArg Stmt.function hr⟩

theorem var (h : VarDeclaration ts s) : Accepts .declaration ts s := by
  obtain ⟨keyword, us, rfl, hkeyword, hyields⟩ := h.yields
  intro n c rest hc hn _
  obtain ⟨n, rfl⟩ : ∃ k, n = k + 1 := ⟨n - 1, by omega⟩
  rw [declaration]
  refine .pass (by simp [hc, hkeyword]) (.pass (by simp [hc, hkeyword]) (.take hc hkeyword ?_))
  exact hyields _ rest rfl

theorem statement {dangling : Bool} (hs : Composes (.statement dangling) ts s)
    (h : Accepts (.statement dangling) ts s) : Accepts .declaration ts s := by
  obtain ⟨t, us, rfl, -, -, hclass, hfun, hvar⟩ := hs.opens
  intro n c rest hc hn helse
  obtain ⟨n, rfl⟩ : ∃ k, n = k + 1 := ⟨n - 1, by omega⟩
  rw [declaration]
  refine .pass (by simp [hc, hclass]) (.pass (by simp [hc, hfun]) (.pass (by simp [hc, hvar]) ?_))
  exact h n c rest hc (by omega) fun _ => helse

theorem expression (h : ExpressionStatement ts s) : Accepts (.statement false) ts s := by
  intro n c rest hc hn _
  obtain ⟨n, rfl⟩ : ∃ k, n = k + 1 := ⟨n - 1, by omega⟩
  have hnot : ∀ k, opens k = false → unaryOperator? k = none → NextIsNot k c.rest := by
    intro k ho hu
    obtain ⟨hd, -⟩ := h
    simpa [hc] using hd.nextIsNot ho hu _
  rw [Reader.statement]
  refine .pass (hnot _ rfl rfl) (.pass (hnot _ rfl rfl) (.pass (hnot _ rfl rfl) ?_))
  refine .pass (hnot _ rfl rfl) (.pass (hnot _ rfl rfl) (.pass (hnot _ rfl rfl) ?_))
  exact h.yields hc

theorem for_ {init : Option Stmt} {condition increment : Option Expr} {dangling : Bool}
    (hkeyword : keyword.kind = .keyword .for_)
    (hclauses : ForClauses cs (init, condition, increment))
    (hbody : Accepts (.statement dangling) bs body) :
    Accepts (.statement dangling) (keyword :: (cs ++ bs))
      (.for_ init condition increment body) := by
  intro n c rest hc hn hnext
  have hc : c.rest = keyword :: (cs ++ (bs ++ rest)) := by simp [hc]
  have hlength := congrArg List.length hc
  simp only [List.length_cons, List.length_append] at hlength
  obtain ⟨n, rfl⟩ : ∃ k, n = k + 1 := ⟨n - 1, by omega⟩
  rw [Reader.statement]
  refine .take hc hkeyword (.bind (hclauses.yields rfl) ?_)
  rintro ⟨init', condition', increment'⟩ c₁ ⟨hi, hcond, hincr⟩ hrest₁
  refine .bind (hbody n c₁ rest hrest₁ ?_ hnext) fun body' c₂ hb hrest₂ => .pure ?_ hrest₂
  · simp only [hrest₁, List.length_append]
    omega
  · have hbare : ∀ i c n b, (forLoop i c n b).bare =
        forLoop (i.map Stmt.bare) (c.map Expr.bare) (n.map Expr.bare) b.bare :=
      fun i c n b => (forLoop_rename .unsited i c n b).symm
    rw [← forLoop_eq, hbare, hbare, hi, hcond, hincr, hb]

theorem while_ {condition : Expr} {dangling : Bool} (hkeyword : keyword.kind = .keyword .while_)
    (hcondition : Condition cs condition) (hbody : Accepts (.statement dangling) bs body) :
    Accepts (.statement dangling) (keyword :: (cs ++ bs)) (.while_ condition body) := by
  intro n c rest hc hn hnext
  have hc : c.rest = keyword :: (cs ++ (bs ++ rest)) := by simp [hc]
  have hlength := congrArg List.length hc
  simp only [List.length_cons, List.length_append] at hlength
  obtain ⟨n, rfl⟩ : ∃ k, n = k + 1 := ⟨n - 1, by omega⟩
  rw [Reader.statement]
  refine .pass (by simp [hc, hkeyword]) (.pass (by simp [hc, hkeyword])
    (.pass (by simp [hc, hkeyword]) (.pass (by simp [hc, hkeyword]) (.take hc hkeyword ?_))))
  refine .bind (hcondition.yields rfl _ _) fun condition' c₁ hcond hrest₁ => ?_
  refine .bind (hbody n c₁ rest hrest₁ ?_ hnext) fun body' c₂ hb hrest₂ => .pure ?_ hrest₂
  · simp only [hrest₁, List.length_append]
    omega
  · exact congrArg₂ Stmt.while_ hcond hb

theorem if_ {condition : Expr} {dangling : Bool} (hkeyword : keyword.kind = .keyword .if_)
    (hcondition : Condition cs condition) (hthen : Accepts (.statement dangling) ts s) :
    Accepts (.statement true) (keyword :: (cs ++ ts)) (.if_ condition s none) := by
  intro n c rest hc hn hnext
  have hc : c.rest = keyword :: (cs ++ (ts ++ rest)) := by simp [hc]
  have hlength := congrArg List.length hc
  simp only [List.length_cons, List.length_append] at hlength
  obtain ⟨n, rfl⟩ : ∃ k, n = k + 1 := ⟨n - 1, by omega⟩
  rw [Reader.statement]
  refine .pass (by simp [hc, hkeyword]) (.take hc hkeyword ?_)
  refine .bind (hcondition.yields rfl _ _) fun condition' c₁ hcond hrest₁ => ?_
  refine .bind (hthen n c₁ rest hrest₁ ?_ fun _ => hnext rfl) fun s' c₂ hs hrest₂ => ?_
  · simp only [hrest₁, List.length_append]
    omega
  · exact .pass (hrest₂ ▸ hnext rfl) (.pure (congrArg₂ (Stmt.if_ · · none) hcond hs) hrest₂)

theorem ifElse {otherwise : Token} {es : List Token} {condition : Expr} {then_ else_ : Stmt}
    {dangling : Bool} (hkeyword : keyword.kind = .keyword .if_)
    (hcondition : Condition cs condition) (hthen : Accepts (.statement false) ts then_)
    (hotherwise : otherwise.kind = .keyword .else_)
    (helse : Accepts (.statement dangling) es else_) :
    Accepts (.statement dangling) (keyword :: (cs ++ (ts ++ otherwise :: es)))
      (.if_ condition then_ (some else_)) := by
  intro n c rest hc hn hnext
  have hc : c.rest = keyword :: (cs ++ (ts ++ otherwise :: (es ++ rest))) := by simp [hc]
  have hlength := congrArg List.length hc
  simp only [List.length_cons, List.length_append] at hlength
  obtain ⟨n, rfl⟩ : ∃ k, n = k + 1 := ⟨n - 1, by omega⟩
  rw [Reader.statement]
  refine .pass (by simp [hc, hkeyword]) (.take hc hkeyword ?_)
  refine .bind (hcondition.yields rfl _ _) fun condition' c₁ hcond hrest₁ => ?_
  refine .bind (hthen n c₁ _ hrest₁ ?_ (by simp)) fun then' c₂ ht hrest₂ => ?_
  · simp only [hrest₁, List.length_append, List.length_cons]
    omega
  · refine .take hrest₂ hotherwise ?_
    refine .bind (helse n _ rest rfl ?_ hnext) fun else' c₃ he hrest₃ => .pure ?_ hrest₃
    · simp only [List.length_append]
      omega
    · rw [Stmt.bare, Stmt.bare, Stmt.rename, Stmt.rename]
      exact congr (congrArg₂ Stmt.if_ hcond ht) (congrArg some he)

theorem print {semicolon : Token} {e : Expr} (hkeyword : keyword.kind = .keyword .print)
    (he : Derives (.level .assignment) ts e) (hsemicolon : semicolon.kind = .mark .semicolon) :
    Accepts (.statement false) (keyword :: (ts ++ [semicolon])) (.print e) := by
  intro n c rest hc hn _
  have hc : c.rest = keyword :: (ts ++ semicolon :: rest) := by simp [hc]
  obtain ⟨n, rfl⟩ : ∃ k, n = k + 1 := ⟨n - 1, by omega⟩
  rw [Reader.statement]
  refine .pass (by simp [hc, hkeyword]) (.pass (by simp [hc, hkeyword]) (.take hc hkeyword ?_))
  unfold printStatement
  refine .bind (he.yields_mark rfl hsemicolon rfl) fun e' c₁ he' hrest₁ => ?_
  exact .expectMark hrest₁ hsemicolon (.pure (congrArg Stmt.print he') rfl)

theorem return_ {semicolon : Token} {value : Option Expr}
    (hkeyword : keyword.kind = .keyword .return_)
    (hvalue : Optional (Derives (.level .assignment)) ts value)
    (hsemicolon : semicolon.kind = .mark .semicolon) :
    Accepts (.statement false) (keyword :: (ts ++ [semicolon])) (.return_ keyword.line value) := by
  intro n c rest hc hn _
  have hc : c.rest = keyword :: (ts ++ semicolon :: rest) := by simp [hc]
  obtain ⟨n, rfl⟩ : ∃ k, n = k + 1 := ⟨n - 1, by omega⟩
  rw [Reader.statement]
  refine .pass (by simp [hc, hkeyword]) (.pass (by simp [hc, hkeyword])
    (.pass (by simp [hc, hkeyword]) (.take hc hkeyword ?_)))
  unfold returnStatement
  refine .bind (yields_expressionUnless hvalue rfl hsemicolon rfl rfl rfl)
    fun value' c₁ hv hrest₁ => ?_
  exact .expectMark hrest₁ hsemicolon (.pure (congrArg (Stmt.return_ keyword.line) hv) rfl)

theorem braces (h : Accepts .block ts ss) : Accepts (.statement false) ts (.block ss) := by
  obtain ⟨opening, us, rfl, hopening, hyields⟩ := h
  intro n c rest hc hn _
  have hc : c.rest = opening :: (us ++ rest) := hc
  have hlength := congrArg List.length hc
  rw [List.length_cons] at hlength
  obtain ⟨n, rfl⟩ : ∃ k, n = k + 1 := ⟨n - 1, by omega⟩
  have hpass : ∀ k : Keyword, NextIsNot (.keyword k) c.rest := by simp [hc, hopening]
  rw [Reader.statement]
  refine .pass (hpass _) (.pass (hpass _) (.pass (hpass _) ?_))
  refine .pass (hpass _) (.pass (hpass _) (.take hc hopening ?_))
  refine .bind (hyields n _ rest rfl (by simp only; omega)) fun ss' c₁ hss hrest₁ => ?_
  refine .pure ?_ hrest₁
  rw [Stmt.bare_block, Stmt.bare_block, hss]

theorem block {opening closing : Token} (hopening : opening.kind = .mark .leftBrace)
    (hbody : Accepts .declarations ts ss) (hclosing : closing.kind = .mark .rightBrace) :
    Accepts .block (opening :: (ts ++ [closing])) ss := by
  refine ⟨opening, _, rfl, hopening, fun n c rest hc hn => ?_⟩
  have hc : c.rest = ts ++ closing :: rest := by simp [hc]
  obtain ⟨n, rfl⟩ : ∃ k, n = k + 1 := ⟨n - 1, by omega⟩
  rw [Reader.block]
  refine .bind (hbody.1 n c closing rest hc hclosing (by omega)) fun ss' c₁ hss hrest₁ => ?_
  exact .expectMark hrest₁ hclosing (.pure hss rfl)

theorem noRoutines : Accepts .routines [] [] := by
  intro n c closing rest hc hclosing hn
  obtain ⟨n, rfl⟩ : ∃ k, n = k + 1 := ⟨n - 1, by omega⟩
  rw [methods]
  exact .isNext hc hclosing (.pure rfl hc)

theorem routines {r : Routine} {rs : List Routine} (hr : Composes .routine ts r)
    (h : Accepts .routine ts r) (hs : Accepts .routines us rs) :
    Accepts .routines (ts ++ us) (r :: rs) := by
  obtain ⟨t, ts, rfl, ht⟩ := hr.opens
  intro n c closing rest hc hclosing hn
  have hc : c.rest = t :: (ts ++ (us ++ closing :: rest)) := by simp [hc]
  have hlength := congrArg List.length hc
  simp only [List.length_cons, List.length_append] at hlength
  obtain ⟨n, rfl⟩ : ∃ k, n = k + 1 := ⟨n - 1, by omega⟩
  rw [methods]
  refine .isNotNext (by simp [hc, ht]) (.isNotAtEnd hc ?_)
  refine .bind (h n .method c _ hc (by omega)) fun r' c₁ hr hrest₁ => ?_
  refine .bind (hs n c₁ closing rest hrest₁ hclosing ?_) fun rs' c₂ hrs hrest₂ => ?_
  · simp only [hrest₁, List.length_append, List.length_cons]
    omega
  · exact .pure (by simp [hr, hrs]) hrest₂

theorem routine {name opening closing : Token} {ps : List Token} {params : List Name}
    (hname : name.kind = .identifier) (hopening : opening.kind = .mark .leftParen)
    (hparams : ParameterList ps params) (hclosing : closing.kind = .mark .rightParen)
    (hbody : Accepts .block bs ss) :
    Accepts .routine (name :: opening :: (ps ++ closing :: bs)) (.mk name.toName params ss) := by
  obtain ⟨brace, bs, rfl, hbrace, hyields⟩ := hbody
  intro n kind c rest hc hn
  have hc : c.rest = name :: opening :: (ps ++ closing :: brace :: (bs ++ rest)) := by simp [hc]
  have hlength := congrArg List.length hc
  simp only [List.length_cons, List.length_append] at hlength
  obtain ⟨n, rfl⟩ : ∃ k, n = k + 1 := ⟨n - 1, by omega⟩
  rw [Reader.routine]
  refine .expectName hc hname (.expectMark rfl hopening ?_)
  refine .bind (yields_parameterList hparams rfl hclosing) fun params' c₁ hp hrest₁ => ?_
  subst hp
  refine .expectMark hrest₁ hclosing (.expectMark rfl hbrace ?_)
  refine .bind (hyields n _ rest rfl ?_) fun ss' c₂ hss hrest₂ => .pure ?_ hrest₂
  · simp only [List.length_append]
    omega
  · rw [Routine.bare_mk, Routine.bare_mk, hss]

end Accepts

end Reader

open Reader in
/-- The tokens of a derivation are read to its tree. -/
theorem Composes.accepts {k : Construct} {ts : List Token} {x : k.Tree} (h : Composes k ts x) :
    Accepts k ts x := by
  induction h with
  | noDeclarations => exact .noDeclarations
  | declarations hfirst hrest ihfirst ihrest => exact .declarations hfirst hrest ihfirst ihrest
  | class_ hkeyword hname hparent hopening _ hclosing ih =>
    exact .class_ hkeyword hname hparent hopening ih hclosing
  | function hkeyword _ ih => exact .function hkeyword ih
  | var h => exact .var h
  | statement h ih => exact .statement h ih
  | expression h => exact .expression h
  | for_ hkeyword hclauses _ ih => exact .for_ hkeyword hclauses ih
  | if_ hkeyword hcondition _ ih => exact .if_ hkeyword hcondition ih
  | ifElse hkeyword hcondition _ hotherwise _ ihthen ihelse =>
    exact .ifElse hkeyword hcondition ihthen hotherwise ihelse
  | print hkeyword he hsemicolon => exact .print hkeyword he hsemicolon
  | return_ hkeyword hvalue hsemicolon => exact .return_ hkeyword hvalue hsemicolon
  | while_ hkeyword hcondition _ ih => exact .while_ hkeyword hcondition ih
  | braces _ ih => exact .braces ih
  | block hopening _ hclosing ih => exact .block hopening ih hclosing
  | noRoutines => exact .noRoutines
  | routines hfirst _ ihfirst ihrest => exact .routines hfirst ihfirst ihrest
  | routine hname hopening hparams hclosing _ ih =>
    exact .routine hname hopening hparams hclosing ih

end LoxLang.Grammar
