import LoxLang.Proofs.Grammar.Progress
import LoxLang.Proofs.Grammar.Sentence
import LoxLang.Proofs.Grammar.Soundness.Expression

/-!
# Programs that are read are derived

The tokens that are read as a program without reporting anything are derived by the grammar. A
declaration that is dropped was reported before.

## Main results

* `Reader.meets_declarations_took`: what is read as declarations is derived as declarations.
-/

namespace LoxLang.Grammar

namespace Reader

/-! ## Parts of statements -/

section Taking

variable {α β : Type} {p : List Token → α → Prop} {q : List Token → β → Prop} {c c₁ c' : Cursor}
  {a : α} {b : β} {t : Token} {l : List Token}

theorem Took.nil (h : p [] a) : Took p c a c := fun _ => ⟨[], rfl, h⟩

theorem Took.mono (h : Took p c a c') (hq : ∀ ts, p ts a → q ts b) : Took q c b c' := by
  intro hquiet
  obtain ⟨ts, hts, hp⟩ := h hquiet
  exact ⟨ts, hts, hq ts hp⟩

/-- One thing after another. -/
theorem Took.append (h : Took p c a c₁) (hl : c₁.Leads c')
    (h' : ∀ ts, p ts a → Took (fun us => q (ts ++ us)) c₁ b c') : Took q c b c' := by
  intro hquiet
  obtain ⟨ts, hts, hp⟩ := h (hl.quiet hquiet)
  obtain ⟨us, hus, hq⟩ := h' ts hp hquiet
  exact ⟨ts ++ us, by rw [hts, hus, List.append_assoc], hq⟩

/-- A token before. -/
theorem Took.cons (hrest : c.rest = t :: l)
    (h : Took (fun ts => q (t :: ts)) { c with rest := l } b c') : Took q c b c' := by
  intro hquiet
  obtain ⟨ts, hts, hq⟩ := h hquiet
  exact ⟨t :: ts, by rw [hrest, List.cons_append, ← hts], hq⟩

/-- A token after. -/
theorem Took.snoc (hrest : c'.rest = t :: l) (h : Took (fun ts => q (ts ++ [t])) c b c') :
    Took q c b { c' with rest := l } := by
  intro hquiet
  obtain ⟨ts, hts, hq⟩ := h hquiet
  exact ⟨ts ++ [t], by simp [hts, hrest], hq⟩

end Taking

/-- A token that is not taken is not there. -/
theorem meets_take?_or_not {c : Cursor} {kind : Token.Kind} {post : Option Token → Cursor → Prop}
    (hnone : NextIsNot kind c.rest → post none c)
    (hsome : ∀ t l, c.rest = t :: l → t.kind = kind → post (some t) { c with rest := l }) :
    Meets (take? kind) c post := by
  by_cases h : NextIsNot kind c.rest
  · exact .take? (hnone h) hsome
  · obtain ⟨t, l, hrest, ht⟩ : ∃ t l, c.rest = t :: l ∧ t.kind = kind := by
      cases hrest : c.rest with
      | nil => exact absurd (hrest ▸ nextIsNot_nil kind) h
      | cons t l => exact ⟨t, l, rfl, by simpa [hrest] using h⟩
    have he : take? kind c = .ok (some t) { c with rest := l } := by
      simp [take?, takeIf?, hrest, ht]
    rw [Meets, he]
    exact ⟨.token hrest, hsome t l hrest ht⟩

theorem meets_expressionUnless_took (m : Mark) (c : Cursor) :
    Meets (expressionUnless m) c (Took (Optional (Derives (.level .assignment))) c) := by
  unfold expressionUnless
  refine .bind (.isNext ?_)
  split
  · exact .pure (.nil .none)
  · refine .bind ((meets_expression_took c).mono fun e c' _ he => .pure ?_)
    exact he.mono fun _ hd => .some hd

theorem meets_condition_took (first last : Expected) (c : Cursor) :
    Meets (condition first last) c (Took Condition c) := by
  unfold condition
  refine .bind (.expectMark fun opening l hrest hopening => ?_)
  refine .bind ((meets_expression_took _).mono fun e c₁ _ he => ?_)
  refine .bind (.expectMark fun closing l' hrest' hclosing => .pure ?_)
  exact .snoc hrest' (.cons hrest (he.mono fun ts hd => .mk hopening hd hclosing))

theorem meets_expressionStatement_took (c : Cursor) :
    Meets expressionStatement c (Took ExpressionStatement c) := by
  unfold expressionStatement
  refine .bind ((meets_expression_took c).mono fun e c₁ _ he => ?_)
  refine .bind (.expectMark fun semicolon l hrest hsemicolon => .pure ?_)
  exact .snoc hrest (he.mono fun ts hd => .mk hd hsemicolon)

theorem meets_printStatement_took {keyword : Token} (hkeyword : keyword.kind = .keyword .print)
    (c : Cursor) :
    Meets printStatement c (Took (fun ts => Composes (.statement false) (keyword :: ts)) c) := by
  unfold printStatement
  refine .bind ((meets_expression_took c).mono fun e c₁ _ he => ?_)
  refine .bind (.expectMark fun semicolon l hrest hsemicolon => .pure ?_)
  exact .snoc hrest (he.mono fun ts hd => .print hkeyword hd hsemicolon)

theorem meets_returnStatement_took {keyword : Token} (hkeyword : keyword.kind = .keyword .return_)
    (c : Cursor) : Meets (returnStatement keyword.line) c
      (Took (fun ts => Composes (.statement false) (keyword :: ts)) c) := by
  unfold returnStatement
  refine .bind ((meets_expressionUnless_took .semicolon c).mono fun value c₁ _ hvalue => ?_)
  refine .bind (.expectMark fun semicolon l hrest hsemicolon => .pure ?_)
  exact .snoc hrest (hvalue.mono fun ts hd => .return_ hkeyword hd hsemicolon)

theorem meets_varDeclaration_took {keyword : Token} (hkeyword : keyword.kind = .keyword .var)
    (c : Cursor) : Meets varDeclaration c (Took (fun ts => VarDeclaration (keyword :: ts)) c) := by
  unfold varDeclaration
  refine .bind (.expectName fun name l hrest hname => ?_)
  -- The semicolon is read in the same way with an initializer and without.
  have hend : ∀ (init : Option Expr) (c₁ : Cursor),
      Took (Optional Initializer) { c with rest := l } init c₁ → Meets (do
        let _ ← expectMark .semicolon .variableEnd
        return .var name.toName init) c₁ (Took (fun ts => VarDeclaration (keyword :: ts)) c) := by
    intro init c₁ hinit
    refine .bind (.expectMark fun semicolon l' hrest' hsemicolon => .pure ?_)
    exact .snoc hrest' (.cons hrest (hinit.mono fun ts h => .mk hkeyword hname h hsemicolon))
  refine .bind (.take? (.bind (.pure (hend none _ (.nil .none)))) fun sign l' hrest' hsign => ?_)
  refine .bind ((meets_expression_took _).mono fun e c₁ _ he => .bind (.pure ?_))
  exact hend (some e) c₁ (.cons hrest' (he.mono fun ts hd => .some (.mk hsign hd)))

theorem meets_parameters_took (n count : Nat) (c : Cursor) :
    Meets (parameters n count) c fun names c' =>
      Took Parameters c names c' ∧ (c'.reported = [] → count + names.length ≤ 255) := by
  induction n generalizing count c with
  | zero => exact .fail _
  | succ n ih =>
    rw [parameters_succ]
    split
    · -- The first parameter that is too many is reported, which nothing undoes.
      refine .bind (.reportHere ?_)
      have hloud : ∀ c' : Cursor, Cursor.Leads { c with reported := c.reported ++
          [.grammar .tooManyParameters c.place] } c' → c'.reported ≠ [] := by
        intro c' hl hquiet
        exact absurd (hl.quiet hquiet) (by simp)
      refine .commaList (.expectName fun name l hrest _ => ?_)
      have hl₁ := Cursor.Leads.token hrest
      refine ⟨⟨fun h => absurd h (hloud _ hl₁), fun h => absurd h (hloud _ hl₁)⟩, ?_⟩
      intro comma l' hrest' _
      refine (ih _ _).mono fun names c₂ hl₂ _ => ?_
      have hloud₂ := hloud c₂ ((hl₁.trans (.token hrest')).trans hl₂)
      exact ⟨fun h => absurd h hloud₂, fun h => absurd h hloud₂⟩
    · next hcount =>
      have hcount : count < 255 := Nat.not_le.mp hcount
      refine .commaList (.expectName fun name l hrest hname => ?_)
      refine ⟨⟨.cons hrest (.nil (.last hname)), fun _ => hcount⟩, ?_⟩
      intro comma l' hrest' hcomma
      refine (ih _ _).mono fun names c₂ _ h => ⟨?_, fun hquiet => ?_⟩
      · exact .cons hrest (.cons hrest' (h.1.mono fun ts h => .more hname hcomma h))
      · have := h.2 hquiet
        simp only [List.length_cons]
        omega

theorem meets_parameterList_took (c : Cursor) :
    Meets parameterList c (Took ParameterList c) := by
  by_cases h : c.kind? = some (.mark .rightParen)
  · have he : (pure [] : Reader (List Name)) c = parameterList c := by
      simp [parameterList, h, pure, EStateM.pure]
    exact .congr (.pure (.nil .none)) he
  · have he : parameters c.depth 0 c = parameterList c := by simp only [parameterList, if_neg h]
    refine .congr ((meets_parameters_took _ 0 c).mono fun names c' _ h hquiet => ?_) he
    obtain ⟨ts, hts, hnames⟩ := h.1 hquiet
    have harity := h.2 hquiet
    exact ⟨ts, hts, .some hnames (by omega)⟩

theorem meets_forClauses_took (c : Cursor) : Meets forClauses c (Took ForClauses c) := by
  unfold forClauses
  refine .bind (.expectMark fun opening l₀ hrest₀ hopening => ?_)
  -- What follows the first clause does not depend on its kind.
  have hafter : ∀ (init : Option Stmt) (c₁ : Cursor),
      Took ForInitializer { c with rest := l₀ } init c₁ → Meets (do
        let condition ← expressionUnless .semicolon
        let _ ← expectMark .semicolon .forConditionEnd
        let increment ← expressionUnless .rightParen
        let _ ← expectMark .rightParen .forClausesEnd
        return (init, condition, increment)) c₁ (Took ForClauses c) := by
    intro init c₁ hinit
    refine .bind ((meets_expressionUnless_took _ c₁).mono fun condition c₂ hl₂ hcondition => ?_)
    refine .bind (.expectMark fun semicolon l hrest hsemicolon => ?_)
    refine .bind ((meets_expressionUnless_took _ _).mono fun increment c₃ hl₃ hincrement => ?_)
    refine .bind (.expectMark fun closing l' hrest' hclosing => .pure ?_)
    refine .cons hrest₀ (hinit.append ((hl₂.trans (.token hrest)).trans
      (hl₃.trans (.token hrest'))) fun is his => ?_)
    refine hcondition.append (Cursor.Leads.trans (.token hrest)
      (hl₃.trans (.token hrest'))) fun cs hcs => .cons hrest (.snoc hrest' ?_)
    exact hincrement.mono fun ns hns => .mk hopening his hcs hsemicolon hns hclosing
  refine .bind (.take? ?_ fun semicolon l hrest hsemicolon => ?_)
  · refine .bind (.take? ?_ fun keyword l hrest hkeyword => ?_)
    · refine .bind (.map ((meets_expressionStatement_took _).mono fun s c₁ _ hs => ?_))
      exact hafter (some s) c₁ (hs.mono fun ts h => .expression h)
    · refine .bind (.map ((meets_varDeclaration_took hkeyword _).mono fun s c₁ _ hs => ?_))
      exact hafter (some s) c₁ (.cons hrest (hs.mono fun ts h => .var h))
  · exact .bind (.pure (hafter none _ (.cons hrest (.nil (.none hsemicolon)))))

theorem meets_superclass_took (c : Cursor) : Meets superclass c (Took (Optional Heritage) c) := by
  unfold superclass
  refine .bind (.take? (.pure (.nil .none)) fun less l hrest hless => ?_)
  refine .bind (.expectName fun name l' hrest' hname => .bind (.freshSite (.pure ?_)))
  intro _
  refine ⟨[less, name], ?_, .some (.mk hless hname)⟩
  simp_all

/-! ## Declarations and statements -/

/-- A statement was taken, and an `else` that would belong to it does not follow. -/
def TookStatement (c : Cursor) (s : Stmt) (c' : Cursor) : Prop :=
  Took (fun ts s => ∃ dangling, Composes (.statement dangling) ts s ∧
    (dangling = true → NextIsNot (.keyword .else_) c'.rest)) c s c'

/-- What the readers of statements promise when they nest at most `n` deep. The word or brace with
which a class or a block begins is taken before. -/
structure ComposingReaders (n : Nat) : Prop where
  declaration : ∀ c : Cursor, Meets (declaration n) c (Took (Composes .declaration) c)
  classDeclaration : ∀ (keyword : Token) (c : Cursor), keyword.kind = .keyword .class_ →
    Meets (classDeclaration n) c (Took (fun ts => Composes .declaration (keyword :: ts)) c)
  methods : ∀ c : Cursor, Meets (methods n) c (Took (Composes .routines) c)
  routine : ∀ (kind : RoutineKind) (c : Cursor),
    Meets (routine n kind) c (Took (Composes .routine) c)
  statement : ∀ c : Cursor, Meets (statement n) c (TookStatement c)
  block : ∀ (opening : Token) (c : Cursor), opening.kind = .mark .leftBrace →
    Meets (block n) c (Took (fun ts => Composes .block (opening :: ts)) c)
  blockItems : ∀ c : Cursor, Meets (blockItems n) c (Took (Composes .declarations) c)

/-- A declaration that cannot be read is reported, so that nothing is dropped in silence. -/
theorem meets_items_took {reader : Reader Stmt} {items : Reader (List Stmt)} {c : Cursor}
    (hr : Meets reader c (Took (Composes .declaration) c))
    (hi : ∀ c', Meets items c' (Took (Composes .declarations) c')) :
    Meets (do
      let s ← recovering reader
      return s.toList ++ (← items)) c (Took (Composes .declarations) c) := by
  have hfirst : Meets (recovering reader) c fun s c' => c'.reported = [] →
      ∃ s', s = some s' ∧ Took (Composes .declaration) c s' c' := by
    unfold Meets recovering at *
    cases he : reader c with
    | ok s c' =>
      simp only [he] at hr ⊢
      exact ⟨hr.1, fun _ => ⟨s, rfl, hr.2⟩⟩
    | error d c' =>
      simp only [he] at hr ⊢
      refine ⟨⟨(recover_suffix _).trans hr.rest, hr.nextSite, ?_⟩, by simp⟩
      exact hr.reported.trans (List.prefix_append _ _)
  refine .bind (hfirst.mono fun s c₁ _ hread => ?_)
  refine .bind ((hi c₁).mono fun ss c₂ hl₂ hss => .pure fun hquiet => ?_)
  obtain ⟨s, rfl, hs⟩ := hread (hl₂.quiet hquiet)
  exact hs.append hl₂ (fun ts h => hss.mono fun us h' => .declarations h h') hquiet

namespace ComposingReaders

variable {n : Nat} {c : Cursor}

theorem meets_declaration (ih : ComposingReaders n) :
    Meets (Reader.declaration (n + 1)) c (Took (Composes .declaration) c) := by
  rw [Reader.declaration]
  refine .bind (.take? ?_ fun keyword l hrest hkeyword => ?_)
  · refine .bind (.take? ?_ fun keyword l hrest hkeyword => ?_)
    · refine .bind (.take? ?_ fun keyword l hrest hkeyword => ?_)
      · refine (ih.statement c).mono fun s c' _ h => h.mono ?_
        rintro ts ⟨dangling, hs, -⟩
        exact .statement hs
      · refine (meets_varDeclaration_took hkeyword _).mono fun s c' _ h => .cons hrest ?_
        exact h.mono fun ts h => .var h
    · refine .map ((ih.routine .function _).mono fun r c' _ h => .cons hrest ?_)
      exact h.mono fun ts h => .function hkeyword h
  · exact (ih.classDeclaration keyword _ hkeyword).mono fun s c' _ h => .cons hrest h

theorem meets_classDeclaration (ih : ComposingReaders n) {keyword : Token}
    (hkeyword : keyword.kind = .keyword .class_) : Meets (Reader.classDeclaration (n + 1)) c
      (Took (fun ts => Composes .declaration (keyword :: ts)) c) := by
  rw [Reader.classDeclaration]
  refine .bind (.expectName fun name l hrest hname => ?_)
  refine .bind ((meets_superclass_took _).mono fun parent c₁ _ hparent => ?_)
  refine .bind (.expectMark fun opening l' hrest' hopening => ?_)
  refine .bind ((ih.methods _).mono fun methods c₂ hl₂ hmethods => ?_)
  refine .bind (.expectMark fun closing l'' hrest'' hclosing => .pure ?_)
  refine .cons hrest (hparent.append (Cursor.Leads.trans (.token hrest')
    (hl₂.trans (.token hrest''))) fun hs hhs => .cons hrest' (.snoc hrest'' ?_))
  exact hmethods.mono fun ms hms => .class_ hkeyword hname hhs hopening hms hclosing

theorem meets_methods (ih : ComposingReaders n) :
    Meets (Reader.methods (n + 1)) c (Took (Composes .routines) c) := by
  rw [Reader.methods]
  refine .bind (.isNext ?_)
  split
  · exact .pure (.nil .noRoutines)
  · refine .bind (.isAtEnd ?_)
    split
    · exact .pure (.nil .noRoutines)
    · refine .bind ((ih.routine .method c).mono fun r c₁ _ hr => ?_)
      refine .bind ((ih.methods c₁).mono fun rs c₂ hl₂ hrs => .pure ?_)
      exact hr.append hl₂ fun ts h => hrs.mono fun us h' => .routines h h'

theorem meets_routine (ih : ComposingReaders n) (kind : RoutineKind) :
    Meets (Reader.routine (n + 1) kind) c (Took (Composes .routine) c) := by
  rw [Reader.routine]
  refine .bind (.expectName fun name l₀ hrest₀ hname => ?_)
  refine .bind (.expectMark fun opening l₁ hrest₁ hopening => ?_)
  refine .bind ((meets_parameterList_took _).mono fun params c₁ _ hparams => ?_)
  refine .bind (.expectMark fun closing l₂ hrest₂ hclosing => ?_)
  refine .bind (.expectMark fun brace l₃ hrest₃ hbrace => ?_)
  refine .bind ((ih.block brace _ hbrace).mono fun body c₂ hl₂ hbody => .pure ?_)
  refine .cons hrest₀ (.cons hrest₁ (hparams.append ?_ fun ps hps => ?_))
  · exact (Cursor.Leads.token hrest₂).trans (.trans (.token hrest₃) hl₂)
  · refine .cons hrest₂ (.cons hrest₃ (hbody.mono fun bs hbs => ?_))
    exact .routine hname hopening hps hclosing hbs

theorem meets_statement (ih : ComposingReaders n) :
    Meets (Reader.statement (n + 1)) c (TookStatement c) := by
  -- A statement that cannot end with an `if` may be followed by anything.
  have hclosed : ∀ {s : Stmt} {c' : Cursor}, Took (Composes (.statement false)) c s c' →
      TookStatement c s c' := fun h => h.mono fun ts hs => ⟨false, hs, nofun⟩
  rw [Reader.statement]
  refine .bind (.take? ?_ fun keyword l hrest hkeyword => ?forLoop)
  refine .bind (.take? ?_ fun keyword l hrest hkeyword => ?branch)
  refine .bind (.take? ?_ fun keyword l hrest hkeyword => ?print)
  refine .bind (.take? ?_ fun keyword l hrest hkeyword => ?returning)
  refine .bind (.take? ?_ fun keyword l hrest hkeyword => ?whileLoop)
  refine .bind (.take? ?_ fun opening l hrest hopening => ?block)
  · refine (meets_expressionStatement_took c).mono fun s c' _ h => hclosed ?_
    exact h.mono fun ts h => .expression h
  case block =>
    refine .bind ((ih.block opening _ hopening).mono fun body c₁ _ h => .pure (hclosed ?_))
    exact .cons hrest (h.mono fun ts h => .braces h)
  case whileLoop =>
    refine .bind ((meets_condition_took _ _ _).mono fun e c₁ _ he => ?_)
    refine .bind ((ih.statement c₁).mono fun s c₂ hl₂ hs => .pure ?_)
    refine .cons hrest (he.append hl₂ fun cs hcs => hs.mono ?_)
    rintro bs ⟨dangling, hbs, hnext⟩
    exact ⟨dangling, .while_ hkeyword hcs hbs, hnext⟩
  case returning =>
    exact (meets_returnStatement_took hkeyword _).mono fun s c' _ h => hclosed (.cons hrest h)
  case print =>
    exact (meets_printStatement_took hkeyword _).mono fun s c' _ h => hclosed (.cons hrest h)
  case branch =>
    refine .bind ((meets_condition_took _ _ _).mono fun e c₁ _ he => ?_)
    refine .bind ((ih.statement c₁).mono fun s c₂ hl₂ hs => ?_)
    refine .bind (meets_take?_or_not (fun hnext => .pure ?_)
      fun otherwise l' hrest' hotherwise => ?_)
    · refine .cons hrest (he.append hl₂ fun cs hcs => hs.mono ?_)
      rintro ts ⟨dangling, hts, -⟩
      exact ⟨true, .if_ hkeyword hcs hts, fun _ => hnext⟩
    · refine .bind ((ih.statement _).mono fun s' c₃ hl₃ hs' => .pure ?_)
      have hl₃ : c₂.Leads c₃ := (Cursor.Leads.token hrest').trans hl₃
      refine .cons hrest (he.append (hl₂.trans hl₃) fun cs hcs => hs.append hl₃ ?_)
      rintro ts ⟨dangling, hts, hnext⟩
      -- The `else` follows, so that the statement before it does not end with an open `if`.
      obtain rfl : dangling = false := by
        by_contra hd
        simpa [hrest', hotherwise] using hnext (by simpa using hd)
      refine .cons hrest' (hs'.mono ?_)
      rintro es ⟨dangling', hes, hnext'⟩
      exact ⟨dangling', .ifElse hkeyword hcs hts hotherwise hes, hnext'⟩
  case forLoop =>
    refine .bind ((meets_forClauses_took _).mono fun clauses c₁ _ hclauses => ?_)
    obtain ⟨init, condition, increment⟩ := clauses
    refine .bind ((ih.statement c₁).mono fun s c₂ hl₂ hs => .pure ?_)
    refine .cons hrest (hclauses.append hl₂ fun cs hcs => hs.mono ?_)
    rintro bs ⟨dangling, hbs, hnext⟩
    exact ⟨dangling, forLoop_eq .. ▸ .for_ hkeyword hcs hbs, hnext⟩

theorem meets_block (ih : ComposingReaders n) {opening : Token}
    (hopening : opening.kind = .mark .leftBrace) : Meets (Reader.block (n + 1)) c
      (Took (fun ts => Composes .block (opening :: ts)) c) := by
  rw [Reader.block]
  refine .bind ((ih.blockItems c).mono fun body c₁ _ hbody => ?_)
  refine .bind (.expectMark fun closing l hrest hclosing => .pure (.snoc hrest ?_))
  exact hbody.mono fun ts h => .block hopening h hclosing

theorem meets_blockItems (ih : ComposingReaders n) :
    Meets (Reader.blockItems (n + 1)) c (Took (Composes .declarations) c) := by
  rw [Reader.blockItems]
  refine .bind (.isNext ?_)
  split
  · exact .pure (.nil .noDeclarations)
  · refine .bind (.isAtEnd ?_)
    split
    · exact .pure (.nil .noDeclarations)
    · exact meets_items_took (ih.declaration c) ih.blockItems

end ComposingReaders

theorem composingReaders (n : Nat) : ComposingReaders n := by
  induction n with
  | zero =>
    constructor <;> intros
    · rw [declaration]; exact .fail _
    · rw [classDeclaration]; exact .fail _
    · rw [methods]; exact .fail _
    · rw [routine]; exact .fail _
    · rw [statement]; exact .fail _
    · rw [block]; exact .fail _
    · rw [blockItems]; exact .pure (.nil .noDeclarations)
  | succ n ih =>
    exact ⟨fun _ => ih.meets_declaration, fun _ _ h => ih.meets_classDeclaration h,
      fun _ => ih.meets_methods, fun kind _ => ih.meets_routine kind,
      fun _ => ih.meets_statement, fun _ _ h => ih.meets_block h, fun _ => ih.meets_blockItems⟩

theorem meets_declarations_took (n : Nat) (c : Cursor) :
    Meets (declarations n) c (Took (Composes .declarations) c) := by
  induction n generalizing c with
  | zero => exact .pure (.nil .noDeclarations)
  | succ n ih =>
    rw [declarations]
    refine .bind (.isAtEnd ?_)
    split
    · exact .pure (.nil .noDeclarations)
    · exact meets_items_took (((composingReaders c.depth).declaration c).congr rfl) ih

end Reader

end LoxLang.Grammar
