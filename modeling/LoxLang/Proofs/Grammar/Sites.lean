import LoxLang.Grammar.Statement
import LoxLang.Proofs.Grammar.Reader
import Mathlib.Data.List.Nodup

/-!
# What is read

The uses of names in what a reader yields have different sites, all of them handed out while it was
read, and the statements that are read are regular. If no fault is reported, one site is handed out
for each use and one more for each assignment.
-/

namespace LoxLang.Grammar

/-! ## Fresh uses -/

/-- Uses with different sites in a range, of names that are not reserved words. -/
structure Fresh (lo hi : Nat) (us : List Use) : Prop where
  bounds : ∀ u ∈ us, lo ≤ u.site ∧ u.site < hi
  nodup : (us.map (·.site)).Nodup
  ordinary : ∀ u ∈ us, u.IsOrdinary

namespace Fresh

variable {lo mid hi : Nat} {us vs : List Use}

theorem nil : Fresh lo hi [] := ⟨by simp, by simp, by simp⟩

theorem mono {lo' hi' : Nat} (h : Fresh lo hi us) (hlo : lo' ≤ lo) (hhi : hi ≤ hi') :
    Fresh lo' hi' us := by
  refine ⟨fun u hu => ?_, h.nodup, h.ordinary⟩
  obtain ⟨hl, hh⟩ := h.bounds u hu
  exact ⟨Nat.le_trans hlo hl, Nat.lt_of_lt_of_le hh hhi⟩

theorem sublist (h : Fresh lo hi us) (hs : vs.Sublist us) : Fresh lo hi vs :=
  ⟨fun u hu => h.bounds u (hs.subset hu), h.nodup.sublist (hs.map _),
    fun u hu => h.ordinary u (hs.subset hu)⟩

theorem perm (h : Fresh lo hi us) (hp : us.Perm vs) : Fresh lo hi vs :=
  ⟨fun u hu => h.bounds u (hp.mem_iff.mpr hu), (hp.map _).nodup_iff.mp h.nodup,
    fun u hu => h.ordinary u (hp.mem_iff.mpr hu)⟩

theorem append (h : Fresh lo mid us) (h' : Fresh mid hi vs) (hlo : lo ≤ mid) (hhi : mid ≤ hi) :
    Fresh lo hi (us ++ vs) := by
  refine ⟨fun u hu => ?_, ?_, fun u hu => ?_⟩
  · rcases List.mem_append.mp hu with hu | hu
    · exact (h.mono (Nat.le_refl _) hhi).bounds u hu
    · exact (h'.mono hlo (Nat.le_refl _)).bounds u hu
  · rw [List.map_append]
    refine h.nodup.append h'.nodup fun site hs hs' => ?_
    obtain ⟨u, hu, rfl⟩ := List.mem_map.mp hs
    obtain ⟨v, hv, he⟩ := List.mem_map.mp hs'
    have hlt : u.site < v.site := Nat.lt_of_lt_of_le (h.bounds u hu).2 (h'.bounds v hv).1
    exact Nat.ne_of_lt hlt he.symm
  · rcases List.mem_append.mp hu with hu | hu
    · exact h.ordinary u hu
    · exact h'.ordinary u hu

/-- What is read later may stand first. -/
theorem append_swap (h : Fresh lo mid us) (h' : Fresh mid hi vs) (hlo : lo ≤ mid)
    (hhi : mid ≤ hi) : Fresh lo hi (vs ++ us) :=
  (h.append h' hlo hhi).perm List.perm_append_comm

theorem single {u : Use} (h : u.IsOrdinary) : Fresh u.site (u.site + 1) [u] :=
  ⟨by simp, by simp, by simpa using h⟩

end Fresh

/-! ## Sites spent -/

/-- The number of sites handed out for uses. The target of an assignment is first read as a
variable, whose site is then given up. -/
def spent (us : List Use) : Nat :=
  us.countP (·.kind ≠ .assign) + 2 * us.countP (·.kind = .assign)

theorem spent_single (u : Use) : spent [u] = if u.kind = .assign then 2 else 1 := by
  split <;> simp_all [spent]

@[simp] theorem spent_append (us vs : List Use) : spent (us ++ vs) = spent us + spent vs := by
  simp only [spent, List.countP_append]
  omega

theorem spent_perm {us vs : List Use} (h : us.Perm vs) : spent us = spent vs := by
  simp only [spent, h.countP_eq]

namespace Reader

/-! ## Expressions -/

/-- The uses of what was read are fresh, and without faults the sites were spent on them. -/
def NewUses (c : Cursor) (us : List Use) (c' : Cursor) : Prop :=
  Fresh c.nextSite c'.nextSite us ∧ (c'.reported = [] → c'.nextSite = c.nextSite + spent us)

/-- The uses that were read so far stay fresh together with those read next, and without faults the
sites were spent on the latter. -/
def MoreUses (c : Cursor) (us vs : List Use) (c' : Cursor) : Prop :=
  (∀ lo ≤ c.nextSite, Fresh lo c.nextSite us → Fresh lo c'.nextSite vs) ∧
    (c'.reported = [] → c'.nextSite + spent us = c.nextSite + spent vs)

namespace NewUses

variable {c c₁ c₂ : Cursor} {us vs : List Use}

theorem nil : NewUses c [] c := ⟨.nil, fun _ => rfl⟩

theorem append (h : NewUses c us c₁) (h' : NewUses c₁ vs c₂) (hl : c.Leads c₁)
    (hl' : c₁.Leads c₂) : NewUses c (us ++ vs) c₂ := by
  refine ⟨h.1.append h'.1 hl.nextSite hl'.nextSite, fun hquiet => ?_⟩
  have hfirst := h.2 (hl'.quiet hquiet)
  have hsecond := h'.2 hquiet
  grind [spent_append]

theorem more (h : NewUses c us c₁) (h' : MoreUses c₁ us vs c₂) (hl : c.Leads c₁)
    (hl' : c₁.Leads c₂) : NewUses c vs c₂ := by
  refine ⟨h'.1 _ hl.nextSite h.1, fun hquiet => ?_⟩
  have hfirst := h.2 (hl'.quiet hquiet)
  have hsecond := h'.2 hquiet
  grind

theorem perm (h : NewUses c us c₁) (hp : us.Perm vs) : NewUses c vs c₁ :=
  ⟨h.1.perm hp, spent_perm hp ▸ h.2⟩

/-- Only the sites handed out before count. -/
theorem of_nextSite_eq (h : NewUses c us c₂) (he : c.nextSite = c₁.nextSite) :
    NewUses c₁ us c₂ := by
  unfold NewUses at h ⊢
  rwa [← he]

/-- A use of a fresh site that is not an assignment. -/
theorem site {kind : Use.Kind} {name : Name} (h : Use.IsOrdinary ⟨c.nextSite, kind, name⟩)
    (hk : kind ≠ .assign) :
    NewUses c [⟨c.nextSite, kind, name⟩] { c with nextSite := c.nextSite + 1 } := by
  refine ⟨Fresh.single (u := ⟨c.nextSite, kind, name⟩) h, fun _ => ?_⟩
  simp [spent_single, hk]

end NewUses

namespace MoreUses

variable {c c₁ c₂ : Cursor} {us vs ws : List Use}

theorem refl : MoreUses c us us c := ⟨fun _ _ h => h, fun _ => rfl⟩

theorem append (h : NewUses c vs c₁) (hl : c.Leads c₁) : MoreUses c us (us ++ vs) c₁ := by
  refine ⟨fun _ hlo hus => hus.append h.1 hlo hl.nextSite, fun hquiet => ?_⟩
  have hspent := h.2 hquiet
  grind [spent_append]

theorem trans (h : MoreUses c us vs c₁) (h' : MoreUses c₁ vs ws c₂) (hl : c.Leads c₁)
    (hl' : c₁.Leads c₂) : MoreUses c us ws c₂ := by
  refine ⟨fun lo hlo hus => h'.1 lo (Nat.le_trans hlo hl.nextSite) (h.1 lo hlo hus),
    fun hquiet => ?_⟩
  have hfirst := h.2 (hl'.quiet hquiet)
  have hsecond := h'.2 hquiet
  grind

end MoreUses

theorem Operator.uses_apply (op : Operator) (line : Nat) (left right : Expr) :
    (op.apply line left right).uses = left.uses ++ right.uses := by
  cases op <;> simp [Operator.apply, Expr.uses]

theorem meets_assignTo {c : Cursor} {sign : Token} {value target : Expr} :
    Meets (assignTo sign value target) c fun e c' =>
      MoreUses c (target.uses ++ value.uses) e.uses c' := by
  unfold assignTo
  split
  · next site name =>
    refine .bind (.freshSite (.pure ⟨fun lo hlo h => ?_, fun _ => ?_⟩))
    · -- The site of the target is given up for a new one.
      have hname := h.ordinary ⟨site, .variable, name⟩ (by simp [Expr.uses]) (.inl rfl)
      have hvalue : Fresh lo c.nextSite value.uses := h.sublist (List.sublist_append_right _ _)
      have hsite : Fresh c.nextSite (c.nextSite + 1) [⟨c.nextSite, .assign, name⟩] :=
        .single (u := ⟨c.nextSite, .assign, name⟩) fun _ => hname
      exact hvalue.append_swap hsite hlo (Nat.le_succ _)
    · have hassign : (Expr.assign c.nextSite name value).uses =
          [⟨c.nextSite, .assign, name⟩] ++ value.uses := rfl
      grind [Expr.uses, spent_append, spent_single]
  · refine .pure ⟨fun lo hlo h => by simpa [Expr.uses] using h, fun _ => by simp [Expr.uses]⟩
  · refine .bind (.report (.pure ⟨fun lo hlo h => ?_, fun hquiet => ?_⟩))
    · exact h.sublist (List.sublist_append_left _ _)
    · simp at hquiet

theorem arguments_succ (n count : Nat) : Reader.arguments (n + 1) count =
    if maxArity ≤ count then
      reportHere .tooManyArguments >>= fun _ =>
        commaList (Reader.assignment n) (Reader.arguments n (count + 1))
    else commaList (Reader.assignment n) (Reader.arguments n (count + 1)) := by
  rw [Reader.arguments]
  rfl

/-- What the readers of expressions promise when they nest at most `n` deep. -/
structure ExpressionReaders (n : Nat) : Prop where
  assignment : ∀ c : Cursor, c.Ordinary →
    Meets (assignment n) c fun e c' => NewUses c e.uses c'
  operation : ∀ (ts : List Tier) (c : Cursor), c.Ordinary →
    Meets (operation n ts) c fun e c' => NewUses c e.uses c'
  operationRest : ∀ (t : Tier) (ts : List Tier) (left : Expr) (c : Cursor), c.Ordinary →
    Meets (operationRest n t ts left) c fun e c' => MoreUses c left.uses e.uses c'
  unary : ∀ c : Cursor, c.Ordinary → Meets (unary n) c fun e c' => NewUses c e.uses c'
  callRest : ∀ (e : Expr) (c : Cursor), c.Ordinary →
    Meets (callRest n e) c fun e' c' => MoreUses c e.uses e'.uses c'
  arguments : ∀ (count : Nat) (c : Cursor), c.Ordinary →
    Meets (arguments n count) c fun es c' => NewUses c (Expr.argsUses es) c'
  primary : ∀ c : Cursor, c.Ordinary → Meets (primary n) c fun e c' => NewUses c e.uses c'

namespace ExpressionReaders

variable {n : Nat} {c : Cursor}

theorem meets_assignment (ih : ExpressionReaders n) (hc : c.Ordinary) :
    Meets (Reader.assignment (n + 1)) c fun e c' => NewUses c e.uses c' := by
  rw [Reader.assignment]
  refine .bind ((ih.operation _ c hc).mono fun target c₁ hl₁ htarget => ?_)
  refine .bind (.take? (.pure htarget) fun sign l hrest _ => ?_)
  have hl₂ : c₁.Leads { c₁ with rest := l } := .token hrest
  refine .bind ((ih.assignment _ ((hc.leads hl₁).leads hl₂)).mono fun value c₂ hl₃ hvalue => ?_)
  refine meets_assignTo.mono fun e c' hl₄ he => ?_
  have hvalue : NewUses c₁ value.uses c₂ := hvalue
  have hboth := htarget.append hvalue hl₁ (hl₂.trans hl₃)
  exact hboth.more he ((hl₁.trans hl₂).trans hl₃) hl₄

theorem meets_operation (ih : ExpressionReaders n) (ts : List Tier) (hc : c.Ordinary) :
    Meets (Reader.operation (n + 1) ts) c fun e c' => NewUses c e.uses c' := by
  cases ts with
  | nil =>
    rw [Reader.operation]
    exact ih.unary c hc
  | cons t ts =>
    rw [Reader.operation]
    refine .bind ((ih.operation ts c hc).mono fun left c₁ hl hleft => ?_)
    exact (ih.operationRest t ts left c₁ (hc.leads hl)).mono fun e c' hl' he =>
      hleft.more he hl hl'

theorem meets_operationRest (ih : ExpressionReaders n) (t : Tier) (ts : List Tier) (left : Expr)
    (hc : c.Ordinary) : Meets (Reader.operationRest (n + 1) t ts left) c
      fun e c' => MoreUses c left.uses e.uses c' := by
  rw [Reader.operationRest]
  refine .bind (.takeIf? (.pure .refl) fun token l a hrest _ => ?_)
  have hl₁ : c.Leads { c with rest := l } := .token hrest
  refine .bind ((ih.operation ts _ (hc.leads hl₁)).mono fun right c₁ hl₂ hright => ?_)
  refine (ih.operationRest t ts _ c₁ ((hc.leads hl₁).leads hl₂)).mono fun e c' hl₃ he => ?_
  rw [Operator.uses_apply] at he
  exact (MoreUses.append (c := c) hright (hl₁.trans hl₂)).trans he (hl₁.trans hl₂) hl₃

theorem meets_unary (ih : ExpressionReaders n) (hc : c.Ordinary) :
    Meets (Reader.unary (n + 1)) c fun e c' => NewUses c e.uses c' := by
  rw [Reader.unary]
  refine .bind (.takeIf? ?_ fun token l a hrest _ => ?_)
  · refine .bind ((ih.primary c hc).mono fun e c₁ hl he => ?_)
    exact (ih.callRest e c₁ (hc.leads hl)).mono fun e' c' hl' he' => he.more he' hl hl'
  · have hl₁ : c.Leads { c with rest := l } := .token hrest
    refine .bind ((ih.unary _ (hc.leads hl₁)).mono fun operand c₁ _ ho => ?_)
    exact .pure ho

theorem meets_callRest (ih : ExpressionReaders n) (e : Expr) (hc : c.Ordinary) :
    Meets (Reader.callRest (n + 1) e) c fun e' c' => MoreUses c e.uses e'.uses c' := by
  rw [Reader.callRest]
  refine .bind (.take? ?_ fun open_ l hrest _ => ?_)
  · refine .bind (.take? (.pure .refl) fun dot l hrest _ => ?_)
    have hl₁ : c.Leads { c with rest := l } := .token hrest
    refine .bind (.expectName fun t l' hrest' _ => ?_)
    have hl₂ : c.Leads { c with rest := l' } := hl₁.trans (.token hrest')
    exact ih.callRest (.get e _) _ (hc.leads hl₂)
  · have hl₁ : c.Leads { c with rest := l } := .token hrest
    -- What follows the arguments is the same whether there are any or not.
    have hafter : ∀ (args : List Expr) (c₁ : Cursor), Cursor.Leads { c with rest := l } c₁ →
        NewUses c (Expr.argsUses args) c₁ → Meets (do
          let paren ← Reader.expectMark .rightParen .argumentsEnd
          Reader.callRest n (.call e paren.line args)) c₁
            fun e' c' => MoreUses c e.uses e'.uses c' := by
      intro args c₁ hl₂ hargs
      refine .bind (.expectMark fun paren l' hrest' _ => ?_)
      have hl₃ : c.Leads { c₁ with rest := l' } :=
        (hl₁.trans hl₂).trans (.token hrest')
      refine (ih.callRest (.call e paren.line args) _ (hc.leads hl₃)).mono fun e' c' hl₄ he => ?_
      rw [Expr.uses] at he
      have hmore : MoreUses c e.uses (e.uses ++ Expr.argsUses args) { c₁ with rest := l' } :=
        .append hargs hl₃
      exact hmore.trans he hl₃ hl₄
    refine .bind (.isNext ?_)
    dsimp only
    split
    · exact .bind (.pure (hafter [] _ (.refl _) .nil))
    · exact .bind ((ih.arguments 0 _ (hc.leads hl₁)).mono hafter)

theorem meets_arguments (ih : ExpressionReaders n) (count : Nat) (hc : c.Ordinary) :
    Meets (Reader.arguments (n + 1) count) c fun es c' => NewUses c (Expr.argsUses es) c' := by
  have hitems : ∀ c₀ : Cursor, c₀.Ordinary →
      Meets (commaList (Reader.assignment n) (Reader.arguments n (count + 1))) c₀
        fun es c' => NewUses c₀ (Expr.argsUses es) c' := by
    refine fun c₀ hc₀ => .commaList ((ih.assignment c₀ hc₀).mono fun e c₁ hl₁ he => ?_)
    refine ⟨by simpa [Expr.argsUses] using he, fun comma l hrest _ => ?_⟩
    have hl₂ : c₁.Leads { c₁ with rest := l } := .token hrest
    refine (ih.arguments _ _ ((hc₀.leads hl₁).leads hl₂)).mono fun es c₂ hl₃ hes => ?_
    have hes : NewUses c₁ (Expr.argsUses es) c₂ := hes
    exact he.append hes hl₁ (hl₂.trans hl₃)
  rw [arguments_succ]
  split
  · refine .bind (.reportHere ?_)
    exact hitems { c with reported := _ } hc
  · exact hitems c hc

theorem meets_primary (ih : ExpressionReaders n) (hc : c.Ordinary) :
    Meets (Reader.primary (n + 1)) c fun e c' => NewUses c e.uses c' := by
  rw [Reader.primary]
  refine .bind (.takeIf? ?_ fun token l value _ _ => .pure .nil)
  refine .bind (.take? ?_ fun keyword l _ _ => ?_)
  · refine .bind (.take? ?_ fun keyword l _ _ => ?_)
    · refine .bind (.take? ?_ fun token l hrest hk => ?_)
      · refine .bind (.take? (.fail _) fun paren l hrest _ => ?_)
        have hl : c.Leads { c with rest := l } := .token hrest
        refine .bind ((ih.assignment _ (hc.leads hl)).mono fun inner c₁ _ hinner => ?_)
        exact .bind (.expectMark fun _ _ _ _ => .pure hinner)
      · have hname := hc token (by simp [hrest]) hk
        exact .bind (.freshSite (.pure (.site (c := c) (fun _ => hname) (by decide))))
    · exact .bind (.freshSite (.pure (.site (c := c) (by simp [Use.IsOrdinary]) (by decide))))
  · refine .bind (.expectMark fun _ _ _ _ => .bind (.expectName fun _ _ _ _ => ?_))
    exact .bind (.freshSite (.pure (.site (c := c) (by simp [Use.IsOrdinary]) (by decide))))

end ExpressionReaders

theorem expressionReaders (n : Nat) : ExpressionReaders n := by
  induction n with
  | zero =>
    constructor <;> intros
    · rw [assignment]; exact .fail _
    · rw [operation]; exact .fail _
    · rw [operationRest]; exact .fail _
    · rw [unary]; exact .fail _
    · rw [callRest]; exact .fail _
    · rw [arguments]; exact .fail _
    · rw [primary]; exact .fail _
  | succ n ih =>
    exact ⟨fun _ hc => ih.meets_assignment hc, fun ts _ hc => ih.meets_operation ts hc,
      fun t ts left _ hc => ih.meets_operationRest t ts left hc, fun _ hc => ih.meets_unary hc,
      fun e _ hc => ih.meets_callRest e hc, fun count _ hc => ih.meets_arguments count hc,
      fun _ hc => ih.meets_primary hc⟩

theorem expression_apply (c : Cursor) : expression c = assignment c.depth c := rfl

theorem meets_expression {c : Cursor} (hc : c.Ordinary) :
    Meets expression c fun e c' => NewUses c e.uses c' := by
  have h := (expressionReaders c.depth).assignment c hc
  exact h.congr (expression_apply c).symm

/-! ## Statements -/

/-- A statement that was read has fresh uses and is regular. -/
def NewStmt (c : Cursor) (s : Stmt) (c' : Cursor) : Prop := NewUses c s.uses c' ∧ s.Regular

theorem meets_expressionUnless {m : Mark} {c : Cursor} (hc : c.Ordinary) :
    Meets (expressionUnless m) c fun e c' => NewUses c (Expr.optionUses e) c' := by
  unfold expressionUnless
  refine .bind (.isNext ?_)
  split
  · exact .pure .nil
  · exact .bind ((meets_expression hc).mono fun e c' _ he => .pure he)

theorem meets_expressionStatement {c : Cursor} (hc : c.Ordinary) :
    Meets expressionStatement c fun s c' => NewStmt c s c' ∧ s.declared? = none := by
  unfold expressionStatement
  refine .bind ((meets_expression hc).mono fun e c₁ _ he => ?_)
  exact .bind (.expectMark fun _ _ _ _ => .pure ⟨⟨he, trivial⟩, rfl⟩)

theorem meets_printStatement {c : Cursor} (hc : c.Ordinary) :
    Meets printStatement c fun s c' => NewStmt c s c' ∧ s.declared? = none := by
  unfold printStatement
  refine .bind ((meets_expression hc).mono fun e c₁ _ he => ?_)
  exact .bind (.expectMark fun _ _ _ _ => .pure ⟨⟨he, trivial⟩, rfl⟩)

theorem meets_returnStatement {line : Nat} {c : Cursor} (hc : c.Ordinary) :
    Meets (returnStatement line) c fun s c' => NewStmt c s c' ∧ s.declared? = none := by
  unfold returnStatement
  refine .bind ((meets_expressionUnless hc).mono fun e c₁ _ he => ?_)
  exact .bind (.expectMark fun _ _ _ _ => .pure ⟨⟨he, trivial⟩, rfl⟩)

theorem meets_varDeclaration {c : Cursor} (hc : c.Ordinary) :
    Meets varDeclaration c fun s c' => NewStmt c s c' := by
  unfold varDeclaration
  refine .bind (.expectName fun t l hrest hk => ?_)
  have hname := hc t (by simp [hrest]) hk
  have hl : c.Leads { c with rest := l } := .token hrest
  -- The semicolon is read in the same way with an initializer and without.
  have hend : ∀ (init : Option Expr) (c₁ : Cursor), NewUses c (Expr.optionUses init) c₁ →
      Meets (do
        let _ ← expectMark .semicolon .variableEnd
        return .var ⟨t.lexeme, t.line⟩ init) c₁ fun s c' => NewStmt c s c' :=
    fun init c₁ h => .bind (.expectMark fun _ _ _ _ => .pure ⟨h, hname⟩)
  refine .bind (.take? (.bind (.pure (hend none _ .nil))) fun equal l' hrest' _ => ?_)
  have hc' := hc.leads (hl.trans (.token hrest'))
  refine .bind ((meets_expression hc').mono fun e c₁ _ he => ?_)
  exact .bind (.pure (hend (some e) c₁ he))

theorem parameters_succ (n count : Nat) : parameters (n + 1) count =
    if maxArity ≤ count then
      reportHere .tooManyParameters >>= fun _ =>
        commaList (expectName .parameterName) (parameters n (count + 1))
    else commaList (expectName .parameterName) (parameters n (count + 1)) := by
  rw [parameters]
  rfl

theorem meets_parameters {n count : Nat} {c : Cursor} (hc : c.Ordinary) :
    Meets (parameters n count) c fun ps c' => (∀ p ∈ ps, p.IsOrdinary) ∧
      c'.nextSite = c.nextSite := by
  induction n generalizing count c with
  | zero => exact .fail _
  | succ n ih =>
    have hitems : ∀ c₀ : Cursor, c₀.Ordinary →
        Meets (commaList (expectName .parameterName) (parameters n (count + 1))) c₀
          fun ps c' => (∀ p ∈ ps, p.IsOrdinary) ∧ c'.nextSite = c₀.nextSite := by
      refine fun c₀ hc₀ => .commaList (.expectName fun t l hrest hk => ?_)
      have hname := hc₀ t (by simp [hrest]) hk
      refine ⟨⟨by simpa using hname, rfl⟩, fun comma l' hrest' _ => ?_⟩
      have hc' := (hc₀.leads (.token hrest)).leads (.token hrest')
      refine (ih hc').mono fun ps c' _ hps => ⟨?_, hps.2⟩
      simpa using ⟨hname, hps.1⟩
    rw [parameters_succ]
    split
    · refine .bind (.reportHere ?_)
      exact hitems { c with reported := _ } hc
    · exact hitems c hc

theorem meets_parameterList {c : Cursor} (hc : c.Ordinary) :
    Meets parameterList c fun ps c' => (∀ p ∈ ps, p.IsOrdinary) ∧ c'.nextSite = c.nextSite := by
  by_cases h : c.kind? = some (.mark .rightParen)
  · have he : (pure [] : Reader (List Name)) c = parameterList c := by
      simp [parameterList, h, pure, EStateM.pure]
    exact .congr (.pure ⟨by simp, rfl⟩) he
  · have he : parameters c.depth 0 c = parameterList c := by simp only [parameterList, if_neg h]
    exact (meets_parameters hc).congr he

/-- The uses in a statement that may be missing. -/
def optionalUses : Option Stmt → List Use
  | none => []
  | some s => s.uses

theorem meets_forClauses {c : Cursor} (hc : c.Ordinary) :
    Meets forClauses c fun r c' =>
      NewUses c (optionalUses r.1 ++ Expr.optionUses r.2.1 ++ Expr.optionUses r.2.2) c' ∧
        ∀ s ∈ r.1, s.Regular := by
  unfold forClauses
  refine .bind (.expectMark fun open_ l₀ hrest₀ _ => ?_)
  have hl₀ : c.Leads { c with rest := l₀ } := .token hrest₀
  -- What follows the first clause does not depend on its kind.
  have hafter : ∀ (init : Option Stmt) (c₁ : Cursor), c.Leads c₁ → NewUses c (optionalUses init) c₁ →
      (∀ s ∈ init, s.Regular) → Meets (do
        let condition ← expressionUnless .semicolon
        let _ ← expectMark .semicolon .forConditionEnd
        let increment ← expressionUnless .rightParen
        let _ ← expectMark .rightParen .forClausesEnd
        return (init, condition, increment)) c₁ fun r c' =>
          NewUses c (optionalUses r.1 ++ Expr.optionUses r.2.1 ++ Expr.optionUses r.2.2) c' ∧
            ∀ s ∈ r.1, s.Regular := by
    intro init c₁ hl₁ hinit hr
    refine .bind ((meets_expressionUnless (hc.leads hl₁)).mono fun cond c₂ hl₂ hcond => ?_)
    refine .bind (.expectMark fun _ l hrest _ => ?_)
    have hl₃ : c₁.Leads { c₂ with rest := l } := hl₂.trans (.token hrest)
    have hcond : NewUses c₁ (Expr.optionUses cond) { c₂ with rest := l } := hcond
    refine .bind ((meets_expressionUnless ((hc.leads hl₁).leads hl₃)).mono
      fun incr c₃ hl₄ hincr => ?_)
    have hall := (hinit.append hcond hl₁ hl₃).append hincr (hl₁.trans hl₃) hl₄
    exact .bind (.expectMark fun _ _ _ _ => .pure ⟨hall, hr⟩)
  refine .bind (.take? ?_ fun semicolon l hrest _ => ?_)
  · refine .bind (.take? ?_ fun var l hrest _ => ?_)
    · refine .bind (.map ((meets_expressionStatement (hc.leads hl₀)).mono fun s c₁ hl hs => ?_))
      exact hafter (some s) c₁ (hl₀.trans hl) hs.1.1 (by simpa using hs.1.2)
    · have hl₁ := hl₀.trans (.token hrest)
      refine .bind (.map ((meets_varDeclaration (hc.leads hl₁)).mono fun s c₁ hl hs => ?_))
      exact hafter (some s) c₁ (hl₁.trans hl) hs.1 (by simpa using hs.2)
  · exact .bind (.pure (hafter none _ (hl₀.trans (.token hrest)) .nil nofun))

theorem uses_forLoop_perm (init : Option Stmt) (cond incr : Option Expr) (body : Stmt) :
    (optionalUses init ++ Expr.optionUses cond ++ Expr.optionUses incr ++ body.uses).Perm
      (forLoop init cond incr body).uses := by
  have hcond : (cond.getD (.literal (.bool true))).uses = Expr.optionUses cond := by
    cases cond <;> rfl
  cases init <;> cases incr <;>
    simp [forLoop, optionalUses, Stmt.uses, Stmt.eachUses, Expr.optionUses, hcond,
      List.perm_append_left_iff, List.perm_append_comm]

theorem regular_forLoop {init : Option Stmt} (cond incr : Option Expr) {body : Stmt}
    (hi : ∀ s ∈ init, s.Regular) (hb : body.Regular) (hd : body.declared? = none) :
    (forLoop init cond incr body).Regular ∧ (forLoop init cond incr body).declared? = none := by
  cases init <;> cases incr <;>
    simp_all [forLoop, Stmt.Regular, Stmt.EachRegular, Stmt.declared?]

theorem meets_condition {opening closing : Expected} {c : Cursor} (hc : c.Ordinary) :
    Meets (condition opening closing) c fun e c' => NewUses c e.uses c' := by
  unfold condition
  refine .bind (.expectMark fun _ l hrest _ => ?_)
  refine .bind ((meets_expression (hc.leads (.token hrest))).mono fun e c₁ _ he => ?_)
  exact .bind (.expectMark fun _ _ _ _ => .pure he)

theorem meets_superclass {c : Cursor} (hc : c.Ordinary) :
    Meets superclass c fun parent c' => NewUses c (parent.map (·.use)).toList c' := by
  unfold superclass
  refine .bind (.take? (.pure .nil) fun _ l hrest _ => ?_)
  refine .bind (.expectName fun t l' hrest' hk => ?_)
  have hname := (hc.leads (.token hrest)) t (hrest' ▸ List.mem_cons_self) hk
  exact .bind (.freshSite (.pure (.site (c := c) (fun _ => hname) (by decide))))

/-- What the readers of statements promise when they nest at most `n` deep. -/
structure StatementReaders (n : Nat) : Prop where
  declaration : ∀ c : Cursor, c.Ordinary → Meets (declaration n) c fun s c' => NewStmt c s c'
  classDeclaration : ∀ c : Cursor, c.Ordinary →
    Meets (classDeclaration n) c fun s c' => NewStmt c s c'
  methods : ∀ c : Cursor, c.Ordinary → Meets (methods n) c fun rs c' =>
    NewUses c (Routine.eachUses rs) c' ∧ Routine.EachRegular rs
  routine : ∀ (kind : RoutineKind) (c : Cursor), c.Ordinary → Meets (routine n kind) c fun r c' =>
    NewUses c r.uses c' ∧ r.name.IsOrdinary ∧ r.Regular
  statement : ∀ c : Cursor, c.Ordinary →
    Meets (statement n) c fun s c' => NewStmt c s c' ∧ s.declared? = none
  block : ∀ c : Cursor, c.Ordinary → Meets (block n) c fun ss c' =>
    NewUses c (Stmt.eachUses ss) c' ∧ Stmt.EachRegular ss
  blockItems : ∀ c : Cursor, c.Ordinary → Meets (blockItems n) c fun ss c' =>
    NewUses c (Stmt.eachUses ss) c' ∧ Stmt.EachRegular ss

theorem skipToBorder_suffix (last : Token) (ts : List Token) : skipToBorder last ts <:+ ts := by
  induction ts generalizing last with
  | nil => exact List.suffix_refl _
  | cons t rest ih =>
    rw [skipToBorder]
    split
    · exact List.suffix_refl _
    · exact (ih t).trans (List.suffix_cons t rest)

theorem recover_suffix (ts : List Token) : recover ts <:+ ts := by
  cases ts with
  | nil => exact List.suffix_refl _
  | cons t rest => exact (skipToBorder_suffix t rest).trans (List.suffix_cons t rest)

/-- A declaration that may be dropped, and the declarations after it. -/
theorem meets_items {reader : Reader Stmt} {items : Reader (List Stmt)} {c : Cursor}
    (hc : c.Ordinary) (hr : Meets reader c fun s c' => NewStmt c s c')
    (hi : ∀ c' : Cursor, c'.Ordinary → Meets items c' fun ss c'' =>
      NewUses c' (Stmt.eachUses ss) c'' ∧ Stmt.EachRegular ss) :
    Meets (do
      let s ← recovering reader
      return s.toList ++ (← items)) c fun ss c' =>
        NewUses c (Stmt.eachUses ss) c' ∧ Stmt.EachRegular ss := by
  have hfirst : Meets (recovering reader) c fun s c' =>
      NewUses c (optionalUses s) c' ∧ ∀ t ∈ s, t.Regular := by
    unfold Meets recovering at *
    cases he : reader c with
    | ok s c' =>
      simp only [he] at hr ⊢
      exact ⟨hr.1, hr.2.1, by simpa using hr.2.2⟩
    | error d c' =>
      simp only [he] at hr ⊢
      refine ⟨⟨(recover_suffix _).trans hr.rest, hr.nextSite, ?_⟩, ⟨.nil, ?_⟩, nofun⟩
      · exact hr.reported.trans (List.prefix_append _ _)
      · intro hquiet
        simp at hquiet
  refine .bind (hfirst.mono fun s c₁ hl₁ hs => ?_)
  refine .bind ((hi c₁ (hc.leads hl₁)).mono fun ss c₂ hl₂ hss => .pure ?_)
  cases s with
  | none => exact ⟨hs.1.append hss.1 hl₁ hl₂, hss.2⟩
  | some s => exact ⟨hs.1.append hss.1 hl₁ hl₂, hs.2 s rfl, hss.2⟩

namespace StatementReaders

variable {n : Nat} {c : Cursor}

theorem meets_declaration (ih : StatementReaders n) (hc : c.Ordinary) :
    Meets (Reader.declaration (n + 1)) c fun s c' => NewStmt c s c' := by
  rw [Reader.declaration]
  refine .bind (.take? ?_ fun keyword l hrest _ => ?_)
  · refine .bind (.take? ?_ fun keyword l hrest _ => ?_)
    · refine .bind (.take? ?_ fun keyword l hrest _ => ?_)
      · exact (ih.statement c hc).mono fun s c' _ h => h.1
      · exact meets_varDeclaration (hc.leads (.token hrest))
    · refine .map ((ih.routine .function _ (hc.leads (.token hrest))).mono fun r c' _ h => ?_)
      exact ⟨h.1, h.2⟩
  · exact ih.classDeclaration _ (hc.leads (.token hrest))

theorem meets_classDeclaration (ih : StatementReaders n) (hc : c.Ordinary) :
    Meets (Reader.classDeclaration (n + 1)) c fun s c' => NewStmt c s c' := by
  rw [Reader.classDeclaration]
  refine .bind (.expectName fun t l hrest hk => ?_)
  have hname := hc t (by simp [hrest]) hk
  have hl₁ : c.Leads { c with rest := l } := .token hrest
  refine .bind ((meets_superclass (hc.leads hl₁)).mono fun parent c₁ hl₂ hparent => ?_)
  refine .bind (.expectMark fun _ l' hrest' _ => ?_)
  have hl₃ : c.Leads { c₁ with rest := l' } := (hl₁.trans hl₂).trans (.token hrest')
  have hparent : NewUses c (parent.map (·.use)).toList { c₁ with rest := l' } := hparent
  refine .bind ((ih.methods _ (hc.leads hl₃)).mono fun rs c₂ hl₄ hrs => ?_)
  have hall := hparent.append hrs.1 hl₃ hl₄
  exact .bind (.expectMark fun _ _ _ _ => .pure ⟨hall, hname, hrs.2⟩)

theorem meets_methods (ih : StatementReaders n) (hc : c.Ordinary) :
    Meets (Reader.methods (n + 1)) c fun rs c' =>
      NewUses c (Routine.eachUses rs) c' ∧ Routine.EachRegular rs := by
  rw [Reader.methods]
  refine .bind (.isNext ?_)
  split
  · exact .pure ⟨.nil, trivial⟩
  · refine .bind (.isAtEnd ?_)
    split
    · exact .pure ⟨.nil, trivial⟩
    · refine .bind ((ih.routine .method c hc).mono fun r c₁ hl₁ hr => ?_)
      refine .bind ((ih.methods c₁ (hc.leads hl₁)).mono fun rs c₂ hl₂ hrs => .pure ?_)
      exact ⟨hr.1.append hrs.1 hl₁ hl₂, hr.2.2, hrs.2⟩

theorem meets_routine (ih : StatementReaders n) (kind : RoutineKind) (hc : c.Ordinary) :
    Meets (Reader.routine (n + 1) kind) c fun r c' =>
      NewUses c r.uses c' ∧ r.name.IsOrdinary ∧ r.Regular := by
  rw [Reader.routine]
  refine .bind (.expectName fun t l hrest hk => ?_)
  have hname := hc t (by simp [hrest]) hk
  have hl₁ : c.Leads { c with rest := l } := .token hrest
  refine .bind (.expectMark fun _ l₁ hrest₁ _ => ?_)
  have hl₂ : c.Leads { c with rest := l₁ } := hl₁.trans (.token hrest₁)
  refine .bind ((meets_parameterList (hc.leads hl₂)).mono fun ps c₁ hl₃ hps => ?_)
  refine .bind (.expectMark fun _ l₂ hrest₂ _ => .bind (.expectMark fun _ l₃ hrest₃ _ => ?_))
  have hl₄ : c₁.Leads { c₁ with rest := l₃ } :=
    Cursor.Leads.trans (.token hrest₂) (.token hrest₃)
  have hc₃ := ((hc.leads hl₂).leads hl₃).leads hl₄
  refine .bind ((ih.block _ hc₃).mono fun body c₂ _ hbody => .pure ⟨?_, hname, hps.1, hbody.2⟩)
  exact hbody.1.of_nextSite_eq hps.2

theorem meets_statement (ih : StatementReaders n) (hc : c.Ordinary) :
    Meets (Reader.statement (n + 1)) c fun s c' => NewStmt c s c' ∧ s.declared? = none := by
  rw [Reader.statement]
  -- The reserved words are tried one after the other.
  refine .bind (.take? ?_ fun _ l hrest _ => ?forLoop)
  refine .bind (.take? ?_ fun _ l hrest _ => ?branch)
  refine .bind (.take? ?_ fun _ l hrest _ => ?print)
  refine .bind (.take? ?_ fun keyword l hrest _ => ?returning)
  refine .bind (.take? ?_ fun _ l hrest _ => ?whileLoop)
  refine .bind (.take? (meets_expressionStatement hc) fun _ l hrest _ => ?block)
  all_goals have hl₁ : c.Leads { c with rest := l } := .token hrest
  case block =>
    refine .bind ((ih.block _ (hc.leads hl₁)).mono fun body c₁ _ h => .pure ⟨?_, rfl⟩)
    exact ⟨h.1, h.2⟩
  case whileLoop =>
    refine .bind ((meets_condition (hc.leads hl₁)).mono fun e c₁ hl₂ he => ?_)
    have he : NewUses c e.uses c₁ := he
    refine .bind ((ih.statement c₁ (hc.leads (hl₁.trans hl₂))).mono fun s c₂ hl₃ hs => ?_)
    exact .pure ⟨⟨he.append hs.1.1 (hl₁.trans hl₂) hl₃, hs.2, hs.1.2⟩, rfl⟩
  case returning => exact meets_returnStatement (hc.leads hl₁)
  case print => exact meets_printStatement (hc.leads hl₁)
  case branch =>
    refine .bind ((meets_condition (hc.leads hl₁)).mono fun e c₁ hl₂ he => ?_)
    have he : NewUses c e.uses c₁ := he
    have hl₂ := hl₁.trans hl₂
    refine .bind ((ih.statement c₁ (hc.leads hl₂)).mono fun s c₂ hl₃ hs => ?_)
    have hboth := he.append hs.1.1 hl₂ hl₃
    have hl₃ := hl₂.trans hl₃
    refine .bind (.take? (.pure ⟨⟨hboth, hs.2, hs.1.2⟩, rfl⟩) fun _ l' hrest' _ => ?_)
    have hl₄ : c.Leads { c₂ with rest := l' } := hl₃.trans (.token hrest')
    have hboth : NewUses c (e.uses ++ s.uses) { c₂ with rest := l' } := hboth
    refine .bind ((ih.statement _ (hc.leads hl₄)).mono fun s' c₃ hl₅ hs' => ?_)
    exact .pure ⟨⟨hboth.append hs'.1.1 hl₄ hl₅, ⟨hs.2, hs.1.2⟩, hs'.2, hs'.1.2⟩, rfl⟩
  case forLoop =>
    refine .bind ((meets_forClauses (hc.leads hl₁)).mono fun clauses c₁ hl₂ h => ?_)
    obtain ⟨init, cond, incr⟩ := clauses
    obtain ⟨hclauses, hinit⟩ := h
    have hclauses : NewUses c _ c₁ := hclauses
    have hl₂ := hl₁.trans hl₂
    refine .bind ((ih.statement c₁ (hc.leads hl₂)).mono fun s c₂ hl₃ hs => .pure ?_)
    have hloop := regular_forLoop cond incr hinit hs.1.2 hs.2
    refine ⟨⟨?_, hloop.1⟩, hloop.2⟩
    exact (hclauses.append hs.1.1 hl₂ hl₃).perm (uses_forLoop_perm init cond incr s)

theorem meets_block (ih : StatementReaders n) (hc : c.Ordinary) :
    Meets (Reader.block (n + 1)) c fun ss c' =>
      NewUses c (Stmt.eachUses ss) c' ∧ Stmt.EachRegular ss := by
  rw [Reader.block]
  refine .bind ((ih.blockItems c hc).mono fun ss c₁ _ hss => ?_)
  exact .bind (.expectMark fun _ _ _ _ => .pure hss)

theorem meets_blockItems (ih : StatementReaders n) (hc : c.Ordinary) :
    Meets (Reader.blockItems (n + 1)) c fun ss c' =>
      NewUses c (Stmt.eachUses ss) c' ∧ Stmt.EachRegular ss := by
  rw [Reader.blockItems]
  refine .bind (.isNext ?_)
  split
  · exact .pure ⟨.nil, trivial⟩
  · refine .bind (.isAtEnd ?_)
    split
    · exact .pure ⟨.nil, trivial⟩
    · exact meets_items hc (ih.declaration c hc) ih.blockItems

end StatementReaders

theorem statementReaders (n : Nat) : StatementReaders n := by
  induction n with
  | zero =>
    constructor <;> intros
    · rw [declaration]; exact .fail _
    · rw [classDeclaration]; exact .fail _
    · rw [methods]; exact .fail _
    · rw [routine]; exact .fail _
    · rw [statement]; exact .fail _
    · rw [block]; exact .fail _
    · rw [blockItems]; exact .pure ⟨.nil, trivial⟩
  | succ n ih =>
    exact ⟨fun c => ih.meets_declaration, fun c => ih.meets_classDeclaration,
      fun c => ih.meets_methods, fun kind c => ih.meets_routine kind,
      fun c => ih.meets_statement, fun c => ih.meets_block, fun c => ih.meets_blockItems⟩

theorem meets_declarations {n : Nat} {c : Cursor} (hc : c.Ordinary) :
    Meets (declarations n) c fun ss c' =>
      NewUses c (Stmt.eachUses ss) c' ∧ Stmt.EachRegular ss := by
  induction n generalizing c with
  | zero => exact .pure ⟨.nil, trivial⟩
  | succ n ih =>
    rw [declarations]
    refine .bind (.isAtEnd ?_)
    split
    · exact .pure ⟨.nil, trivial⟩
    · refine meets_items hc ?_ fun c' => ih
      exact ((statementReaders c.depth).declaration c hc).congr rfl

end Reader

/-! ## Whole sources -/

/-- What a reader promises about a whole source. The sites are counted on even if it fails. -/
theorem Reading.of_meets {α : Type} {reader : Reader α} {tokens : List Token} {endLine : Nat}
    {first : Site} {post : α → Cursor → Prop}
    (h : reader.Meets ⟨tokens, endLine, first, []⟩ post) :
    first ≤ (Reading.of reader tokens endLine first).nextSite ∧
      ∀ a, (Reading.of reader tokens endLine first).result = .ok a →
        ∃ c', post a c' ∧ c'.reported = [] ∧
          c'.nextSite = (Reading.of reader tokens endLine first).nextSite := by
  unfold Reading.of
  unfold Reader.Meets at h
  cases hr : reader ⟨tokens, endLine, first, []⟩ with
  | error d c' =>
    simp only [hr] at h ⊢
    exact ⟨h.nextSite, nofun⟩
  | ok a c' =>
    simp only [hr] at h ⊢
    refine ⟨h.1.nextSite, fun b hb => ?_⟩
    split at hb
    · next hquiet =>
      cases hb
      exact ⟨c', h.2, List.isEmpty_iff.mp hquiet, rfl⟩
    · cases hb

/-- Tokens of which no identifier is a reserved word. -/
def OrdinaryTokens (tokens : List Token) : Prop :=
  ∀ t ∈ tokens, t.kind = .identifier → Name.IsOrdinary ⟨t.lexeme, t.line⟩

variable {tokens : List Token}

/-- What is promised about a program that was read. -/
theorem readProgram_newUses (ht : OrdinaryTokens tokens) (endLine : Nat) (first : Site) :
    Reader.program.Meets ⟨tokens, endLine, first, []⟩ fun p c' =>
      Reader.NewUses ⟨tokens, endLine, first, []⟩ (Stmt.eachUses p) c' ∧ Stmt.EachRegular p := by
  have hc : Cursor.Ordinary ⟨tokens, endLine, first, []⟩ := ht
  exact (Reader.meets_declarations hc).congr rfl

theorem readProgram_fresh (ht : OrdinaryTokens tokens) (endLine : Nat) (first : Site) :
    first ≤ (readProgram tokens endLine first).nextSite ∧
      ∀ p, (readProgram tokens endLine first).result = .ok p →
        Fresh first (readProgram tokens endLine first).nextSite (Stmt.eachUses p) ∧
          Stmt.EachRegular p := by
  obtain ⟨hle, hok⟩ := Reading.of_meets (readProgram_newUses ht endLine first)
  refine ⟨hle, fun p hp => ?_⟩
  obtain ⟨c', hpost, -, hnext⟩ := hok p hp
  exact hnext ▸ ⟨hpost.1.1, hpost.2⟩

/-- The sites handed out while a program is read are exactly those spent on its uses. -/
theorem nextSite_readProgram (ht : OrdinaryTokens tokens) (endLine : Nat) (first : Site)
    {p : Program} (hp : (readProgram tokens endLine first).result = .ok p) :
    (readProgram tokens endLine first).nextSite = first + spent (Stmt.eachUses p) := by
  obtain ⟨-, hok⟩ := Reading.of_meets (readProgram_newUses ht endLine first)
  obtain ⟨c', hpost, hquiet, hnext⟩ := hok p hp
  exact hnext.symm.trans (hpost.1.2 hquiet)

theorem readExpression_fresh (ht : OrdinaryTokens tokens) (endLine : Nat) (first : Site) :
    first ≤ (readExpression tokens endLine first).nextSite ∧
      ∀ e, (readExpression tokens endLine first).result = .ok e →
        Fresh first (readExpression tokens endLine first).nextSite e.uses := by
  have hc : Cursor.Ordinary ⟨tokens, endLine, first, []⟩ := ht
  have h : Reader.wholeExpression.Meets ⟨tokens, endLine, first, []⟩ fun e c' =>
      Fresh first c'.nextSite e.uses := by
    unfold Reader.wholeExpression
    refine .bind ((Reader.meets_expression hc).mono fun e c' _ he => .bind (.isAtEnd ?_))
    split
    · exact .pure he.1
    · exact .fail _
  obtain ⟨hle, hok⟩ := Reading.of_meets h
  refine ⟨hle, fun e he => ?_⟩
  obtain ⟨c', hpost, -, hnext⟩ := hok e he
  exact hnext ▸ hpost

end LoxLang.Grammar
