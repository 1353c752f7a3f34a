import LoxLang.Proofs.Program.Padding
import LoxLang.Proofs.Scoping.Renaming
import LoxLang.Proofs.Scoping.Ties

/-!
# The analysis of code with more blocks

The analysis of padded code finds the same faults, and it ties each use to the declaration that
belongs to the one it has in the code itself: the distance is the one that the map of distances gives.

## Main definitions

* `Scopes.Pads`: scopes, and the same scopes with others between them that declare nothing.
* `Agrees`: two tables have distances that belong together.

## Main results

* `Pads.faults_eq`: padded code has the same faults.
* `Pads.agrees`: the sites of padded code agree with those of the code itself.
-/

namespace LoxLang

namespace Scoping

/-! ## Scopes -/

/-- Scopes, and the same scopes with others between them that declare nothing. -/
inductive Scopes.Pads : Distances → Scopes → Scopes → Prop where
  | nil : Pads id [] []
  | within (names : List String) (h : Pads σ scopes scopes') :
      Pads σ.within (names :: scopes) (names :: scopes')
  | padded (h : Pads σ scopes scopes') : Pads σ.padded scopes ([] :: scopes')

namespace Scopes.Pads

variable {σ : Distances} {scopes scopes' : Scopes}

theorem hops?_eq (h : Scopes.Pads σ scopes scopes') (name : String) :
    scopes'.hops? name = (scopes.hops? name).map σ := by
  induction h with
  | nil => rfl
  | within names _ ih =>
    rw [hops?_cons, hops?_cons, ih]
    split
    · rfl
    · cases Scopes.hops? _ name <;> rfl
  | padded _ ih =>
    rw [hops?_push, ih]
    cases Scopes.hops? _ name <;> rfl

/-! Where the innermost scopes belong together, declarations do the same to both. -/

theorem declares_eq (h : Scopes.Pads σ scopes scopes') (hσ : σ 0 = 0) (name : String) :
    scopes.declares name = scopes'.declares name := by
  cases h with
  | nil => rfl
  | within names _ => rfl
  | padded _ => cases hσ

theorem isEmpty_eq (h : Scopes.Pads σ scopes scopes') (hσ : σ 0 = 0) :
    scopes.isEmpty = scopes'.isEmpty := by
  cases h with
  | nil => rfl
  | within names _ => rfl
  | padded _ => cases hσ

theorem declare (h : Scopes.Pads σ scopes scopes') (hσ : σ 0 = 0) (name : String) :
    Scopes.Pads σ (scopes.declare name) (scopes'.declare name) := by
  cases h with
  | nil => exact .nil
  | within names h => exact .within (name :: names) h
  | padded _ => cases hσ

theorem withParams (h : Scopes.Pads σ scopes scopes') (params : List Name) :
    Scopes.Pads σ.within (scopes.withParams params) (scopes'.withParams params) := by
  have hstart : Scopes.Pads σ.within ([] :: scopes) ([] :: scopes') := .within [] h
  unfold Scopes.withParams
  generalize [] :: scopes = inner at hstart ⊢
  generalize [] :: scopes' = inner' at hstart ⊢
  induction params generalizing inner inner' with
  | nil => exact hstart
  | cons p ps ih => exact ih _ _ (hstart.declare rfl p.text)

end Scopes.Pads

end Scoping

open Scoping

section

variable {R : Distances → Expr → Expr → Prop} {σ : Distances} {scopes scopes' : Scopes}

/-- The name that code declares in the scope around it. -/
def Code.declared? : (k : Code) → k.Tree → Option Name
  | statement, s => s.declared?
  | _, _ => none

theorem Pads.name_eq {r r' : Routine} (h : Pads R .routine σ r r') :
    r.name = r'.name ∧ r.params = r'.params := by
  cases h
  exact ⟨rfl, rfl⟩

/-- Code and padded code declare the same. A declaration has no block around it. -/
theorem Pads.declared?_eq {k : Code} {t t' : k.Tree} (h : Pads R k σ t t') :
    k.declared? t = k.declared? t' ∧ (k.declared? t ≠ none → σ 0 = 0) := by
  induction h with
  | var hσ _ => exact ⟨rfl, fun _ => hσ⟩
  | function hσ h => exact ⟨congrArg some h.name_eq.1, fun _ => hσ⟩
  | class_ hσ _ => exact ⟨rfl, fun _ => hσ⟩
  | derived hσ _ _ => exact ⟨rfl, fun _ => hσ⟩
  | padded _ ih =>
    have hnone : Code.declared? .statement _ = none := by_contra fun hd => nomatch ih.2 hd
    exact ⟨hnone, fun hd => absurd hnone hd⟩
  | _ => exact ⟨rfl, fun hd => absurd rfl hd⟩

theorem Scoping.Scopes.Pads.after {s s' : Stmt} (hs : Scopes.Pads σ scopes scopes')
    (h : LoxLang.Pads R .statement σ s s') : Scopes.Pads σ (scopes.after s) (scopes'.after s') := by
  obtain ⟨hd, hσ⟩ := h.declared?_eq
  have hd : s.declared? = s'.declared? := hd
  unfold Scopes.after
  rw [← hd]
  cases hn : s.declared? with
  | none => exact hs
  | some name => exact hs.declare (hσ (by simp [Code.declared?, hn])) name.text

end

/-! ## Faults -/

namespace Scoping

mutual

/-- The scopes around an expression do not matter for its faults. -/
theorem faults_walkExpr_scopes (k : InClass) (scopes scopes' : Scopes) (pending : Option String) :
    ∀ e : Expr, faults (walkExpr k scopes pending e) = faults (walkExpr k scopes' pending e)
  | .literal _ => rfl
  | .group a | .unary _ _ a | .get a _ => faults_walkExpr_scopes k scopes scopes' pending a
  | .binary _ _ a b | .logical _ _ a b | .set a _ b => by
    simp only [walkExpr, faults_append, faults_walkExpr_scopes k scopes scopes' pending a,
      faults_walkExpr_scopes k scopes scopes' pending b]
  | .variable site name => by simp [walkExpr, read]
  | .assign site name a => by
    simp [walkExpr, faults_walkExpr_scopes k scopes scopes' pending a]
  | .call a _ args => by
    simp only [walkExpr, faults_append, faults_walkExpr_scopes k scopes scopes' pending a,
      faults_walkExprs_scopes k scopes scopes' pending args]
  | .this site line => by cases k <;> simp [walkExpr]
  | .super site line _ => by cases k <;> simp [walkExpr]

theorem faults_walkExprs_scopes (k : InClass) (scopes scopes' : Scopes) (pending : Option String) :
    ∀ es : List Expr, faults (walkExprs k scopes pending es) = faults (walkExprs k scopes' pending es)
  | [] => rfl
  | e :: es => by
    simp only [walkExprs, faults_append, faults_walkExpr_scopes k scopes scopes' pending e,
      faults_walkExprs_scopes k scopes scopes' pending es]

end

/-- Neither do its sites. -/
theorem faults_walkExpr_bare (k : InClass) (scopes : Scopes) (pending : Option String) (e : Expr) :
    faults (walkExpr k scopes pending e.bare) = faults (walkExpr k scopes pending e) := by
  rw [Expr.bare, walkExpr_rename, faults_rename]
  exact List.map_id'' (fun d => Diagnostic.rename_eq_self (fun _ => rfl) d) _

theorem faults_walkExpr_congr (k : InClass) (scopes scopes' : Scopes) (pending : Option String)
    {e e' : Expr} (h : e.bare = e'.bare) :
    faults (walkExpr k scopes pending e) = faults (walkExpr k scopes' pending e') := by
  rw [← faults_walkExpr_bare, h, faults_walkExpr_bare, faults_walkExpr_scopes]

theorem faults_walkOption_congr (k : InClass) (scopes scopes' : Scopes) (pending : Option String)
    {σ : Distances} {e e' : Option Expr} (h : Option.Rel (SameBare σ) e e') :
    faults (walkOption k scopes pending e) = faults (walkOption k scopes' pending e') := by
  cases h with
  | none => rfl
  | some h => exact faults_walkExpr_congr k scopes scopes' pending h

theorem walkReturn_congr (routine : InRoutine) (line : Nat) {σ : Distances} {e e' : Option Expr}
    (h : Option.Rel (SameBare σ) e e') : walkReturn routine line e = walkReturn routine line e' := by
  cases h <;> rfl

theorem redeclared_congr {σ : Distances} {scopes scopes' : Scopes}
    (hs : Scopes.Pads σ scopes scopes') (hσ : σ 0 = 0) (name : Name) :
    redeclared scopes name = redeclared scopes' name := by
  rw [redeclared, redeclared, hs.declares_eq hσ]

theorem walkParams_congr {σ : Distances} {scopes scopes' : Scopes}
    (hs : Scopes.Pads σ scopes scopes') (hσ : σ 0 = 0) (params : List Name) :
    (walkParams scopes params).2 = (walkParams scopes' params).2 := by
  induction params generalizing scopes scopes' with
  | nil => rfl
  | cons p ps ih =>
    simp only [walkParams, redeclared_congr hs hσ, ih (hs.declare hσ p.text)]

end Scoping

/-- Code as the grammar has it. -/
def Code.Regular : (k : Code) → k.Tree → Prop
  | statement, s => s.Regular
  | statements, ss => Stmt.EachRegular ss
  | routine, r => r.Regular
  | routines, rs => Routine.EachRegular rs

/-- The breaches of the rules in code. -/
def Code.faults (ctx : Context) (scopes : Scopes) : (k : Code) → k.Tree → List Diagnostic
  | statement, s => Scoping.faults (walkStmt ctx scopes s).2
  | statements, ss => Scoping.faults (walkStmts ctx scopes ss).2
  | routine, r => Scoping.faults (walkRoutine ctx scopes r)
  | routines, rs => Scoping.faults (walkMethods ctx.class_ scopes rs)

/-- Padded code has the same faults. -/
theorem Pads.faults_eq {k : Code} {σ : Distances} {t t' : k.Tree} (h : Pads SameBare k σ t t')
    (hr : k.Regular t) (hr' : k.Regular t') {scopes scopes' : Scopes}
    (hs : Scopes.Pads σ scopes scopes') (ctx : Context) :
    k.faults ctx scopes t = k.faults ctx scopes' t' := by
  induction h generalizing scopes scopes' ctx with
  | expression he => exact faults_walkExpr_congr _ _ _ _ he
  | print he => exact faults_walkExpr_congr _ _ _ _ he
  | var hσ he =>
    simp only [Code.faults, walkStmt, faults_append, redeclared_congr hs hσ,
      hs.isEmpty_eq hσ]
    rw [faults_walkOption_congr _ _ _ _ he]
  | block _ ih => exact ih hr hr' (.within [] hs) ctx
  | if_ hc _ ih =>
    simp only [Code.faults, walkStmt, faults_append]
    rw [faults_walkExpr_congr _ _ scopes' _ hc]
    exact congrArg _ (ih hr.2 hr'.2 hs ctx)
  | ifElse hc _ _ iht ihe =>
    obtain ⟨⟨hd, hthen⟩, -, helse⟩ := hr
    obtain ⟨⟨hd', hthen'⟩, -, helse'⟩ := hr'
    have iht := iht hthen hthen' hs ctx
    have ihe := ihe helse helse' hs ctx
    simp only [Code.faults] at iht ihe
    simp only [Code.faults, walkStmt, faults_append, walkStmt_fst ctx _ hthen,
      walkStmt_fst ctx _ hthen', Scopes.after_eq_self hd, Scopes.after_eq_self hd', iht, ihe]
    rw [faults_walkExpr_congr _ _ scopes' _ hc]
  | while_ hc _ ih =>
    simp only [Code.faults, walkStmt, faults_append]
    rw [faults_walkExpr_congr _ _ scopes' _ hc]
    exact congrArg _ (ih hr.2 hr'.2 hs ctx)
  | function hσ h ih =>
    simp only [Code.faults, walkStmt, faults_append, redeclared_congr hs hσ, h.name_eq.1]
    exact congrArg _ (ih hr.2 hr'.2 (hs.declare hσ _) { ctx with routine := .function })
  | return_ he =>
    simp only [Code.faults, walkStmt, faults_append]
    rw [walkReturn_congr _ _ he, faults_walkOption_congr _ _ scopes' _ he]
  | class_ hσ _ ih =>
    simp only [Code.faults, walkStmt, faults_append, redeclared_congr hs hσ, walkSuperclass]
    exact congrArg _ (ih hr.2 hr'.2 (.within _ (hs.declare hσ _)) ⟨ctx.routine, .base⟩)
  | derived hσ _ _ ih =>
    simp only [Code.faults, walkStmt, faults_append, redeclared_congr hs hσ, walkSuperclass,
      Scoping.read, faults_bind]
    exact congrArg _ (ih hr.2 hr'.2 (.within _ (.within _ (hs.declare hσ _))) ⟨ctx.routine, .derived⟩)
  | padded _ ih =>
    have ih := ih hr hr'.1 (.padded hs) ctx
    simpa [Code.faults, walkStmt, walkStmts] using ih
  | nil => rfl
  | cons h _ ihs ihss =>
    have ihs := ihs hr.1 hr'.1 hs ctx
    have ihss := ihss hr.2 hr'.2 (hs.after h) ctx
    simp only [Code.faults] at ihs ihss
    simp only [Code.faults, walkStmts, faults_append, walkStmt_fst ctx _ hr.1,
      walkStmt_fst ctx _ hr'.1, ihs, ihss]
  | @routine _ _ _ _ params _ ih =>
    have hbody := ih hr.2 hr'.2 (hs.withParams params) ctx
    simp only [Code.faults] at hbody
    simp only [Code.faults, walkRoutine, faults_append, walkParams_fst]
    rw [walkParams_congr (.within [] hs) rfl]
    exact congrArg _ hbody
  | noRoutines => rfl
  | routines h _ ihr ihrs =>
    have ihr := ihr hr.1 hr'.1 hs
    have ihrs := ihrs hr.2 hr'.2 hs
    simp only [Code.faults] at ihr ihrs
    have hctx : methodContext _ = methodContext _ :=
      congrArg (fun name : Name => if name.text == Routine.initName then InRoutine.initializer
        else InRoutine.method) h.name_eq.1
    simp only [Code.faults, walkMethods, faults_append, ihr, ihrs ctx]
    rw [hctx]

/-- What the analysis accepts, it accepts with more blocks. -/
theorem Pads.exists_analyse {p p' : Program} (h : Pads SameBare .statements id p p')
    (hr : Stmt.EachRegular p) (hr' : Stmt.EachRegular p') {ties : List (Site × Nat)}
    (ha : analyse p = .ok ties) : ∃ ties', analyse p' = .ok ties' := by
  have hfaults : faults (findings p) = faults (findings p') :=
    h.faults_eq hr hr' .nil ⟨.topLevel, .noClass⟩
  simp only [analyse] at ha ⊢
  rw [hfaults] at ha
  split at ha
  · next hf => exact ⟨_, if_pos hf⟩
  · cases ha

/-! ## Ties -/

/-- The uses in code, each with the scopes around it. -/
def Code.occurrences (scopes : Scopes) : (k : Code) → k.Tree → List Occurrence
  | statement, s => s.occurrences scopes
  | statements, ss => Stmt.eachOccurrences scopes ss
  | routine, r => r.occurrences scopes
  | routines, rs => Routine.eachOccurrences scopes rs

/-- The distances at two uses belong together. The scope of `this` is one before that of `super`, and
there is no other scope between them. -/
structure Agrees (t t' : BindingTable) (σ : Distances) (u u' : Use) : Prop where
  hops : t'.hops? u'.site = (t.hops? u.site).map σ
  adjacent : u.kind = .super ∧ u.name.text = Keyword.super.spelling →
    ∀ d, t.hops? u.site = some (d + 1) → σ (d + 1) = σ d + 1

/-- What is known about an occurrence in accepted code. -/
def Scoping.Occurrence.Settled (t : BindingTable) (o : Occurrence) : Prop := o.TiedBy t ∧ o.Legal

section

variable {t t' : BindingTable} {σ : Distances} {scopes scopes' : Scopes}
  {pending pending' : Option String}

/-- Uses of the same name and kind agree. -/
theorem agrees_of_settled (hs : Scopes.Pads σ scopes scopes') {u u' : Use}
    (hu : Occurrence.Settled t ⟨u, scopes, pending⟩)
    (hu' : Occurrence.Settled t' ⟨u', scopes', pending'⟩) (hk : u.kind = u'.kind)
    (hn : u.name = u'.name) : Agrees t t' σ u u' := by
  have htied : t.hops? u.site = scopes.hops? u.name.text := hu.1
  have htied' : t'.hops? u'.site = scopes'.hops? u'.name.text := hu'.1
  refine ⟨by rw [htied', htied, ← hn, hs.hops?_eq], fun ⟨hkind, hword⟩ d hd => ?_⟩
  -- On both sides `this` is one scope before `super`.
  obtain ⟨e, hthis, hsuper⟩ := hu.2.hasSuper hkind
  obtain ⟨e', hthis', hsuper'⟩ := hu'.2.hasSuper (hk ▸ hkind)
  have hhere : some (d + 1) = some (e + 1) := by
    rw [← hd, htied, hword]
    exact hsuper
  obtain rfl : d = e := by simpa using hhere
  have hthere : σ d = e' := by
    have h := hs.hops?_eq Keyword.this.spelling
    rw [hthis, hthis'] at h
    exact (Option.some.inj h).symm
  have hnext := hs.hops?_eq Keyword.super.spelling
  rw [hsuper, hsuper'] at hnext
  rw [hthere]
  exact (Option.some.inj hnext).symm

theorem usesAgree_of_settled (hs : Scopes.Pads σ scopes scopes') {e e' : Expr}
    (h : SameBare σ e e') (hu : ∀ o ∈ within scopes pending e.uses, o.Settled t)
    (hu' : ∀ o ∈ within scopes' pending' e'.uses, o.Settled t') :
    UsesAgree (Agrees t t') σ e e' := by
  refine Expr.alike_of_bare h fun u hm u' hm' hk hn => ?_
  have hu : Occurrence.Settled t ⟨u, scopes, pending⟩ := hu _ (mem_within.mpr ⟨u, hm, rfl⟩)
  have hu' : Occurrence.Settled t' ⟨u', scopes', pending'⟩ := hu' _ (mem_within.mpr ⟨u', hm', rfl⟩)
  exact agrees_of_settled hs hu hu' hk hn

theorem usesAgree_option (hs : Scopes.Pads σ scopes scopes') {e e' : Option Expr}
    (h : Option.Rel (SameBare σ) e e')
    (hu : ∀ o ∈ within scopes pending (Expr.optionUses e), o.Settled t)
    (hu' : ∀ o ∈ within scopes' pending' (Expr.optionUses e'), o.Settled t') :
    Option.Rel (UsesAgree (Agrees t t') σ) e e' := by
  cases h with
  | none => exact .none
  | some h => exact .some (usesAgree_of_settled hs h hu hu')

/-- The uses of accepted code and of the padded code agree. -/
theorem Pads.agrees {k : Code} {c c' : k.Tree} (h : Pads SameBare k σ c c')
    (hs : Scopes.Pads σ scopes scopes') (ho : ∀ o ∈ k.occurrences scopes c, o.Settled t)
    (ho' : ∀ o ∈ k.occurrences scopes' c', o.Settled t') :
    Pads (UsesAgree (Agrees t t')) k σ c c' := by
  induction h generalizing scopes scopes' with
  | expression he => exact .expression (usesAgree_of_settled hs he ho ho')
  | print he => exact .print (usesAgree_of_settled hs he ho ho')
  | var hσ he => exact .var hσ (usesAgree_option (hs.declare hσ _) he ho ho')
  | block _ ih => exact .block (ih (.within [] hs) ho ho')
  | if_ hc _ ih =>
    simp only [Code.occurrences, Stmt.occurrences, List.forall_mem_append] at ho ho'
    exact .if_ (usesAgree_of_settled hs hc ho.1 ho'.1) (ih hs ho.2 ho'.2)
  | ifElse hc _ _ iht ihe =>
    simp only [Code.occurrences, Stmt.occurrences, List.forall_mem_append] at ho ho'
    exact .ifElse (usesAgree_of_settled hs hc ho.1.1 ho'.1.1) (iht hs ho.1.2 ho'.1.2)
      (ihe hs ho.2 ho'.2)
  | while_ hc _ ih =>
    simp only [Code.occurrences, Stmt.occurrences, List.forall_mem_append] at ho ho'
    exact .while_ (usesAgree_of_settled hs hc ho.1 ho'.1) (ih hs ho.2 ho'.2)
  | function hσ h ih =>
    simp only [Code.occurrences, Stmt.occurrences, ← h.name_eq.1] at ho ho'
    exact .function hσ (ih (hs.declare hσ _) ho ho')
  | return_ he => exact .return_ (usesAgree_option hs he ho ho')
  | class_ hσ _ ih =>
    simp only [Code.occurrences, Stmt.occurrences, List.forall_mem_append] at ho ho'
    exact .class_ hσ (ih (.within _ (hs.declare hσ _)) ho.2 ho'.2)
  | derived hσ hp _ ih =>
    simp only [Code.occurrences, Stmt.occurrences, List.forall_mem_append] at ho ho'
    exact .derived hσ (usesAgree_of_settled (hs.declare hσ _) hp ho.1 ho'.1)
      (ih (.within _ (.within _ (hs.declare hσ _))) ho.2 ho'.2)
  | padded _ ih =>
    refine .padded (ih (.padded hs) ho fun o hm => ho' o ?_)
    simpa [Code.occurrences, Stmt.occurrences, Stmt.eachOccurrences] using hm
  | nil => exact .nil
  | cons h _ ihs ihss =>
    simp only [Code.occurrences, Stmt.eachOccurrences, List.forall_mem_append] at ho ho'
    exact .cons (ihs hs ho.1 ho'.1) (ihss (hs.after h) ho.2 ho'.2)
  | @routine _ _ _ _ params _ ih => exact .routine (ih (hs.withParams params) ho ho')
  | noRoutines => exact .noRoutines
  | routines _ _ ihr ihrs =>
    simp only [Code.occurrences, Routine.eachOccurrences, List.forall_mem_append] at ho ho'
    exact .routines (ihr hs ho.1 ho'.1) (ihrs hs ho.2 ho'.2)

end

end LoxLang
