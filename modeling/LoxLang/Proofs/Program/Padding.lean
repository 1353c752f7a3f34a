import LoxLang.Proofs.Program.Renaming
import Mathlib.Data.List.Forall2
import Mathlib.Data.Option.Basic

/-!
# Code with more blocks

A block around a statement that declares nothing makes a scope without names. Code that differs from
other code only by such blocks has its declarations at other distances. How a distance changes depends
on the blocks around a place, so code is compared along a map of distances, which grows on the way
into the code.

Each relation on code is given what is to hold of the expressions, at the map of the place where they
stand.

## Main definitions

* `Distances`: the distances in padded code.
* `Expr.Alike`: expressions that differ only in their sites.
* `Pads`: code and the same code with more blocks.

## Main results

* `Pads.of_bare`: padding does not depend on sites.
* `Pads.refl`: code pads itself.
-/

namespace LoxLang

/-! ## Distances -/

/-- The distance in padded code, for each distance in the code itself. -/
abbrev Distances := Nat → Nat

namespace Distances

/-- One more scope around both places. -/
def within (σ : Distances) : Distances
  | 0 => 0
  | d + 1 => σ d + 1

/-- One more scope around the place in the padded code. -/
def padded (σ : Distances) : Distances := fun d => σ d + 1

@[simp] theorem within_zero (σ : Distances) : σ.within 0 = 0 := rfl

@[simp] theorem within_succ (σ : Distances) (d : Nat) : σ.within (d + 1) = σ d + 1 := rfl

@[simp] theorem padded_apply (σ : Distances) (d : Nat) : σ.padded d = σ d + 1 := rfl

@[simp] theorem within_id : within id = id := by
  funext d
  cases d <;> rfl

end Distances

/-! ## Expressions -/

/-- Expressions that differ only in their sites. The uses at the sites belong together. -/
inductive Expr.Alike (A : Use → Use → Prop) : Expr → Expr → Prop where
  | literal (value : Literal) : Alike A (.literal value) (.literal value)
  | group (h : Alike A e e') : Alike A (.group e) (.group e')
  | unary (op : UnaryOp) (line : Nat) (h : Alike A e e') :
      Alike A (.unary op line e) (.unary op line e')
  | binary (op : BinaryOp) (line : Nat) (hl : Alike A l l') (hr : Alike A r r') :
      Alike A (.binary op line l r) (.binary op line l' r')
  | logical (op : LogicalOp) (line : Nat) (hl : Alike A l l') (hr : Alike A r r') :
      Alike A (.logical op line l r) (.logical op line l' r')
  | variable (name : Name) (hu : A ⟨site, .variable, name⟩ ⟨site', .variable, name⟩) :
      Alike A (.variable site name) (.variable site' name)
  | assign (name : Name) (hu : A ⟨site, .assign, name⟩ ⟨site', .assign, name⟩)
      (h : Alike A e e') : Alike A (.assign site name e) (.assign site' name e')
  | call (line : Nat) (hc : Alike A c c') (ha : List.Forall₂ (Alike A) args args') :
      Alike A (.call c line args) (.call c' line args')
  | get (name : Name) (h : Alike A e e') : Alike A (.get e name) (.get e' name)
  | set (name : Name) (ho : Alike A o o') (hv : Alike A v v') :
      Alike A (.set o name v) (.set o' name v')
  | this (line : Nat) (hu : A ⟨site, .this, ⟨Keyword.this.spelling, line⟩⟩
      ⟨site', .this, ⟨Keyword.this.spelling, line⟩⟩) : Alike A (.this site line) (.this site' line)
  | super (line : Nat) (method : Name) (hu : A ⟨site, .super, ⟨Keyword.super.spelling, line⟩⟩
      ⟨site', .super, ⟨Keyword.super.spelling, line⟩⟩) :
      Alike A (.super site line method) (.super site' line method)

section Alike

variable {A : Use → Use → Prop}

mutual

theorem Expr.Alike.refl : ∀ {e : Expr}, (∀ u ∈ e.uses, A u u) → e.Alike A e
  | .literal value, _ => .literal value
  | .group a, h => .group (Expr.Alike.refl (e := a) h)
  | .unary op line a, h => .unary op line (Expr.Alike.refl (e := a) h)
  | .get a name, h => .get name (Expr.Alike.refl (e := a) h)
  | .binary op line a b, h => by
    simp only [Expr.uses, List.forall_mem_append] at h
    exact .binary op line (Expr.Alike.refl h.1) (Expr.Alike.refl h.2)
  | .logical op line a b, h => by
    simp only [Expr.uses, List.forall_mem_append] at h
    exact .logical op line (Expr.Alike.refl h.1) (Expr.Alike.refl h.2)
  | .set a name b, h => by
    simp only [Expr.uses, List.forall_mem_append] at h
    exact .set name (Expr.Alike.refl h.1) (Expr.Alike.refl h.2)
  | .assign site name a, h => by
    simp only [Expr.uses, List.forall_mem_cons] at h
    exact .assign name h.1 (Expr.Alike.refl h.2)
  | .call a line args, h => by
    simp only [Expr.uses, List.forall_mem_append] at h
    exact .call line (Expr.Alike.refl h.1) (Expr.Alike.refl_args h.2)
  | .variable site name, h => .variable name (h _ List.mem_cons_self)
  | .this site line, h => .this line (h _ List.mem_cons_self)
  | .super site line method, h => .super line method (h _ List.mem_cons_self)

theorem Expr.Alike.refl_args : ∀ {es : List Expr},
    (∀ u ∈ Expr.argsUses es, A u u) → List.Forall₂ (Expr.Alike A) es es
  | [], _ => .nil
  | e :: es, h => by
    simp only [Expr.argsUses, List.forall_mem_append] at h
    exact .cons (Expr.Alike.refl h.1) (Expr.Alike.refl_args h.2)

end

/-- Uses of the same name belong together. -/
def UsesAlike (A : Use → Use → Prop) (us us' : List Use) : Prop :=
  ∀ u ∈ us, ∀ u' ∈ us', u.kind = u'.kind → u.name = u'.name → A u u'

theorem UsesAlike.mono {us us' vs vs' : List Use} (h : UsesAlike A vs vs') (hs : us ⊆ vs)
    (hs' : us' ⊆ vs') : UsesAlike A us us' :=
  fun u hu u' hu' => h u (hs hu) u' (hs' hu')

theorem UsesAlike.left {us us' vs vs' : List Use} (h : UsesAlike A (us ++ vs) (us' ++ vs')) :
    UsesAlike A us us' :=
  h.mono (List.subset_append_left us vs) (List.subset_append_left us' vs')

theorem UsesAlike.right {us us' vs vs' : List Use} (h : UsesAlike A (us ++ vs) (us' ++ vs')) :
    UsesAlike A vs vs' :=
  h.mono (List.subset_append_right us vs) (List.subset_append_right us' vs')

theorem Renaming.site_unsited (site : Site) : Renaming.unsited.site site = 0 := rfl

mutual

/-- Expressions that are equal but for their sites are alike if uses of the same name belong
together. -/
theorem Expr.alike_of_bare : ∀ {e e' : Expr}, e.bare = e'.bare → UsesAlike A e.uses e'.uses →
    e.Alike A e'
  | .literal value, e', h, _ => by
    cases e' with
    | literal value' =>
      obtain rfl : value = value' := by simpa [Expr.bare, Expr.rename] using h
      exact .literal value
    | _ => simp [Expr.bare, Expr.rename] at h
  | .group a, e', h, hu => by
    cases e' with
    | group a' =>
      have ha : a.bare = a'.bare := by simpa [Expr.bare, Expr.rename] using h
      exact .group (Expr.alike_of_bare ha hu)
    | _ => simp [Expr.bare, Expr.rename] at h
  | .unary op line a, e', h, hu => by
    cases e' with
    | unary op' line' a' =>
      obtain ⟨rfl, rfl, ha⟩ : op = op' ∧ line = line' ∧ a.bare = a'.bare := by
        simpa [Expr.bare, Expr.rename] using h
      exact .unary op line (Expr.alike_of_bare ha hu)
    | _ => simp [Expr.bare, Expr.rename] at h
  | .binary op line a b, e', h, hu => by
    cases e' with
    | binary op' line' a' b' =>
      obtain ⟨rfl, rfl, ha, hb⟩ :
          op = op' ∧ line = line' ∧ a.bare = a'.bare ∧ b.bare = b'.bare := by
        simpa [Expr.bare, Expr.rename] using h
      exact .binary op line (Expr.alike_of_bare ha hu.left) (Expr.alike_of_bare hb hu.right)
    | _ => simp [Expr.bare, Expr.rename] at h
  | .logical op line a b, e', h, hu => by
    cases e' with
    | logical op' line' a' b' =>
      obtain ⟨rfl, rfl, ha, hb⟩ :
          op = op' ∧ line = line' ∧ a.bare = a'.bare ∧ b.bare = b'.bare := by
        simpa [Expr.bare, Expr.rename] using h
      exact .logical op line (Expr.alike_of_bare ha hu.left) (Expr.alike_of_bare hb hu.right)
    | _ => simp [Expr.bare, Expr.rename] at h
  | .variable site name, e', h, hu => by
    cases e' with
    | «variable» site' name' =>
      obtain rfl : name = name' := by simpa [Expr.bare, Expr.rename, Renaming.site_unsited] using h
      exact .variable name (hu _ List.mem_cons_self _ List.mem_cons_self rfl rfl)
    | _ => simp [Expr.bare, Expr.rename] at h
  | .assign site name a, e', h, hu => by
    cases e' with
    | assign site' name' a' =>
      obtain ⟨rfl, ha⟩ : name = name' ∧ a.bare = a'.bare := by
        simpa [Expr.bare, Expr.rename, Renaming.site_unsited] using h
      exact .assign name (hu _ List.mem_cons_self _ List.mem_cons_self rfl rfl)
        (Expr.alike_of_bare ha (hu.mono (List.subset_cons_self _ _) (List.subset_cons_self _ _)))
    | _ => simp [Expr.bare, Expr.rename] at h
  | .call a line args, e', h, hu => by
    cases e' with
    | call a' line' args' =>
      obtain ⟨ha, rfl, hargs⟩ : a.bare = a'.bare ∧ line = line' ∧
          Expr.renameEach .unsited args = Expr.renameEach .unsited args' := by
        simpa only [Expr.bare, Expr.rename, Expr.call.injEq, Renaming.line_unsited] using h
      exact .call line (Expr.alike_of_bare ha hu.left) (Expr.alike_args_of_bare hargs hu.right)
    | _ => simp [Expr.bare, Expr.rename] at h
  | .get a name, e', h, hu => by
    cases e' with
    | get a' name' =>
      obtain ⟨ha, rfl⟩ : a.bare = a'.bare ∧ name = name' := by
        simpa [Expr.bare, Expr.rename] using h
      exact .get name (Expr.alike_of_bare ha hu)
    | _ => simp [Expr.bare, Expr.rename] at h
  | .set a name b, e', h, hu => by
    cases e' with
    | set a' name' b' =>
      obtain ⟨ha, rfl, hb⟩ : a.bare = a'.bare ∧ name = name' ∧ b.bare = b'.bare := by
        simpa [Expr.bare, Expr.rename] using h
      exact .set name (Expr.alike_of_bare ha hu.left) (Expr.alike_of_bare hb hu.right)
    | _ => simp [Expr.bare, Expr.rename] at h
  | .this site line, e', h, hu => by
    cases e' with
    | this site' line' =>
      obtain rfl : line = line' := by simpa [Expr.bare, Expr.rename, Renaming.site_unsited] using h
      exact .this line (hu _ List.mem_cons_self _ List.mem_cons_self rfl rfl)
    | _ => simp [Expr.bare, Expr.rename] at h
  | .super site line method, e', h, hu => by
    cases e' with
    | super site' line' method' =>
      obtain ⟨rfl, rfl⟩ : line = line' ∧ method = method' := by
        simpa [Expr.bare, Expr.rename, Renaming.site_unsited] using h
      exact .super line method (hu _ List.mem_cons_self _ List.mem_cons_self rfl rfl)
    | _ => simp [Expr.bare, Expr.rename] at h

theorem Expr.alike_args_of_bare : ∀ {es es' : List Expr},
    Expr.renameEach .unsited es = Expr.renameEach .unsited es' →
    UsesAlike A (Expr.argsUses es) (Expr.argsUses es') → List.Forall₂ (Expr.Alike A) es es'
  | [], [], _, _ => .nil
  | [], _ :: _, h, _ | _ :: _, [], h, _ => by simp at h
  | e :: es, e' :: es', h, hu => by
    obtain ⟨he, hes⟩ := List.cons.inj h
    exact .cons (Expr.alike_of_bare he hu.left) (Expr.alike_args_of_bare hes hu.right)

end

end Alike

/-! ## Code -/

/-- The kinds of code. -/
inductive Code where
  | statement
  | statements
  | routine
  | routines

abbrev Code.Tree : Code → Type
  | statement => Stmt
  | statements => List Stmt
  | routine => Routine
  | routines => List Routine

/-- Code, and the same code with blocks around some of the statements that declare nothing. The
expressions are related by `R`. A declaration keeps its place in its scope, so the innermost scopes
around it belong together. -/
inductive Pads (R : Distances → Expr → Expr → Prop) :
    (k : Code) → Distances → k.Tree → k.Tree → Prop where
  | expression (he : R σ e e') : Pads R .statement σ (.expression e) (.expression e')
  | print (he : R σ e e') : Pads R .statement σ (.print e) (.print e')
  | var {name : Name} (hσ : σ 0 = 0) (he : Option.Rel (R σ) init init') :
      Pads R .statement σ (.var name init) (.var name init')
  | block (h : Pads R .statements σ.within body body') :
      Pads R .statement σ (.block body) (.block body')
  | if_ (hc : R σ condition condition') (ht : Pads R .statement σ then_ then_') :
      Pads R .statement σ (.if_ condition then_ none) (.if_ condition' then_' none)
  | ifElse (hc : R σ condition condition') (ht : Pads R .statement σ then_ then_')
      (he : Pads R .statement σ else_ else_') :
      Pads R .statement σ (.if_ condition then_ (some else_)) (.if_ condition' then_' (some else_'))
  | while_ (hc : R σ condition condition') (hb : Pads R .statement σ body body') :
      Pads R .statement σ (.while_ condition body) (.while_ condition' body')
  | function (hσ : σ 0 = 0) (h : Pads R .routine σ r r') :
      Pads R .statement σ (.function r) (.function r')
  | return_ {line : Nat} (he : Option.Rel (R σ) value value') :
      Pads R .statement σ (.return_ line value) (.return_ line value')
  | class_ {name : Name} (hσ : σ 0 = 0) (h : Pads R .routines σ.within methods methods') :
      Pads R .statement σ (.class_ name none methods) (.class_ name none methods')
  | derived {name : Name} (hσ : σ 0 = 0) (hp : R σ (.variable site parent) (.variable site' parent))
      (h : Pads R .routines σ.within.within methods methods') :
      Pads R .statement σ (.class_ name (some ⟨site, parent⟩) methods)
        (.class_ name (some ⟨site', parent⟩) methods')
  /-- A block more. -/
  | padded (h : Pads R .statement σ.padded s s') : Pads R .statement σ s (.block [s'])
  | nil : Pads R .statements σ [] []
  | cons (hfirst : Pads R .statement σ s s') (hrest : Pads R .statements σ ss ss') :
      Pads R .statements σ (s :: ss) (s' :: ss')
  | routine {name : Name} {params : List Name} (h : Pads R .statements σ.within body body') :
      Pads R .routine σ (.mk name params body) (.mk name params body')
  | noRoutines : Pads R .routines σ [] []
  | routines (hfirst : Pads R .routine σ r r') (hrest : Pads R .routines σ rs rs') :
      Pads R .routines σ (r :: rs) (r' :: rs')

/-! ## Padding without sites -/

/-- Expressions that are equal but for their sites. -/
def SameBare (_ : Distances) (e e' : Expr) : Prop := e.bare = e'.bare

/-- Code without its sites. -/
def Code.bare : (k : Code) → k.Tree → k.Tree
  | statement, s => s.bare
  | statements, ss => ss.map Stmt.bare
  | routine, r => r.bare
  | routines, rs => rs.map Routine.bare

/-- Statements that are equal but for their sites, taken apart. -/
inductive Stmt.SameBare : Stmt → Stmt → Prop where
  | expression (he : e.bare = e'.bare) : SameBare (.expression e) (.expression e')
  | print (he : e.bare = e'.bare) : SameBare (.print e) (.print e')
  | var {name : Name} (he : init.map Expr.bare = init'.map Expr.bare) :
      SameBare (.var name init) (.var name init')
  | block (h : body.map Stmt.bare = body'.map Stmt.bare) : SameBare (.block body) (.block body')
  | if_ (hc : condition.bare = condition'.bare) (ht : then_.bare = then_'.bare) :
      SameBare (.if_ condition then_ none) (.if_ condition' then_' none)
  | ifElse (hc : condition.bare = condition'.bare) (ht : then_.bare = then_'.bare)
      (he : else_.bare = else_'.bare) :
      SameBare (.if_ condition then_ (some else_)) (.if_ condition' then_' (some else_'))
  | while_ (hc : condition.bare = condition'.bare) (hb : body.bare = body'.bare) :
      SameBare (.while_ condition body) (.while_ condition' body')
  | function (h : r.bare = r'.bare) : SameBare (.function r) (.function r')
  | return_ {line : Nat} (he : value.map Expr.bare = value'.map Expr.bare) :
      SameBare (.return_ line value) (.return_ line value')
  | class_ {name : Name} (h : methods.map Routine.bare = methods'.map Routine.bare) :
      SameBare (.class_ name none methods) (.class_ name none methods')
  | derived {name parent : Name} (h : methods.map Routine.bare = methods'.map Routine.bare) :
      SameBare (.class_ name (some ⟨site, parent⟩) methods)
        (.class_ name (some ⟨site', parent⟩) methods')

theorem Stmt.sameBare_of_eq {s s' : Stmt} (h : s.bare = s'.bare) : s.SameBare s' := by
  cases s with
  | expression e =>
    cases s' with
    | expression e' => exact .expression (Stmt.expression.inj h)
    | if_ _ _ else_' => cases else_' <;> cases h
    | _ => cases h
  | print e =>
    cases s' with
    | print e' => exact .print (Stmt.print.inj h)
    | if_ _ _ else_' => cases else_' <;> cases h
    | _ => cases h
  | var name init =>
    cases s' with
    | var name' init' =>
      obtain ⟨hn, he⟩ := Stmt.var.inj h
      obtain rfl : name = name' := hn
      exact .var he
    | if_ _ _ else_' => cases else_' <;> cases h
    | _ => cases h
  | block body =>
    cases s' with
    | block body' => exact .block (by simpa [Stmt.bare_block] using h)
    | if_ _ _ else_' => cases else_' <;> cases h
    | _ => cases h
  | if_ condition then_ else_ =>
    cases s' with
    | if_ condition' then_' else_' =>
      cases else_ with
      | none =>
        cases else_' with
        | none =>
          obtain ⟨hc, ht, -⟩ := Stmt.if_.inj h
          exact .if_ hc ht
        | some else_' => exact nomatch (Stmt.if_.inj h).2.2
      | some else_ =>
        cases else_' with
        | none => exact nomatch (Stmt.if_.inj h).2.2
        | some else_' =>
          obtain ⟨hc, ht, he⟩ := Stmt.if_.inj h
          exact .ifElse hc ht (Option.some.inj he)
    | _ => cases else_ <;> cases h
  | while_ condition body =>
    cases s' with
    | while_ condition' body' =>
      obtain ⟨hc, hb⟩ := Stmt.while_.inj h
      exact .while_ hc hb
    | if_ _ _ else_' => cases else_' <;> cases h
    | _ => cases h
  | function r =>
    cases s' with
    | function r' => exact .function (Stmt.function.inj h)
    | if_ _ _ else_' => cases else_' <;> cases h
    | _ => cases h
  | return_ line value =>
    cases s' with
    | return_ line' value' =>
      obtain ⟨hl, he⟩ := Stmt.return_.inj h
      obtain rfl : line = line' := hl
      exact .return_ he
    | if_ _ _ else_' => cases else_' <;> cases h
    | _ => cases h
  | class_ name parent methods =>
    cases s' with
    | class_ name' parent' methods' =>
      simp only [Stmt.bare_class, Stmt.class_.injEq] at h
      obtain ⟨rfl, hp, hm⟩ := h
      cases parent <;> cases parent'
      · exact .class_ hm
      · cases hp
      · cases hp
      · next parent parent' =>
        obtain ⟨site, name⟩ := parent
        obtain ⟨site', name'⟩ := parent'
        obtain rfl : name = name' := by simpa [Superclass.rename, Renaming.site_unsited] using hp
        exact .derived hm
    | if_ _ _ else_' => cases else_' <;> cases h
    | _ => cases h

theorem sameBare_option {σ : Distances} {e e' e₁ e₁' : Option Expr}
    (h : Option.Rel (SameBare σ) e e') (he : e₁.map Expr.bare = e.map Expr.bare)
    (he' : e₁'.map Expr.bare = e'.map Expr.bare) : Option.Rel (SameBare σ) e₁ e₁' := by
  cases h with
  | none =>
    obtain rfl : e₁ = none := by simpa using he
    obtain rfl : e₁' = none := by simpa using he'
    exact .none
  | some h =>
    obtain ⟨a, rfl, ha⟩ := Option.map_eq_some_iff.mp he
    obtain ⟨a', rfl, ha'⟩ := Option.map_eq_some_iff.mp he'
    exact .some (ha.trans (h.trans ha'.symm))

/-- Code that is equal to padded code but for its sites is padded too. -/
theorem Pads.of_bare {k : Code} {σ : Distances} {t t' t₁ t₁' : k.Tree}
    (h : Pads SameBare k σ t t') (ht : k.bare t₁ = k.bare t) (ht' : k.bare t₁' = k.bare t') :
    Pads SameBare k σ t₁ t₁' := by
  induction h with
  | expression he =>
    cases Stmt.sameBare_of_eq ht with
    | expression h₁ => cases Stmt.sameBare_of_eq ht' with
      | expression h₁' => exact .expression (h₁.trans (he.trans h₁'.symm))
  | print he =>
    cases Stmt.sameBare_of_eq ht with
    | print h₁ => cases Stmt.sameBare_of_eq ht' with
      | print h₁' => exact .print (h₁.trans (he.trans h₁'.symm))
  | var hσ he =>
    cases Stmt.sameBare_of_eq ht with
    | var h₁ => cases Stmt.sameBare_of_eq ht' with
      | var h₁' => exact .var hσ (sameBare_option he h₁ h₁')
  | block _ ih =>
    cases Stmt.sameBare_of_eq ht with
    | block h₁ => cases Stmt.sameBare_of_eq ht' with
      | block h₁' => exact .block (ih h₁ h₁')
  | if_ hc _ ih =>
    cases Stmt.sameBare_of_eq ht with
    | if_ hc₁ h₁ => cases Stmt.sameBare_of_eq ht' with
      | if_ hc₁' h₁' => exact .if_ (hc₁.trans (hc.trans hc₁'.symm)) (ih h₁ h₁')
  | ifElse hc _ _ iht ihe =>
    cases Stmt.sameBare_of_eq ht with
    | ifElse hc₁ h₁ h₂ => cases Stmt.sameBare_of_eq ht' with
      | ifElse hc₁' h₁' h₂' =>
        exact .ifElse (hc₁.trans (hc.trans hc₁'.symm)) (iht h₁ h₁') (ihe h₂ h₂')
  | while_ hc _ ih =>
    cases Stmt.sameBare_of_eq ht with
    | while_ hc₁ h₁ => cases Stmt.sameBare_of_eq ht' with
      | while_ hc₁' h₁' => exact .while_ (hc₁.trans (hc.trans hc₁'.symm)) (ih h₁ h₁')
  | function hσ _ ih =>
    cases Stmt.sameBare_of_eq ht with
    | function h₁ => cases Stmt.sameBare_of_eq ht' with
      | function h₁' => exact .function hσ (ih h₁ h₁')
  | return_ he =>
    cases Stmt.sameBare_of_eq ht with
    | return_ h₁ => cases Stmt.sameBare_of_eq ht' with
      | return_ h₁' => exact .return_ (sameBare_option he h₁ h₁')
  | class_ hσ _ ih =>
    cases Stmt.sameBare_of_eq ht with
    | class_ h₁ => cases Stmt.sameBare_of_eq ht' with
      | class_ h₁' => exact .class_ hσ (ih h₁ h₁')
  | derived hσ _ _ ih =>
    cases Stmt.sameBare_of_eq ht with
    | derived h₁ => cases Stmt.sameBare_of_eq ht' with
      | derived h₁' => exact .derived hσ rfl (ih h₁ h₁')
  | padded _ ih =>
    cases Stmt.sameBare_of_eq ht' with
    | block h₁' =>
      obtain ⟨s₁', rfl, hs⟩ := List.map_eq_singleton_iff.mp h₁'
      exact .padded (ih ht hs)
  | nil =>
    obtain rfl := List.map_eq_nil_iff.mp ht
    obtain rfl := List.map_eq_nil_iff.mp ht'
    exact .nil
  | cons _ _ ihs ihss =>
    obtain ⟨s₁, ss₁, rfl, hs, hss⟩ := List.map_eq_cons_iff.mp ht
    obtain ⟨s₁', ss₁', rfl, hs', hss'⟩ := List.map_eq_cons_iff.mp ht'
    exact .cons (ihs hs hs') (ihss hss hss')
  | routine _ ih =>
    obtain ⟨name₁, params₁, body₁⟩ := t₁
    obtain ⟨name₁', params₁', body₁'⟩ := t₁'
    simp only [Code.bare, Routine.bare_mk, Routine.mk.injEq] at ht ht'
    obtain ⟨rfl, rfl, hb⟩ := ht
    obtain ⟨rfl, rfl, hb'⟩ := ht'
    exact .routine (ih hb hb')
  | noRoutines =>
    obtain rfl := List.map_eq_nil_iff.mp ht
    obtain rfl := List.map_eq_nil_iff.mp ht'
    exact .noRoutines
  | routines _ _ ihr ihrs =>
    obtain ⟨r₁, rs₁, rfl, hr, hrs⟩ := List.map_eq_cons_iff.mp ht
    obtain ⟨r₁', rs₁', rfl, hr', hrs'⟩ := List.map_eq_cons_iff.mp ht'
    exact .routines (ihr hr hr') (ihrs hrs hrs')

/-! ## Code pads itself -/

/-- Expressions whose uses belong together at the distances of their place. -/
def UsesAgree (A : Distances → Use → Use → Prop) (σ : Distances) : Expr → Expr → Prop :=
  Expr.Alike (A σ)

section Refl

variable {A : Distances → Use → Use → Prop}

theorem UsesAgree.refl_option {e : Option Expr}
    (h : ∀ u ∈ Expr.optionUses e, A id u u) :
    Option.Rel (UsesAgree A id) e e := by
  cases e with
  | none => exact .none
  | some e => exact .some (.refl h)

mutual

theorem Pads.refl : ∀ {s : Stmt}, (∀ u ∈ s.uses, A id u u) →
    Pads (UsesAgree A) .statement id s s
  | .expression e, h => .expression (.refl h)
  | .print e, h => .print (.refl h)
  | .var name init, h => .var rfl (UsesAgree.refl_option h)
  | .block body, h => .block (by
    rw [Distances.within_id]
    exact Pads.refl_statements h)
  | .if_ condition then_ none, h => by
    simp only [Stmt.uses, List.forall_mem_append] at h
    exact .if_ (.refl h.1) (Pads.refl h.2)
  | .if_ condition then_ (some else_), h => by
    simp only [Stmt.uses, List.forall_mem_append] at h
    exact .ifElse (.refl h.1.1) (Pads.refl h.1.2) (Pads.refl h.2)
  | .while_ condition body, h => by
    simp only [Stmt.uses, List.forall_mem_append] at h
    exact .while_ (.refl h.1) (Pads.refl h.2)
  | .function r, h => .function rfl (Pads.refl_routine h)
  | .return_ line value, h => .return_ (UsesAgree.refl_option h)
  | .class_ name none methods, h => .class_ rfl (by
    rw [Distances.within_id]
    exact Pads.refl_routines h)
  | .class_ name (some parent) methods, h => by
    simp only [Stmt.uses, List.forall_mem_append] at h
    refine .derived rfl (.variable _ (h.1 parent.use (by simp))) ?_
    rw [Distances.within_id, Distances.within_id]
    exact Pads.refl_routines h.2

theorem Pads.refl_statements : ∀ {ss : List Stmt},
    (∀ u ∈ Stmt.eachUses ss, A id u u) →
    Pads (UsesAgree A) .statements id ss ss
  | [], _ => .nil
  | s :: ss, h => by
    simp only [Stmt.eachUses, List.forall_mem_append] at h
    exact .cons (Pads.refl h.1) (Pads.refl_statements h.2)

theorem Pads.refl_routine : ∀ {r : Routine}, (∀ u ∈ r.uses, A id u u) →
    Pads (UsesAgree A) .routine id r r
  | .mk name params body, h => .routine (by
    rw [Distances.within_id]
    exact Pads.refl_statements h)

theorem Pads.refl_routines : ∀ {rs : List Routine},
    (∀ u ∈ Routine.eachUses rs, A id u u) →
    Pads (UsesAgree A) .routines id rs rs
  | [], _ => .noRoutines
  | r :: rs, h => by
    simp only [Routine.eachUses, List.forall_mem_append] at h
    exact .routines (Pads.refl_routine h.1) (Pads.refl_routines h.2)

end

end Refl

end LoxLang
