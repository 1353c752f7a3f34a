import LoxLang.Proofs.Scoping.Occurrence
import LoxLang.Scoping.Table
import Mathlib.Data.List.Nodup

/-!
# Ties

When the analysis finds no fault, its ties are those of the occurrences of the program: each of them
is tied to the innermost scope that declares its name. In the table of a program whose sites are all
different, every occurrence therefore finds its own tie.
-/

namespace LoxLang.Scoping

/-! ## Findings -/

@[simp] theorem faults_nil : faults [] = [] := rfl

@[simp] theorem bindings_nil : bindings [] = [] := rfl

@[simp] theorem faults_append (fs gs : List Finding) : faults (fs ++ gs) = faults fs ++ faults gs :=
  List.filterMap_append

@[simp] theorem bindings_append (fs gs : List Finding) :
    bindings (fs ++ gs) = bindings fs ++ bindings gs :=
  List.filterMap_append

@[simp] theorem faults_cons_fault (f : ScopeFault) (place : Place) (fs : List Finding) :
    faults (.fault f place :: fs) = .scope f place :: faults fs := rfl

@[simp] theorem faults_bind (scopes : Scopes) (site : Site) (name : String) :
    faults (bind scopes site name) = [] := by
  unfold bind
  split <;> rfl

@[simp] theorem bindings_bind (scopes : Scopes) (site : Site) (name : String) :
    bindings (bind scopes site name) = ((scopes.hops? name).map (site, ·)).toList := by
  unfold bind
  split <;> simp_all [bindings]

/-- The scopes after a regular statement are those before it with the name that it declares. -/
theorem walkStmt_fst (ctx : Context) (scopes : Scopes) :
    ∀ {s : Stmt}, s.Regular → (walkStmt ctx scopes s).1 = scopes.after s
  | .expression _, _ | .print _, _ | .var _ _, _ | .block _, _ | .function _, _ | .return_ _ _, _
  | .class_ _ _ _, _ => by simp [walkStmt, Scopes.after, Stmt.declared?]
  | .if_ _ then_ none, h => by
    simp only [walkStmt, walkStmt_fst ctx scopes h.2, Scopes.after_eq_self h.1]
    exact (Scopes.after_eq_self rfl).symm
  | .if_ _ then_ (some else_), h => by
    obtain ⟨⟨hd, hr⟩, hd', hr'⟩ := h
    simp only [walkStmt, walkStmt_fst ctx scopes hr, Scopes.after_eq_self hd,
      walkStmt_fst ctx scopes hr', Scopes.after_eq_self hd']
    exact (Scopes.after_eq_self rfl).symm
  | .while_ _ body, h => by
    simp only [walkStmt, walkStmt_fst ctx scopes h.2, Scopes.after_eq_self h.1]
    exact (Scopes.after_eq_self rfl).symm

theorem walkParams_fst (scopes : Scopes) (params : List Name) :
    (walkParams scopes params).1 = params.foldl (fun g p => g.declare p.text) scopes := by
  induction params generalizing scopes with
  | nil => rfl
  | cons p ps ih => simp [walkParams, ih]

@[simp] theorem bindings_redeclared (scopes : Scopes) (name : Name) :
    bindings (redeclared scopes name) = [] := by
  unfold redeclared
  split <;> rfl

@[simp] theorem bindings_walkParams (scopes : Scopes) (params : List Name) :
    bindings (walkParams scopes params).2 = [] := by
  induction params generalizing scopes with
  | nil => rfl
  | cons p ps ih => simp [walkParams, ih]

@[simp] theorem bindings_walkReturn (routine : InRoutine) (line : Nat) (value : Option Expr) :
    bindings (walkReturn routine line value) = [] := by
  unfold walkReturn
  split <;> split <;> rfl

/-! ## The scopes of `this` and `super` -/

/-- Around a place in a class there is a scope with `this`, and in a class with a superclass the next
one has `super`. -/
def Surrounds (scopes : Scopes) : InClass → Prop
  | .noClass => True
  | .base => ∃ d, scopes.hops? Keyword.this.spelling = some d
  | .derived => ∃ d, scopes.hops? Keyword.this.spelling = some d ∧
      scopes.hops? Keyword.super.spelling = some (d + 1)

theorem Surrounds.push {scopes : Scopes} {k : InClass} (h : Surrounds scopes k) :
    Surrounds ([] :: scopes) k := by
  cases k with
  | noClass => trivial
  | base =>
    obtain ⟨d, hd⟩ := h
    exact ⟨d + 1, by simp [hd]⟩
  | derived =>
    obtain ⟨d, hd, hs⟩ := h
    exact ⟨d + 1, by simp [hd], by simp [hs]⟩

theorem Surrounds.declare {scopes : Scopes} {k : InClass} (h : Surrounds scopes k) {name : Name}
    (hn : name.IsOrdinary) : Surrounds (scopes.declare name.text) k := by
  have hthis := scopes.hops?_declare_of_ne (hn.ne_spelling .this).symm
  have hsuper := scopes.hops?_declare_of_ne (hn.ne_spelling .super).symm
  cases k with
  | noClass => trivial
  | base => simpa [Surrounds, hthis] using h
  | derived => simpa [Surrounds, hthis, hsuper] using h

theorem Surrounds.after {scopes : Scopes} {k : InClass} (h : Surrounds scopes k) {s : Stmt}
    (hr : s.Regular) : Surrounds (scopes.after s) k := by
  cases s with
  | var name init => exact h.declare hr
  | function r => exact h.declare hr.1
  | class_ name parent methods => exact h.declare hr.1
  | _ => exact h

theorem Surrounds.withParams {scopes : Scopes} {k : InClass} (h : Surrounds scopes k)
    {params : List Name} (hp : ∀ p ∈ params, p.IsOrdinary) :
    Surrounds (scopes.withParams params) k := by
  have hstart := h.push
  unfold Scopes.withParams
  generalize [] :: scopes = inner at hstart
  induction params generalizing inner with
  | nil => exact hstart
  | cons p ps ih =>
    exact ih (fun q hq => hp q (List.mem_cons_of_mem _ hq)) _
      (hstart.declare (hp p List.mem_cons_self))

theorem surrounds_methodScopes (scopes : Scopes) (parent : Option Superclass) :
    Surrounds (methodScopes scopes parent) (classContext parent) := by
  cases parent with
  | none => exact ⟨0, by simp [methodScopes, Scopes.hops?_cons]⟩
  | some s =>
    refine ⟨0, by simp [methodScopes, Scopes.hops?_cons], ?_⟩
    simp [methodScopes, Scopes.hops?_cons, Keyword.spelling]

/-! ## Legal occurrences -/

/-- What the rules of scoping promise about an occurrence: no name is read before it has a value,
and `this` and `super` stand in the scopes of a class. -/
structure Occurrence.Legal (o : Occurrence) : Prop where
  notPending : o.use.kind = .variable → o.pending ≠ some o.use.name.text
  hasThis : o.use.kind = .this → ∃ d, o.scopes.hops? Keyword.this.spelling = some d
  hasSuper : o.use.kind = .super → ∃ d, o.scopes.hops? Keyword.this.spelling = some d ∧
    o.scopes.hops? Keyword.super.spelling = some (d + 1)

/-- The tie of an occurrence. A global use has none. -/
def Occurrence.tie? (o : Occurrence) : Option (Site × Nat) :=
  (o.scopes.hops? o.use.name.text).map (o.use.site, ·)

/-- The occurrences are legal, and these are their ties. -/
structure Covers (ties : List (Site × Nat)) (os : List Occurrence) : Prop where
  legal : ∀ o ∈ os, o.Legal
  mem_iff : ∀ t, t ∈ ties ↔ t ∈ os.filterMap (·.tie?)

namespace Covers

variable {ties ties' : List (Site × Nat)} {os os' : List Occurrence}

theorem nil : Covers [] [] := ⟨by simp, by simp⟩

theorem append (h : Covers ties os) (h' : Covers ties' os') : Covers (ties ++ ties') (os ++ os') :=
  ⟨by simpa [or_imp, forall_and] using ⟨h.legal, h'.legal⟩, by simp [h.mem_iff, h'.mem_iff]⟩

theorem swap (h : Covers ties os) (h' : Covers ties' os') : Covers (ties' ++ ties) (os ++ os') :=
  ⟨by simpa [or_imp, forall_and] using ⟨h.legal, h'.legal⟩,
    fun t => by simp [h.mem_iff, h'.mem_iff, or_comm]⟩

/-- A legal occurrence by itself. -/
theorem single (u : Use) {scopes : Scopes} {pending : Option String}
    (h : Occurrence.Legal ⟨u, scopes, pending⟩) :
    Covers (bindings (bind scopes u.site u.name.text)) (within scopes pending [u]) := by
  refine ⟨by simpa [within] using h, fun t => ?_⟩
  simp [within, Occurrence.tie?]

end Covers

theorem within_append (scopes : Scopes) (pending : Option String) (us vs : List Use) :
    within scopes pending (us ++ vs) = within scopes pending us ++ within scopes pending vs :=
  List.map_append

/-- A read without faults. -/
theorem covers_read {scopes : Scopes} {pending : Option String} {site : Site} {name : Name}
    (h : faults (read scopes pending site name) = []) :
    Covers (bindings (read scopes pending site name))
      (within scopes pending [⟨site, .variable, name⟩]) := by
  have hp : pending ≠ some name.text := by
    intro he
    simp [read, he] at h
  simp only [read, if_neg hp, List.nil_append]
  exact .single ⟨site, .variable, name⟩ ⟨fun _ => hp, nofun, nofun⟩

mutual

theorem covers_walkExpr {k : InClass} {scopes : Scopes} {pending : Option String}
    (hk : Surrounds scopes k) : ∀ {e : Expr}, faults (walkExpr k scopes pending e) = [] →
      Covers (bindings (walkExpr k scopes pending e)) (within scopes pending e.uses)
  | .literal _, _ => .nil
  | .group inner, h => covers_walkExpr hk (e := inner) h
  | .unary _ _ operand, h => covers_walkExpr hk (e := operand) h
  | .binary _ _ left right, h | .logical _ _ left right, h => by
    simp only [walkExpr, faults_append, List.append_eq_nil_iff] at h
    simp only [walkExpr, bindings_append, Expr.uses, within_append]
    exact (covers_walkExpr hk h.1).append (covers_walkExpr hk h.2)
  | .variable site name, h => covers_read h
  | .assign site name value, h => by
    simp only [walkExpr, faults_append, List.append_eq_nil_iff] at h
    have hu : Covers (bindings (bind scopes site name.text))
        (within scopes pending [⟨site, .assign, name⟩]) :=
      .single ⟨site, .assign, name⟩ ⟨nofun, nofun, nofun⟩
    simp only [walkExpr, bindings_append, Expr.uses]
    exact hu.swap (covers_walkExpr hk h.1)
  | .call callee _ args, h => by
    simp only [walkExpr, faults_append, List.append_eq_nil_iff] at h
    simp only [walkExpr, bindings_append, Expr.uses, within_append]
    exact (covers_walkExpr hk h.1).append (covers_walkExprs hk h.2)
  | .get object _, h => covers_walkExpr hk (e := object) h
  | .set object _ value, h => by
    simp only [walkExpr, faults_append, List.append_eq_nil_iff] at h
    simp only [walkExpr, bindings_append, Expr.uses, within_append]
    exact (covers_walkExpr hk h.2).swap (covers_walkExpr hk h.1)
  | .this site line, h => by
    cases k with
    | noClass => simp [walkExpr] at h
    | base =>
      exact .single ⟨site, .this, ⟨_, line⟩⟩ ⟨nofun, fun _ => hk, nofun⟩
    | derived =>
      obtain ⟨d, hd, -⟩ := hk
      exact .single ⟨site, .this, ⟨_, line⟩⟩ ⟨nofun, fun _ => ⟨d, hd⟩, nofun⟩
  | .super site line _, h => by
    cases k with
    | noClass | base => simp [walkExpr] at h
    | derived => exact .single ⟨site, .super, ⟨_, line⟩⟩ ⟨nofun, nofun, fun _ => hk⟩

theorem covers_walkExprs {k : InClass} {scopes : Scopes} {pending : Option String}
    (hk : Surrounds scopes k) : ∀ {es : List Expr}, faults (walkExprs k scopes pending es) = [] →
      Covers (bindings (walkExprs k scopes pending es)) (within scopes pending (Expr.argsUses es))
  | [], _ => .nil
  | e :: es, h => by
    simp only [walkExprs, faults_append, List.append_eq_nil_iff] at h
    simp only [walkExprs, bindings_append, Expr.argsUses, within_append]
    exact (covers_walkExpr hk h.1).append (covers_walkExprs hk h.2)

end

theorem covers_walkOption {k : InClass} {scopes : Scopes} {pending : Option String}
    (hk : Surrounds scopes k) {e : Option Expr} (h : faults (walkOption k scopes pending e) = []) :
    Covers (bindings (walkOption k scopes pending e))
      (within scopes pending (Expr.optionUses e)) := by
  cases e with
  | none => exact .nil
  | some e => exact covers_walkExpr hk h

/-- The name of a superclass is not that of the class, which has no value yet. -/
theorem covers_walkSuperclass {scopes : Scopes} {name : Name} {parent : Option Superclass}
    (h : faults (walkSuperclass (scopes.declare name.text) name parent) = []) :
    Covers (bindings (walkSuperclass (scopes.declare name.text) name parent))
      (within (scopes.declare name.text) (scopes.pending name.text)
        (parent.map (·.use)).toList) := by
  cases parent with
  | none => exact .nil
  | some s =>
    simp only [walkSuperclass, faults_append, List.append_eq_nil_iff] at h
    have hne : s.name.text ≠ name.text := by
      intro he
      simp [he] at h
    have hp : scopes.pending name.text ≠ some s.name.text := by
      unfold Scopes.pending
      split <;> simp [hne.symm]
    simp only [walkSuperclass, if_neg hne, List.nil_append, read, reduceCtorEq, ↓reduceIte]
    exact .single s.use ⟨fun _ => hp, nofun, nofun⟩

mutual

theorem covers_walkStmt {ctx : Context} {scopes : Scopes} (hk : Surrounds scopes ctx.class_) :
    ∀ {s : Stmt}, s.Regular → faults (walkStmt ctx scopes s).2 = [] →
      Covers (bindings (walkStmt ctx scopes s).2) (s.occurrences scopes)
  | .expression e, _, h | .print e, _, h => covers_walkExpr hk (e := e) h
  | .var name init, hr, h => by
    simp only [walkStmt, faults_append, List.append_eq_nil_iff] at h
    simp only [walkStmt, bindings_append, bindings_redeclared, List.nil_append, Stmt.occurrences,
      Scopes.pending]
    exact covers_walkOption (hk.declare hr) h.2
  | .block body, hr, h => by
    simp only [walkStmt, Stmt.occurrences] at h ⊢
    exact covers_walkStmts hk.push hr h
  | .if_ _ then_ none, hr, h => by
    simp only [walkStmt, faults_append, List.append_eq_nil_iff] at h
    simp only [walkStmt, bindings_append, Stmt.occurrences]
    exact (covers_walkExpr hk h.1).append (covers_walkStmt hk hr.2 h.2)
  | .if_ _ then_ (some else_), hr, h => by
    obtain ⟨⟨hd, hthen⟩, -, helse⟩ := hr
    have hscopes : (walkStmt ctx scopes then_).1 = scopes := by
      simp [walkStmt_fst ctx scopes hthen, Scopes.after, hd]
    simp only [walkStmt, hscopes, faults_append, List.append_eq_nil_iff] at h
    simp only [walkStmt, hscopes, bindings_append, Stmt.occurrences]
    exact ((covers_walkExpr hk h.1.1).append (covers_walkStmt hk hthen h.1.2)).append
      (covers_walkStmt hk helse h.2)
  | .while_ _ body, hr, h => by
    simp only [walkStmt, faults_append, List.append_eq_nil_iff] at h
    simp only [walkStmt, bindings_append, Stmt.occurrences]
    exact (covers_walkExpr hk h.1).append (covers_walkStmt hk hr.2 h.2)
  | .function r, hr, h => by
    simp only [walkStmt, faults_append, List.append_eq_nil_iff] at h
    simp only [walkStmt, bindings_append, bindings_redeclared, List.nil_append, Stmt.occurrences]
    have hk' : Surrounds (scopes.declare r.name.text) { ctx with routine := .function }.class_ :=
      hk.declare hr.1
    exact covers_walkRoutine hk' hr.2 h.2
  | .return_ _ value, _, h => by
    simp only [walkStmt, faults_append, List.append_eq_nil_iff] at h
    simp only [walkStmt, bindings_append, bindings_walkReturn, List.nil_append, Stmt.occurrences]
    exact covers_walkOption hk h.2
  | .class_ name parent methods, hr, h => by
    simp only [walkStmt, faults_append, List.append_eq_nil_iff] at h
    simp only [walkStmt, bindings_append, bindings_redeclared, List.nil_append, Stmt.occurrences]
    exact (covers_walkSuperclass h.1.2).append
      (covers_walkMethods (surrounds_methodScopes _ parent) hr.2 h.2)

theorem covers_walkStmts {ctx : Context} {scopes : Scopes} (hk : Surrounds scopes ctx.class_) :
    ∀ {ss : List Stmt}, Stmt.EachRegular ss → faults (walkStmts ctx scopes ss).2 = [] →
      Covers (bindings (walkStmts ctx scopes ss).2) (Stmt.eachOccurrences scopes ss)
  | [], _, _ => .nil
  | s :: ss, hr, h => by
    simp only [walkStmts, walkStmt_fst ctx scopes hr.1, faults_append,
      List.append_eq_nil_iff] at h
    simp only [walkStmts, walkStmt_fst ctx scopes hr.1, bindings_append, Stmt.eachOccurrences]
    exact (covers_walkStmt hk hr.1 h.1).append (covers_walkStmts (hk.after hr.1) hr.2 h.2)

theorem covers_walkRoutine {ctx : Context} {scopes : Scopes} (hk : Surrounds scopes ctx.class_) :
    ∀ {r : Routine}, r.Regular → faults (walkRoutine ctx scopes r) = [] →
      Covers (bindings (walkRoutine ctx scopes r)) (r.occurrences scopes)
  | .mk _ params body, hr, h => by
    simp only [walkRoutine, walkParams_fst, faults_append, List.append_eq_nil_iff] at h
    simp only [walkRoutine, walkParams_fst, bindings_append, bindings_walkParams, List.nil_append,
      Routine.occurrences]
    exact covers_walkStmts (hk.withParams hr.1) hr.2 h.2

theorem covers_walkMethods {k : InClass} {scopes : Scopes} (hk : Surrounds scopes k) :
    ∀ {rs : List Routine}, Routine.EachRegular rs → faults (walkMethods k scopes rs) = [] →
      Covers (bindings (walkMethods k scopes rs)) (Routine.eachOccurrences scopes rs)
  | [], _, _ => .nil
  | r :: rs, hr, h => by
    simp only [walkMethods, faults_append, List.append_eq_nil_iff] at h
    simp only [walkMethods, bindings_append, Routine.eachOccurrences]
    exact (covers_walkRoutine hk hr.1 h.1).append
      (covers_walkMethods hk hr.2 h.2)

end

/-- An accepted program is covered by its ties. -/
theorem covers_of_analyse {p : Program} {ties : List (Site × Nat)} (hr : Stmt.EachRegular p)
    (h : analyse p = .ok ties) : Covers ties (Stmt.eachOccurrences [] p) := by
  simp only [analyse] at h
  split at h
  · next hf =>
    cases h
    have hk : Surrounds [] (Context.mk .topLevel .noClass).class_ := trivial
    exact covers_walkStmts hk hr (List.isEmpty_iff.mp hf)
  · cases h

end Scoping

/-! ## The table of a program -/

namespace BindingTable

theorem hops?_insertAll_of_not_mem (t : BindingTable) {ties : List (Site × Nat)} {site : Site}
    (h : ∀ d, (site, d) ∉ ties) : (t.insertAll ties).hops? site = t.hops? site := by
  induction ties generalizing t with
  | nil => rfl
  | cons tie ties ih =>
    have hne : site ≠ tie.1 := fun he => h tie.2 (by simp [he])
    have hrest : ∀ d, (site, d) ∉ ties := fun d hd => h d (List.mem_cons_of_mem _ hd)
    calc ((t.insert tie.1 tie.2).insertAll ties).hops? site
        = (t.insert tie.1 tie.2).hops? site := ih _ hrest
      _ = t.hops? site := by simp [hops?_insert, hne]

theorem hops?_insertAll_of_mem (t : BindingTable) {ties : List (Site × Nat)} {site : Site}
    {d : Nat} (h : (site, d) ∈ ties) (hu : ∀ e, (site, e) ∈ ties → e = d) :
    (t.insertAll ties).hops? site = some d := by
  induction ties generalizing t with
  | nil => cases h
  | cons tie ties ih =>
    by_cases hd : (site, d) ∈ ties
    · exact ih _ hd fun e he => hu e (List.mem_cons_of_mem _ he)
    · -- No later tie has this site, so the first one stays.
      have hrest : ∀ e, (site, e) ∉ ties := fun e he =>
        hd (hu e (List.mem_cons_of_mem _ he) ▸ he)
      obtain rfl : tie = (site, d) := by simpa [hd, eq_comm] using h
      calc ((t.insert site d).insertAll ties).hops? site
          = (t.insert site d).hops? site := hops?_insertAll_of_not_mem _ hrest
        _ = some d := by simp [hops?_insert]

end BindingTable

namespace Scoping

/-- The table has the distance to the innermost scope that declares the name of an occurrence, and
nothing for a global one. -/
def Occurrence.TiedBy (o : Occurrence) (t : BindingTable) : Prop :=
  t.hops? o.use.site = o.scopes.hops? o.use.name.text

/-- With sites that are all different and new to the table, each occurrence is tied. -/
theorem tiedBy_insertAll {ties : List (Site × Nat)} {os : List Occurrence}
    (h : ∀ t, t ∈ ties ↔ t ∈ os.filterMap (·.tie?)) {t : BindingTable}
    (hn : (os.map (·.use.site)).Nodup) (ht : ∀ o ∈ os, t.hops? o.use.site = none)
    {o : Occurrence} (ho : o ∈ os) : o.TiedBy (t.insertAll ties) := by
  -- A tie of this site can only come from this occurrence.
  have hown : ∀ d, (o.use.site, d) ∈ ties → o.scopes.hops? o.use.name.text = some d := by
    intro d hd
    obtain ⟨o', ho', htie⟩ := List.mem_filterMap.mp ((h _).mp hd)
    obtain ⟨e, he, heq⟩ := Option.map_eq_some_iff.mp htie
    obtain ⟨hsite, rfl⟩ := Prod.mk.inj heq
    obtain rfl : o' = o := List.inj_on_of_nodup_map hn ho' ho hsite
    exact he
  unfold Occurrence.TiedBy
  cases hd : o.scopes.hops? o.use.name.text with
  | none =>
    rw [t.hops?_insertAll_of_not_mem, ht o ho]
    intro d hmem
    simp [hd] at hown
    exact hown d hmem
  | some d =>
    refine t.hops?_insertAll_of_mem ?_ fun e he => ?_
    · rw [h, List.mem_filterMap]
      exact ⟨o, ho, by simp [Occurrence.tie?, hd]⟩
    · have := hown e he
      simp_all

theorem Covers.tiedBy {ties : List (Site × Nat)} {os : List Occurrence} (h : Covers ties os)
    {t : BindingTable} (hn : (os.map (·.use.site)).Nodup)
    (ht : ∀ o ∈ os, t.hops? o.use.site = none) {o : Occurrence} (ho : o ∈ os) :
    o.TiedBy (t.insertAll ties) :=
  tiedBy_insertAll h.mem_iff hn ht ho

/-! ## Two programs -/

/-- Nothing is declared in a scope at the top level. -/
theorem walkStmt_topLevel (ctx : Context) : ∀ s : Stmt, (walkStmt ctx [] s).1 = []
  | .expression _ | .print _ | .var _ _ | .block _ | .function _ | .return_ _ _
  | .class_ _ _ _ => rfl
  | .if_ _ then_ none => walkStmt_topLevel ctx then_
  | .if_ _ then_ (some else_) => by
    simp only [walkStmt, walkStmt_topLevel ctx then_, walkStmt_topLevel ctx else_]
  | .while_ _ body => walkStmt_topLevel ctx body

theorem findings_append (p q : Program) : findings (p ++ q) = findings p ++ findings q := by
  induction p with
  | nil => rfl
  | cons s p ih =>
    simp only [findings, List.cons_append, walkStmts, walkStmt_topLevel] at ih ⊢
    rw [ih, List.append_assoc]

/-- The analysis of a program knows nothing of the one before it. -/
theorem analyse_append {p q : Program} {ties ties' : List (Site × Nat)} (hp : analyse p = .ok ties)
    (hq : analyse q = .ok ties') : analyse (p ++ q) = .ok (ties ++ ties') := by
  have hok : ∀ {p : Program} {ties : List (Site × Nat)}, analyse p = .ok ties →
      faults (findings p) = [] ∧ bindings (findings p) = ties := by
    intro p ties h
    unfold analyse at h
    dsimp only at h
    split at h
    · next hempty => exact ⟨List.isEmpty_iff.mp hempty, Except.ok.inj h⟩
    · cases h
  obtain ⟨hfaults, rfl⟩ := hok hp
  obtain ⟨hfaults', rfl⟩ := hok hq
  simp [analyse, findings_append, hfaults, hfaults']

end LoxLang.Scoping
