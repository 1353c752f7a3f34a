import LoxLang.Proofs.Lexical.Machine
import LoxLang.Proofs.Machine.Likeness
import LoxLang.Proofs.Machine.Preservation

/-!
# How scopes and environments belong together

A scope of the one machine keeps growing after a closure has captured it; an environment of the other
never changes. They belong together through the cells: a world says which cell stands for a name in a
scope. A closure has captured the part of a scope that the analysis saw around its declaration, and
for these names its environment has the cells of the scope.

## Main definitions

* `World`: the cells of the names in scopes, with the chains of scopes and the environments.
* `World.Maps`: an environment has the cells of the names that the analysis sees.
* `World.Values`: values that are equal but for the scopes and environments of closures.
-/

namespace LoxLang

open Scoping

/-! ## Accepted code -/

/-- What is known about an occurrence in accepted code: its site was handed out, the table ties it to
its declaration, and `super` stands in the scopes of a derived class. -/
def Scoping.Occurrence.Linked (t : BindingTable) (n : Nat) (o : Occurrence) : Prop :=
  o.use.site < n ∧ t.hops? o.use.site = o.scopes.hops? o.use.name.text ∧
    (o.use.kind = .super → ∃ d, o.scopes.hops? Keyword.this.spelling = some d ∧
      o.scopes.hops? Keyword.super.spelling = some (d + 1))

theorem Scoping.Occurrence.Linked.mono {t t' : BindingTable} {n n' : Nat} {o : Occurrence}
    (h : o.Linked t n) (hn : n ≤ n') (ht : ∀ site < n, t'.hops? site = t.hops? site) :
    o.Linked t' n' := by
  obtain ⟨hsite, htied, hsuper⟩ := h
  exact ⟨Nat.lt_of_lt_of_le hsite hn, (ht _ hsite).trans htied, hsuper⟩

/-- It does not matter which name has no value yet. -/
theorem UsesFit.linked {t : BindingTable} {n : Nat} {scopes : Scopes} {pending : Option String}
    {us : List Use} (h : UsesFit (Occurrence.Linked t n) scopes pending us) :
    UsesFit (Occurrence.Linked t n) scopes none us :=
  fun u hu => h u hu

/-- A statement that the analysis accepts in the scopes around it. -/
structure Stmt.Valid (P : Occurrence → Prop) (scopes : Scopes) (s : Stmt) : Prop where
  fits : s.Fits P scopes
  accepted : ∃ ctx, faults (walkStmt ctx scopes s).2 = []

structure Stmt.EachValid (P : Occurrence → Prop) (scopes : Scopes) (ss : List Stmt) : Prop where
  fits : Stmt.EachFits P scopes ss
  accepted : ∃ ctx, faults (walkStmts ctx scopes ss).2 = []

structure Routine.Valid (P : Occurrence → Prop) (scopes : Scopes) (r : Routine) : Prop where
  fits : r.Fits P scopes
  accepted : ∃ ctx, faults (walkRoutine ctx scopes r) = []

section Valid

variable {P Q : Occurrence → Prop} {scopes : Scopes}

theorem Stmt.eachValid_cons {s : Stmt} {ss : List Stmt} (h : Stmt.EachValid P scopes (s :: ss)) :
    s.Valid P scopes ∧ Stmt.EachValid P (scopes.after s) ss := by
  obtain ⟨hfirst, hrest⟩ := Stmt.eachFits_cons.mp h.fits
  obtain ⟨ctx, ha⟩ := h.accepted
  simp only [walkStmts, walkStmt_fst ctx scopes hfirst.1, faults_append,
    List.append_eq_nil_iff] at ha
  exact ⟨⟨hfirst, ctx, ha.1⟩, ⟨hrest, ctx, ha.2⟩⟩

theorem not_mem_of_redeclared {name : Name} (h : faults (redeclared scopes name) = []) :
    ∀ names ∈ scopes.head?, name.text ∉ names := by
  cases scopes with
  | nil => exact nofun
  | cons first scopes =>
    intro names hn hmem
    obtain rfl : first = names := Option.some.inj hn
    simp [redeclared, Scopes.declares, hmem] at h

theorem mem_head_declare (scopes : Scopes) (name : String) :
    ∀ names ∈ (scopes.declare name).head?, name ∈ names := by
  cases scopes with
  | nil => exact nofun
  | cons first scopes => exact fun names hn => Option.some.inj hn ▸ List.mem_cons_self

/-- The faults of parameters say that no name comes twice. -/
theorem nodup_of_walkParams {params : List Name} {names : List String}
    (h : faults (walkParams (names :: scopes) params).2 = []) (hn : names.Nodup) :
    ((params.map (·.text)).reverse ++ names).Nodup := by
  induction params generalizing names with
  | nil => simpa using hn
  | cons p ps ih =>
    simp only [walkParams, faults_append, List.append_eq_nil_iff] at h
    have hp : p.text ∉ names := not_mem_of_redeclared h.1 names rfl
    have hrest := ih h.2 (List.nodup_cons.mpr ⟨hp, hn⟩)
    simpa using hrest

theorem Routine.Valid.body {r : Routine} (h : r.Valid P scopes) :
    (r.params.map (·.text)).Nodup ∧
      Stmt.EachValid P (scopes.withParams r.params) r.body := by
  obtain ⟨name, params, body⟩ := r
  obtain ⟨ctx, ha⟩ := h.accepted
  simp only [walkRoutine, walkParams_fst, faults_append, List.append_eq_nil_iff] at ha
  refine ⟨?_, h.fits.body.2, ctx, ha.2⟩
  simpa [Routine.params] using nodup_of_walkParams ha.1 List.nodup_nil

theorem Routine.valid_of_mem {k : InClass} {rs : List Routine} (hr : Routine.EachRegular rs)
    (ho : ∀ o ∈ Routine.eachOccurrences scopes rs, P o)
    (ha : faults (walkMethods k scopes rs) = []) {r : Routine} (h : r ∈ rs) :
    r.Valid P scopes := by
  refine ⟨Routine.fits_of_mem hr ho h, ?_⟩
  induction rs with
  | nil => cases h
  | cons head rs ih =>
    simp only [walkMethods, faults_append, List.append_eq_nil_iff] at ha
    simp only [Routine.eachOccurrences, List.mem_append, or_imp, forall_and] at ho
    rcases List.mem_cons.mp h with rfl | h
    · exact ⟨_, ha.1⟩
    · exact ih hr.2 ho.2 ha.2 h

theorem Routine.Valid.mono (hP : ∀ o, P o → Q o) {r : Routine} (h : r.Valid P scopes) :
    r.Valid Q scopes :=
  ⟨h.fits.mono hP, h.accepted⟩

end Valid

namespace Lexical

/-! ## Worlds -/

/-- The cells of the names in scopes, the scopes around scopes, and the environments. -/
structure World where
  cell : ScopeId → String → Option Cell
  outer : ScopeId → Option ScopeId
  env : EnvId → Option Env

namespace World

variable {w w' w'' : World} {scopes : Scopes} {scope : ScopeId} {ρ : Env}

/-- What a world keeps when it grows. -/
structure Le (w w' : World) : Prop where
  cell : ∀ {s name c}, w.cell s name = some c → w'.cell s name = some c
  outer : ∀ {s o}, w.outer s = some o → w'.outer s = some o
  env : ∀ {e ρ}, w.env e = some ρ → w'.env e = some ρ

theorem Le.refl (w : World) : w.Le w := ⟨id, id, id⟩

theorem Le.trans (h : w.Le w') (h' : w'.Le w'') : w.Le w'' :=
  ⟨fun hc => h'.cell (h.cell hc), fun ho => h'.outer (h.outer ho), fun he => h'.env (h.env he)⟩

/-- An environment has, for the names of each of the scopes, their cells in the chain from `scope`
outwards, and no other names. -/
def Maps (w : World) : Scopes → ScopeId → Env → Prop
  | [], _, ρ => ∀ name, ρ.get? name = none
  | names :: scopes, scope, ρ =>
    ∃ outer ρ', w.outer scope = some outer ∧ Maps w scopes outer ρ' ∧
      (∀ name ∈ names, ∃ c, w.cell scope name = some c ∧ ρ.get? name = some c) ∧
        ∀ name, name ∉ names → ρ.get? name = ρ'.get? name

theorem Maps.mono (h : w.Maps scopes scope ρ) (hle : w.Le w') : w'.Maps scopes scope ρ := by
  induction scopes generalizing scope ρ with
  | nil => exact h
  | cons names scopes ih =>
    obtain ⟨outer, ρ', ho, hmaps, hnames, hothers⟩ := h
    refine ⟨outer, ρ', hle.outer ho, ih hmaps, fun name hn => ?_, hothers⟩
    obtain ⟨c, hc, hρ⟩ := hnames name hn
    exact ⟨c, hle.cell hc, hρ⟩

/-- A name that no scope declares is not in the environment. -/
theorem Maps.get?_eq_none {name : String} (h : w.Maps scopes scope ρ)
    (hn : scopes.hops? name = none) : ρ.get? name = none := by
  induction scopes generalizing scope ρ with
  | nil => exact h name
  | cons names scopes ih =>
    obtain ⟨outer, ρ', -, hmaps, -, hothers⟩ := h
    rw [Scopes.hops?_cons] at hn
    split at hn
    · cases hn
    · next hmem =>
      rw [hothers name hmem]
      exact ih hmaps (Option.map_eq_none_iff.mp hn)

/-- A declared name has the cell of the scope at its distance. -/
theorem Maps.ancestor {st : Store} (ho : ∀ s, w.outer s = st.enclosing? s) {name : String} {d : Nat}
    (h : w.Maps scopes scope ρ) (hd : scopes.hops? name = some d) :
    ∃ owner c, st.ancestor? scope d = some owner ∧ w.cell owner name = some c ∧
      ρ.get? name = some c := by
  induction scopes generalizing scope ρ d with
  | nil => cases hd
  | cons names scopes ih =>
    obtain ⟨outer, ρ', hout, hmaps, hnames, hothers⟩ := h
    rw [Scopes.hops?_cons] at hd
    split at hd
    · next hmem =>
      cases hd
      obtain ⟨c, hc, hρ⟩ := hnames name hmem
      exact ⟨scope, c, rfl, hc, hρ⟩
    · next hmem =>
      obtain ⟨d', hd', rfl⟩ := Option.map_eq_some_iff.mp hd
      obtain ⟨owner, c, ha, hc, hρ⟩ := ih hmaps hd'
      refine ⟨owner, c, ?_, hc, (hothers name hmem).trans hρ⟩
      rw [Store.ancestor?, ← ho scope, hout]
      exact ha

/-- A scope with an environment. -/
def Scoped (w : World) (scopes : Scopes) (scope : ScopeId) (env : EnvId) : Prop :=
  ∃ ρ, w.env env = some ρ ∧ w.Maps scopes scope ρ

theorem Scoped.mono {env : EnvId} (h : w.Scoped scopes scope env) (hle : w.Le w') :
    w'.Scoped scopes scope env := by
  obtain ⟨ρ, hρ, hmaps⟩ := h
  exact ⟨ρ, hle.env hρ, hmaps.mono hle⟩

/-! ## Values -/

/-- Functions of the same code, whose scope and environment belong together. Those of an initializer
have the same cell for `this`. -/
structure Closures (w : World) (P : Occurrence → Prop) (f g : Closure) : Prop where
  routine : g.routine = f.routine
  isInitializer : g.isInitializer = f.isInitializer
  code : ∃ scopes, f.routine.Valid P scopes ∧ w.Scoped scopes f.scope g.scope
  this : f.isInitializer → ∃ c ρ, w.cell f.scope Keyword.this.spelling = some c ∧
    w.env g.scope = some ρ ∧ ρ.get? Keyword.this.spelling = some c

/-- Methods of the same code; the scope of `this` is not there yet. -/
structure Methods (w : World) (P : Occurrence → Prop) (f g : Closure) : Prop where
  routine : g.routine = f.routine
  isInitializer : g.isInitializer = f.isInitializer
  code : ∃ scopes, f.routine.Valid P ([Keyword.this.spelling] :: scopes) ∧
    w.Scoped scopes f.scope g.scope

/-- Tables with the same names of methods in the same order. -/
def MethodTables (w : World) (P : Occurrence → Prop) (b b' : Bindings Closure) : Prop :=
  List.Forall₂ (fun entry entry' => entry.1 = entry'.1 ∧ w.Methods P entry.2 entry'.2) b b'

inductive Classes (w : World) (P : Occurrence → Prop) : Class → Class → Prop where
  | root {i name} (hm : w.MethodTables P ms ms') :
      Classes w P (.mk i name none ms) (.mk i name none ms')
  | derived {i name} (hp : Classes w P p p') (hm : w.MethodTables P ms ms') :
      Classes w P (.mk i name (some p) ms) (.mk i name (some p') ms')

/-- Values that are equal but for the scopes and environments of closures. -/
inductive Values (w : World) (P : Occurrence → Prop) : Value → Value → Prop where
  | nil : Values w P .nil .nil
  | bool (b) : Values w P (.bool b) (.bool b)
  | number (x) : Values w P (.number x) (.number x)
  | string (s) : Values w P (.string s) (.string s)
  | native (f) : Values w P (.native f) (.native f)
  | function (i) (h : w.Closures P f g) : Values w P (.function i f) (.function i g)
  | class_ (h : w.Classes P c d) : Values w P (.class_ c) (.class_ d)
  | object (id) (h : w.Classes P c d) : Values w P (.object id c) (.object id d)

theorem classes_iff {P : Occurrence → Prop} {c d : Class} :
    w.Classes P c d ↔ c.Like (w.Methods P) d := by
  constructor
  · intro h
    induction h with
    | root hm => exact .root hm
    | derived _ hm ih => exact .derived ih hm
  · intro h
    induction h with
    | root hm => exact .root hm
    | derived _ hm ih => exact .derived ih hm

/-- Values that belong together are alike. -/
theorem values_iff {P : Occurrence → Prop} {v v' : Value} :
    w.Values P v v' ↔ v.Like (w.Closures P) (w.Methods P) v' := by
  constructor
  · intro h
    cases h with
    | function i h => exact .function i h
    | class_ h => exact .class_ (classes_iff.mp h)
    | object id h => exact .object id (classes_iff.mp h)
    | _ => constructor
  · intro h
    cases h with
    | function i h => exact .function i h
    | class_ h => exact .class_ (classes_iff.mpr h)
    | object id h => exact .object id (classes_iff.mpr h)
    | _ => constructor

section Mono

variable {P Q : Occurrence → Prop} (hP : ∀ o, P o → Q o) (hle : w.Le w')

include hP hle

theorem Closures.mono {f g : Closure} (h : w.Closures P f g) : w'.Closures Q f g := by
  obtain ⟨scopes, hr, hs⟩ := h.code
  refine ⟨h.routine, h.isInitializer, ⟨scopes, hr.mono hP, hs.mono hle⟩, fun hi => ?_⟩
  obtain ⟨c, ρ, hc, hρ, hthis⟩ := h.this hi
  exact ⟨c, ρ, hle.cell hc, hle.env hρ, hthis⟩

theorem Methods.mono {f g : Closure} (h : w.Methods P f g) : w'.Methods Q f g := by
  obtain ⟨scopes, hr, hs⟩ := h.code
  exact ⟨h.routine, h.isInitializer, ⟨scopes, hr.mono hP, hs.mono hle⟩⟩

theorem Classes.mono {c d : Class} (h : w.Classes P c d) : w'.Classes Q c d :=
  classes_iff.mpr ((classes_iff.mp h).mono fun _ _ h => h.mono hP hle)

theorem Values.mono {v v' : Value} (h : w.Values P v v') : w'.Values Q v v' :=
  values_iff.mpr ((values_iff.mp h).mono (fun _ _ h => h.mono hP hle) fun _ _ h => h.mono hP hle)

theorem optional_mono {v v' : Option Value} (h : Option.Rel (w.Values P) v v') :
    Option.Rel (w'.Values Q) v v' := by
  cases h with
  | none => exact .none
  | some h => exact .some (h.mono hP hle)

end Mono

theorem Values.grow {P : Occurrence → Prop} {v v' : Value} (h : w.Values P v v') (hle : w.Le w') :
    w'.Values P v v' :=
  h.mono (fun _ ho => ho) hle

theorem optional_grow {P : Occurrence → Prop} {v v' : Option Value}
    (h : Option.Rel (w.Values P) v v') (hle : w.Le w') : Option.Rel (w'.Values P) v v' :=
  optional_mono (fun _ ho => ho) hle h

/-! ## Operations on values -/

/-- Both fail alike, or both give values that belong together. -/
inductive Results (w : World) (P : Occurrence → Prop) :
    Except RuntimeError Value → Except RuntimeError Value → Prop where
  | ok (h : w.Values P v v') : Results w P (.ok v) (.ok v')
  | error (e) : Results w P (.error e) (.error e)

section Operations

variable {P : Occurrence → Prop} {v v' u u' : Value}

theorem results_of_like {r r' : Except RuntimeError Value}
    (h : LoxLang.Results (w.Closures P) (w.Methods P) r r') : w.Results P r r' := by
  cases h with
  | ok h => exact .ok (values_iff.mpr h)
  | error e => exact .error e

theorem Closures.sameHead {f g : Closure} (h : w.Closures P f g) : f.SameHead g :=
  ⟨congrArg Routine.name h.routine.symm, congrArg Routine.params h.routine.symm⟩

theorem Methods.sameHead {f g : Closure} (h : w.Methods P f g) : f.SameHead g :=
  ⟨congrArg Routine.name h.routine.symm, congrArg Routine.params h.routine.symm⟩

theorem Values.isTruthy_eq (h : w.Values P v v') : v.isTruthy = v'.isTruthy :=
  (values_iff.mp h).isTruthy_eq

theorem Values.text_eq (h : w.Values P v v') : v.text = v'.text :=
  (values_iff.mp h).text_eq fun _ _ h => h.sameHead

theorem Values.literal (l : Literal) : w.Values P l.value l.value :=
  values_iff.mpr (.literal l)

theorem results_unary (h : w.Values P v v') (op : UnaryOp) :
    w.Results P (op.apply v) (op.apply v') :=
  results_of_like ((values_iff.mp h).unary op)

theorem results_binary (h : w.Values P v v') (h' : w.Values P u u') (op : BinaryOp) :
    w.Results P (op.apply v u) (op.apply v' u') :=
  results_of_like ((values_iff.mp h).binary (values_iff.mp h') op)

/-- Classes that belong together have methods that do. -/
theorem Classes.method? {c d : Class} (h : w.Classes P c d) (name : String) :
    (c.method? name = none ∧ d.method? name = none) ∨
      ∃ f g, c.method? name = some f ∧ d.method? name = some g ∧ w.Methods P f g :=
  rel_cases ((classes_iff.mp h).method? name)

theorem Values.arity?_eq (h : w.Values P v v') : Machine.arity? v = Machine.arity? v' :=
  (values_iff.mp h).arity?_eq (fun _ _ h => h.sameHead) fun _ _ h => h.sameHead

end Operations

end World

end Lexical

end LoxLang
