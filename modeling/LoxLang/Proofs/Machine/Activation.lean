import LoxLang.Proofs.Machine.Safety

/-!
# Activations of methods

A method runs in a scope within the one where `this` is its object, and this scope lies within that of
the class, where `super` is the superclass. Blocks and functions nested in the method add scopes
inside. The analysis counts the scopes up to `this` and `super`, and since the chain in the store has
`this` and `super` where the analysis has seen them and nowhere else, the count leads to those of the
method that is running.

## Main definitions

* `Class.chain`: a class and the classes above it.
* `Store.Activates`: code in a scope belongs to a method of an object.

## Main results

* `Class.method?_eq_findSome?`: a method is the first one along the chain.
* `Machine.Config.Fits.superAndThis_eq`: what `super` and `this` stand for.
-/

namespace LoxLang

open Scoping

/-! ## Methods along the chain -/

namespace Class

/-- The methods declared in the class itself. -/
def methods : Class → Bindings Closure
  | mk _ _ _ methods => methods

/-- A class and the classes above it, the nearest first. -/
def chain : Class → List Class
  | mk identity name none methods => [mk identity name none methods]
  | mk identity name (some parent) methods =>
    mk identity name (some parent) methods :: parent.chain

/-- A method is the first one with its name along the chain. -/
theorem method?_eq_findSome? (name : String) :
    ∀ c : Class, c.method? name = c.chain.findSome? fun d => d.methods.get? name
  | mk _ _ none ms => by
    rw [method?, chain, List.findSome?_singleton]
    rfl
  | mk _ _ (some parent) ms => by
    rw [method?, chain, List.findSome?_cons, method?_eq_findSome? name parent, methods]
    cases ms.get? name <;> rfl

theorem method?_eq_none_iff {name : String} {c : Class} :
    c.method? name = none ↔ ∀ d ∈ c.chain, d.methods.get? name = none := by
  rw [method?_eq_findSome?, List.findSome?_eq_none_iff]

end Class

/-! ## Scopes of an activation -/

namespace Store

/-- Code in a scope belongs to a method that was declared in the scope `home` and runs for `receiver`:
going outwards, the first scope with `this` has this value for it and lies in `home`. -/
inductive Activates (st : Store) (home : ScopeId) (receiver : Value) : ScopeId → Prop where
  | method (he : st.enclosing? a = some home)
      (ht : st.lookup? a Keyword.this.spelling = some receiver) : Activates st home receiver a
  | within (he : st.enclosing? a = some outer) (ht : st.lookup? a Keyword.this.spelling = none)
      (h : Activates st home receiver outer) : Activates st home receiver a

variable {st : Store} {pending : Option String} {scopes : Scopes} {a home : ScopeId}
  {receiver : Value} {d : Nat}

/-- Reserved words are where the analysis has seen them. -/
theorem lookup?_spelling_isSome_iff {names : List String}
    (h : Realizes st pending (names :: scopes) a) (k : Keyword) :
    (st.lookup? a k.spelling).isSome ↔ k.spelling ∈ names := by
  refine ⟨h.2.1 k, fun hk => ?_⟩
  rcases h.1 _ hk with ⟨v, hv, -⟩ | ⟨-, hword⟩
  · rw [hv]
    rfl
  · rw [Keyword.ofSpelling?_spelling] at hword
    cases hword

theorem hops?_of_cons {names : List String} {name : String}
    (h : Scopes.hops? (names :: scopes) name = some (d + 1)) :
    Scopes.hops? scopes name = some d := by
  rw [Scopes.hops?_cons] at h
  split at h
  · cases h
  · obtain ⟨e, he, heq⟩ := Option.map_eq_some_iff.mp h
    rwa [Nat.succ.inj heq] at he

/-- The distances of `this` and `super` lead to those of the activation. -/
theorem Activates.getAt_this (ha : st.Activates home receiver a) (h : Realizes st pending scopes a)
    (hthis : scopes.hops? Keyword.this.spelling = some d)
    (hsuper : scopes.hops? Keyword.super.spelling = some (d + 1)) :
    st.getAt a d Keyword.this.spelling = .ok receiver ∧ st.ancestor? a (d + 1) = some home := by
  induction ha generalizing pending scopes d with
  | @method a he ht =>
    cases scopes with
    | nil => cases hthis
    | cons names scopes =>
      have hmem := (lookup?_spelling_isSome_iff h .this).mp (by rw [ht]; rfl)
      rw [Scopes.hops?_cons, if_pos hmem] at hthis
      cases hthis
      refine ⟨Store.getAt_eq_ok.mpr ⟨a, rfl, ht⟩, ?_⟩
      rw [ancestor?, he]
      rfl
  | @within a outer he ht _ ih =>
    cases scopes with
    | nil => cases hthis
    | cons names scopes =>
      have hmem : Keyword.this.spelling ∉ names := fun hmem => by
        have hsome := (lookup?_spelling_isSome_iff h .this).mpr hmem
        rw [ht] at hsome
        cases hsome
      rw [Scopes.hops?_cons, if_neg hmem] at hthis
      obtain ⟨e, hinner, rfl⟩ := Option.map_eq_some_iff.mp hthis
      obtain ⟨-, -, outer', houter, hrealizes⟩ := h
      obtain rfl : outer = outer' := Option.some.inj (he.symm.trans houter)
      obtain ⟨hget, hhome⟩ := ih hrealizes hinner (hops?_of_cons hsuper)
      obtain ⟨owner, howner, hl⟩ := Store.getAt_eq_ok.mp hget
      refine ⟨Store.getAt_eq_ok.mpr ⟨owner, ?_, hl⟩, ?_⟩
      · rw [ancestor?, he]
        exact howner
      · rw [ancestor?, he]
        exact hhome

/-- Where the analysis has seen `this` and `super`, a method is running. -/
theorem exists_activates (h : Realizes st pending scopes a)
    (hthis : scopes.hops? Keyword.this.spelling = some d)
    (hsuper : scopes.hops? Keyword.super.spelling = some (d + 1)) :
    ∃ home receiver, st.Activates home receiver a ∧ st.Has home Keyword.super.spelling := by
  induction scopes generalizing pending a d with
  | nil => cases hthis
  | cons names scopes ih =>
    have hiff := lookup?_spelling_isSome_iff h .this
    obtain ⟨-, -, outer, houter, hrealizes⟩ := h
    replace hsuper := hops?_of_cons hsuper
    rw [Scopes.hops?_cons] at hthis
    split at hthis
    · next hmem =>
      cases hthis
      obtain ⟨receiver, hr⟩ := Option.isSome_iff_exists.mp (hiff.mpr hmem)
      obtain ⟨owner, howner, hhas⟩ := hrealizes.ancestor hsuper
      cases howner
      exact ⟨outer, receiver, .method houter hr, hhas.resolve_right nofun⟩
    · next hmem =>
      obtain ⟨e, he, rfl⟩ := Option.map_eq_some_iff.mp hthis
      obtain ⟨home, receiver, hactivates, hhas⟩ := ih hrealizes he hsuper
      have hnone : st.lookup? a Keyword.this.spelling = none :=
        Option.not_isSome_iff_eq_none.mp fun hsome => hmem (hiff.mp hsome)
      exact ⟨home, receiver, .within houter hnone hactivates, hhas⟩

end Store

namespace Machine

variable {n : Nat} {site : Site} {line : Nat} {method : Name} {k : List Frame} {s : State}

/-- A tied `super` is read where the analysis has seen `this` and `super`. -/
theorem Config.Fits.exists_scopes
    (h : Config.Fits (Occurrence.Grounded s.table n) ⟨.eval (.super site line method), k, s⟩)
    {hops : Nat} (ht : s.table.hops? site = some hops) :
    ∃ scopes pending d, Realizes s.store pending scopes s.scope ∧
      scopes.hops? Keyword.this.spelling = some d ∧
        scopes.hops? Keyword.super.spelling = some (d + 1) ∧ hops = d + 1 := by
  obtain ⟨scopes, pending, he, h⟩ := h
  obtain ⟨htied, hlegal⟩ := (he _ List.mem_cons_self).tied.resolve_left (by simp [ht])
  obtain ⟨d, hthis, hsuper⟩ := hlegal.hasSuper rfl
  exact ⟨scopes, pending, d, h.realized, hthis, hsuper,
    Option.some.inj (ht.symm.trans (htied.trans hsuper))⟩

/-- In an activation `super` and `this` stand for the superclass of the method that is running and
for its object. -/
theorem Config.Fits.superAndThis_eq
    (h : Config.Fits (Occurrence.Grounded s.table n) ⟨.eval (.super site line method), k, s⟩)
    {hops : Nat} (ht : s.table.hops? site = some hops) {home : ScopeId} {receiver : Value}
    (ha : s.store.Activates home receiver s.scope) {parent : Class}
    (hparent : s.store.lookup? home Keyword.super.spelling = some (.class_ parent)) :
    superAndThis hops s = .ok (parent, receiver) := by
  have hreceiver : ∀ {d}, hops = d + 1 →
      s.store.getAt s.scope d Keyword.this.spelling = .ok receiver →
        ∃ object own, receiver = .object object own := by
    rintro d rfl hget
    exact (h.suits_of_getAt (.receiver ht) hget).1 rfl
  obtain ⟨scopes, pending, d, hr, hthis, hsuper, rfl⟩ := h.exists_scopes ht
  obtain ⟨hget, hhome⟩ := ha.getAt_this hr hthis hsuper
  obtain ⟨object, own, rfl⟩ := hreceiver rfl hget
  exact superAndThis_eq_ok.mpr
    ⟨d, object, own, rfl, Store.getAt_eq_ok.mpr ⟨home, hhome, hparent⟩, hget, rfl⟩

end Machine

end LoxLang
