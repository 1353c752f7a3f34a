import LoxLang.Proofs.Scoping.Ties
import LoxLang.Store

/-!
# Scope chains

The scopes that the analysis sees around a place are found again in the store, from the current
scope outwards. The store may grow and its values may change without breaking this: a scope keeps the
scope around it and the names it has, and `this` and `super` keep standing for the object and the
class that they stood for at first.

## Main definitions

* `Store.Le`: what every change of a store keeps.
* `Realizes`: a chain of scopes in a store has the names that the analysis has seen, and no others
  that are reserved words.
-/

namespace LoxLang

open Scoping

/-! ## Names that have a value -/

/-- The name `this` stands for an object and `super` for a class; other names take any value. -/
def Value.Suits (v : Value) (name : String) : Prop :=
  (name = Keyword.this.spelling → ∃ id c, v = .object id c) ∧
    (name = Keyword.super.spelling → ∃ c, v = .class_ c)

theorem Name.IsOrdinary.suits {n : Name} (h : n.IsOrdinary) (v : Value) : v.Suits n.text :=
  ⟨fun he => absurd he (h.ne_spelling .this), fun he => absurd he (h.ne_spelling .super)⟩

namespace Store

/-- A scope has a name, with a value that suits it. -/
def Has (st : Store) (scope : ScopeId) (name : String) : Prop :=
  ∃ v, st.lookup? scope name = some v ∧ v.Suits name

/-- What a store keeps when it changes. -/
structure Le (st st' : Store) : Prop where
  enclosing : ∀ {s outer}, st.enclosing? s = some outer → st'.enclosing? s = some outer
  has : ∀ {s name}, st.Has s name → st'.Has s name
  /-- Reserved words keep their values. -/
  words : ∀ {s outer}, st.enclosing? s = some outer →
    ∀ k : Keyword, st'.lookup? s k.spelling = st.lookup? s k.spelling

theorem Le.refl (st : Store) : st.Le st := ⟨id, id, fun _ _ => rfl⟩

theorem Le.trans {a b c : Store} (h : a.Le b) (h' : b.Le c) : a.Le c :=
  ⟨fun he => h'.enclosing (h.enclosing he), fun he => h'.has (h.has he),
    fun he k => (h'.words (h.enclosing he) k).trans (h.words he k)⟩

theorem enclosing?_nextScope (st : Store) : st.enclosing? st.nextScope = none := by
  simp [enclosing?, nextScope]

theorem lt_nextScope_of_enclosing? {st : Store} {s outer : ScopeId}
    (h : st.enclosing? s = some outer) : s < st.nextScope := by
  unfold enclosing? at h
  obtain ⟨sc, hsc, -⟩ := Option.bind_eq_some_iff.mp h
  exact (Array.getElem?_eq_some_iff.mp hsc).1

theorem lt_nextScope_of_lookup? {st : Store} {s : ScopeId} {name : String} {v : Value}
    (h : st.lookup? s name = some v) : s < st.nextScope := by
  unfold lookup? at h
  obtain ⟨sc, hsc, -⟩ := Option.bind_eq_some_iff.mp h
  exact (Array.getElem?_eq_some_iff.mp hsc).1

theorem le_addScope (st : Store) (outer : Option ScopeId) (b : Bindings Value) :
    st.Le (st.addScope outer b) := by
  refine ⟨fun {s o} h => ?_, fun {s name} ⟨v, hv, hs⟩ => ⟨v, ?_, hs⟩, fun {s o} h k => ?_⟩
  · have hne : s ≠ st.nextScope := Nat.ne_of_lt (lt_nextScope_of_enclosing? h)
    rw [enclosing?_addScope, if_neg hne, h]
  · have hne : s ≠ st.nextScope := Nat.ne_of_lt (lt_nextScope_of_lookup? hv)
    rw [lookup?_addScope, if_neg hne, hv]
  · have hne : s ≠ st.nextScope := Nat.ne_of_lt (lt_nextScope_of_enclosing? h)
    rw [lookup?_addScope, if_neg hne]

/-- Where a name that is no reserved word is given a value, it stays and all others with it. -/
theorem le_define (st : Store) (scope : ScopeId) {name : Name} (h : name.IsOrdinary) (v : Value) :
    st.Le (st.define scope name.text v) := by
  refine ⟨fun he => by rwa [enclosing?_define], fun {s word} ⟨w, hw, hs⟩ => ?_, fun _ k => ?_⟩
  · unfold Has
    rw [lookup?_define]
    split
    · next hc => exact ⟨v, rfl, hc.2.1 ▸ h.suits v⟩
    · exact ⟨w, hw, hs⟩
  · rw [lookup?_define, if_neg fun hc => h.ne_spelling k hc.2.1.symm]

/-- Changes outside the scopes. -/
theorem le_of_scopes_eq {st st' : Store} (h : st'.scopes = st.scopes) : st.Le st' := by
  refine ⟨fun he => ?_, fun he => ?_, fun _ k => ?_⟩
  · simpa [enclosing?, h] using he
  · simpa [Has, lookup?, h] using he
  · simp [lookup?, h]

theorem has_addScope (st : Store) (outer : Option ScopeId) {b : Bindings Value} {name : String}
    {v : Value} (hb : b.get? name = some v) (hv : v.Suits name) :
    (st.addScope outer b).Has st.nextScope name :=
  ⟨v, by rw [lookup?_addScope, if_pos rfl, hb], hv⟩

theorem has_define {st : Store} {scope outer : ScopeId} {name : String} {v : Value}
    (he : st.enclosing? scope = some outer) (hv : v.Suits name) :
    (st.define scope name v).Has scope name :=
  ⟨v, by rw [lookup?_define, if_pos ⟨rfl, rfl, lt_nextScope_of_enclosing? he⟩], hv⟩

end Store

/-! ## Chains -/

/-- From `scope` outwards the store has a scope for each of `scopes`, with a value for all its names
but the one that is pending in the innermost, which is no reserved word. Of the reserved words it
has no others. -/
def Realizes (st : Store) : Option String → Scopes → ScopeId → Prop
  | _, [], _ => True
  | pending, names :: scopes, scope =>
    (∀ name ∈ names, st.Has scope name ∨ pending = some name ∧ Keyword.ofSpelling? name = none) ∧
      (∀ k : Keyword, (st.lookup? scope k.spelling).isSome → k.spelling ∈ names) ∧
        ∃ outer, st.enclosing? scope = some outer ∧ Realizes st none scopes outer

namespace Realizes

variable {st st' : Store} {pending : Option String} {scopes : Scopes} {scope : ScopeId}

theorem mono (h : Realizes st pending scopes scope) (hle : st.Le st') :
    Realizes st' pending scopes scope := by
  induction scopes generalizing pending scope with
  | nil => trivial
  | cons names scopes ih =>
    obtain ⟨hnames, hwords, outer, ho, houter⟩ := h
    refine ⟨fun name hn => (hnames name hn).imp_left hle.has, fun k hk => hwords k ?_, outer,
      hle.enclosing ho, ih houter⟩
    rwa [← hle.words ho k]

/-- A declared name is found at its distance, and unless it is pending it has a value there. -/
theorem ancestor {name : String} {d : Nat} (h : Realizes st pending scopes scope)
    (hd : scopes.hops? name = some d) :
    ∃ owner, st.ancestor? scope d = some owner ∧
      (st.Has owner name ∨ pending = some name ∧ Keyword.ofSpelling? name = none) := by
  induction scopes generalizing pending scope d with
  | nil => cases hd
  | cons names scopes ih =>
    obtain ⟨hnames, -, outer, ho, houter⟩ := h
    rw [Scopes.hops?_cons] at hd
    split at hd
    · next hmem =>
      cases hd
      exact ⟨scope, rfl, hnames name hmem⟩
    · obtain ⟨d', hd', rfl⟩ := Option.map_eq_some_iff.mp hd
      obtain ⟨owner, hancestor, hhas⟩ := ih houter hd'
      refine ⟨owner, ?_, .inl (hhas.resolve_right nofun)⟩
      rw [Store.ancestor?, ho]
      exact hancestor

/-- A name that is being declared is pending. -/
theorem declare (h : Realizes st none scopes scope) (name : Name) (hn : name.IsOrdinary) :
    Realizes st (scopes.pending name.text) (scopes.declare name.text) scope := by
  cases scopes with
  | nil => trivial
  | cons names scopes =>
    obtain ⟨hnames, hwords, houter⟩ := h
    refine ⟨fun word hw => ?_, fun k hk => List.mem_cons_of_mem _ (hwords k hk), houter⟩
    rcases List.mem_cons.mp hw with rfl | hw
    · exact .inr ⟨rfl, hn⟩
    · exact .inl ((hnames word hw).resolve_right nofun)

/-- Once the pending name has a value, all names have one. -/
theorem define {name : Name} (h : Realizes st pending scopes scope)
    (hp : pending = none ∨ pending = some name.text) (hn : name.IsOrdinary) (v : Value) :
    Realizes (st.define scope name.text v) none scopes scope := by
  cases scopes with
  | nil => trivial
  | cons names scopes =>
    obtain ⟨hnames, hwords, outer, ho, houter⟩ := h
    have hle := st.le_define scope hn v
    refine ⟨fun word hw => .inl ?_, fun k hk => hwords k ?_, outer, hle.enclosing ho,
      houter.mono hle⟩
    · rcases hnames word hw with hhas | ⟨hpw, -⟩
      · exact hle.has hhas
      · obtain rfl : name.text = word := by simpa [hpw, eq_comm] using hp
        exact Store.has_define ho (hn.suits v)
    · rwa [← hle.words ho k]

/-- A new scope within a chain. -/
theorem addScope {outer : ScopeId} {names : List String} {b : Bindings Value}
    (h : Realizes st none scopes outer)
    (hb : ∀ name ∈ names, ∃ v, b.get? name = some v ∧ v.Suits name)
    (hw : ∀ k : Keyword, (b.get? k.spelling).isSome → k.spelling ∈ names) :
    Realizes (st.addScope (some outer) b) none (names :: scopes) st.nextScope := by
  refine ⟨fun name hn => .inl ?_, fun k hk => hw k ?_, outer, ?_, h.mono (st.le_addScope _ _)⟩
  · obtain ⟨v, hv, hs⟩ := hb name hn
    exact st.has_addScope _ hv hs
  · rwa [Store.lookup?_addScope, if_pos rfl] at hk
  · rw [Store.enclosing?_addScope, if_pos rfl]

end Realizes

theorem pending_eq_none_or (scopes : Scopes) (name : String) :
    scopes.pending name = none ∨ scopes.pending name = some name := by
  unfold Scopes.pending
  split <;> simp

end LoxLang
