import LoxLang.Proofs.Machine.Seclusion
import LoxLang.Proofs.Padding.Simulation

/-!
# The two runs start alike

Before the programs run, both runs have the same store. Each of its scopes stands for itself, and its
code is older than both programs, so that the two tables say the same about it.

## Main results

* `matched_interpreting`: a program and the same program with more blocks start alike.
-/

namespace LoxLang.Padding

open Machine Scoping World

/-- Each scope of a store stands for itself. -/
def World.ofStore (st : Store) : World where
  twin a := if a < st.nextScope then some a else none
  outer := st.enclosing?
  outer' := st.enclosing?

theorem twin_ofStore {st : Store} {a b : ScopeId} :
    (ofStore st).twin a = some b ↔ a < st.nextScope ∧ a = b := by
  simp only [ofStore]
  split <;> simp_all

section

variable {t t' : BindingTable} {P : Occurrence → Prop}
  (hP : ∀ o, P o → Agrees t t' id o.use o.use)

include hP

/-- Old code pads itself. -/
theorem related_self {scopes : Scopes} {r : Routine} (h : r.Fits P scopes) :
    Related t t' .routine id r r := by
  refine Pads.refl_routine fun u hu => ?_
  rw [← Routine.map_use_occurrences scopes] at hu
  obtain ⟨o, ho, rfl⟩ := List.mem_map.mp hu
  exact hP o (h.2 o ho)

variable {c : Config} (hc : c.Secluded (· < c.state.store.nextScope) False)

omit hP

include hc

/-- All scopes together are a region, so the scopes around a scope are among them. -/
theorem reaches_self {a : ScopeId} (ha : a < c.state.store.nextScope) :
    (ofStore c.state.store).Reaches id a a := by
  have hup : ∀ d b, up c.state.store.enclosing? d a = some b → b < c.state.store.nextScope := by
    intro d
    induction d generalizing a with
    | zero =>
      intro b hb
      exact Option.some.inj hb ▸ ha
    | succ d ih =>
      intro b hb
      obtain ⟨o, ho, hb⟩ := Option.bind_eq_some_iff.mp hb
      exact ih (hc.outwards a o ha ho) b hb
  exact fun d b hb => ⟨b, twin_ofStore.mpr ⟨hup d b hb, rfl⟩, hb⟩

include hP

theorem functions_self {f : Closure} (h : f.Fits P c.state.store)
    (hs : f.scope < c.state.store.nextScope) : (ofStore c.state.store).Functions t t' f f := by
  obtain ⟨scopes, hcode, -⟩ := h
  exact ⟨rfl, id, rfl, related_self hP hcode, reaches_self hc hs⟩

theorem methods_self {m : Closure} (h : m.FitsAsMethod P c.state.store)
    (hs : m.scope < c.state.store.nextScope) : (ofStore c.state.store).Methods t t' m m := by
  obtain ⟨scopes, hcode, -⟩ := h
  refine ⟨rfl, id, rfl, ?_, reaches_self hc hs⟩
  rw [Distances.within_id]
  exact related_self hP hcode

theorem classes_self : ∀ {d : Class}, d.Fits P c.state.store →
    d.AllMethods (fun _ m => m.scope < c.state.store.nextScope) →
    d.Like ((ofStore c.state.store).Methods t t') d
  | .mk _ _ none _, h, hs =>
    .root (List.forall₂_same.mpr fun entry he =>
      ⟨rfl, methods_self hP hc (h entry he) (hs entry he)⟩)
  | .mk _ _ (some _) _, h, hs =>
    .derived (classes_self h.1 hs.1) (List.forall₂_same.mpr fun entry he =>
      ⟨rfl, methods_self hP hc (h.2 entry he) (hs.2 entry he)⟩)

/-- A value in the store belongs to itself. -/
theorem values_self {v : Value} (h : v.Fits P c.state.store) (hv : c.state.store.Holds v) :
    (ofStore c.state.store).Values t t' v v := by
  have hs := hc.values v (.inr hv)
  cases v with
  | function i f => exact .function i (functions_self hP hc h hs)
  | class_ d => exact .class_ (classes_self hP hc h hs)
  | object i d => exact .object i (classes_self hP hc h hs)
  | nil => exact .nil
  | bool b => exact .bool b
  | number x => exact .number x
  | string s => exact .string s
  | native f => exact .native f

theorem stores_self (h : c.state.store.Fits P)
    (htop : c.state.store.enclosing? globalScope = none) :
    (ofStore c.state.store).Stores t t' c.state.store c.state.store := by
  have hoption : ∀ {v : Option Value},
      (∀ u, v = some u → (ofStore c.state.store).Values t t' u u) →
      Option.Rel ((ofStore c.state.store).Values t t') v v := fun {v} hv => by
    cases v with
    | none => exact .none
    | some u => exact .some (hv u rfl)
  refine ⟨fun _ => rfl, fun _ => rfl, fun ht => ?_, fun ha hb => ?_, fun ht name => ?_,
    twin_ofStore.mpr ⟨hc.global, rfl⟩, ⟨htop, htop⟩, fun id name => ?_, rfl, rfl⟩
  · obtain ⟨hlt, rfl⟩ := twin_ofStore.mp ht
    exact ⟨hlt, hlt⟩
  · exact (twin_ofStore.mp ha).2.trans (twin_ofStore.mp hb).2.symm
  · obtain ⟨-, rfl⟩ := twin_ofStore.mp ht
    exact hoption fun v hv => values_self hP hc (h.lookup hv) (.scope hv)
  · exact hoption fun v hv => values_self hP hc (h.field hv) (.field hv)

/-- A program and the same program with more blocks start alike, on one store with two tables. -/
theorem matched_interpreting (h : c.state.store.Fits P)
    (htop : c.state.store.enclosing? globalScope = none) (hscope : c.state.scope = globalScope)
    {p p' : Program} (hp : Related t t' .statements id p p') :
    Matched t t' (State.interpreting { c.state with table := t } p)
      (State.interpreting { c.state with table := t' } p') := by
  refine ⟨ofStore c.state.store, .ended ⟨stores_self hP hc h htop, ⟨rfl, rfl⟩, rfl, rfl, rfl⟩
    (.program ⟨id, ?_, hp⟩)⟩
  exact reaches_self hc (hscope ▸ hc.global)

end

end LoxLang.Padding
