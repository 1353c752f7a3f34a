import LoxLang.Proofs.Machine.Activation
import LoxLang.Proofs.Store.Walk

/-!
# Searches along links

A scope leads to the scope around it and a class to its superclass. Names are read and changed, and
methods found, by searches along these links: a search ends at the first place that has an answer,
or at a place that leads nowhere. Where links lead to what is older, every search comes to its end.

## Main definitions

* `Search`: a search that ends.
* `Store.Rooted`: all scopes lie within the global one.

## Main results

* `exists_search`: a search ends if links lead to what is older.
* `Store.get_of_search`, `Store.assign_of_search`, `Class.method?_of_search`: what searches give.
* `Store.Rooted.exists_ancestor?_eq`: every scope leads to the global one.
-/

namespace LoxLang

open Machine

/-- A search along links ends: at the first place that has an answer, or without one where there is
no further link. -/
inductive Search {α β : Type} (link : α → Option α) (answer : α → Option β) :
    α → Option β → Prop where
  | found (h : answer a = some b) : Search link answer a (some b)
  | onwards (h : answer a = none) (hl : link a = some a') (hs : Search link answer a' r) :
      Search link answer a r
  | lost (h : answer a = none) (hl : link a = none) : Search link answer a none

/-- A search ends if links lead to what is older. -/
theorem exists_search {α β : Type} {link : α → Option α} (answer : α → Option β) {P : α → Prop}
    (age : α → Nat) (hlink : ∀ {a b}, P a → link a = some b → P b ∧ age b < age a) {a : α}
    (ha : P a) : ∃ r, Search link answer a r := by
  induction hn : age a using Nat.strongRecOn generalizing a with
  | ind n ih =>
    cases hanswer : answer a with
    | some b => exact ⟨some b, .found hanswer⟩
    | none =>
      cases hl : link a with
      | none => exact ⟨none, .lost hanswer hl⟩
      | some b =>
        obtain ⟨hb, hlt⟩ := hlink ha hl
        obtain ⟨r, hr⟩ := ih (age b) (hn ▸ hlt) hb rfl
        exact ⟨r, .onwards hanswer hl hr⟩

/-! ## Names -/

namespace Store

variable {s : Store} {a outer : ScopeId} {name : String}

/-- A walk from a scope without the name goes on as one from the scope around it. -/
theorem owner?_outwards (hs : s.Layered) (h : s.lookup? a name = none)
    (ho : s.enclosing? a = some outer) : s.owner? a name = s.owner? outer name := by
  refine Option.ext fun owner => ?_
  rw [owner?_eq_some_iff hs, owner?_eq_some_iff hs]
  constructor
  · rintro ⟨hops, hfound⟩
    cases hops with
    | zero =>
      have hbound := (foundAt_zero_iff.mp hfound).2
      simp [h] at hbound
    | succ d =>
      obtain ⟨-, outer', houter, hfound⟩ := foundAt_succ_iff.mp hfound
      obtain rfl := Option.some.inj (ho.symm.trans houter)
      exact ⟨d, hfound⟩
  · rintro ⟨d, hfound⟩
    exact ⟨d + 1, foundAt_succ_iff.mpr ⟨h, outer, ho, hfound⟩⟩

theorem owner?_eq_self (hs : s.Layered) (h : (s.lookup? a name).isSome) :
    s.owner? a name = some a :=
  (owner?_eq_some_iff hs).mpr ⟨0, foundAt_zero_iff.mpr ⟨rfl, h⟩⟩

theorem owner?_outermost (hs : s.Layered) (h : s.lookup? a name = none)
    (ho : s.enclosing? a = none) : s.owner? a name = none := by
  refine (owner?_eq_none_iff hs).mpr fun hops owner howner => ?_
  cases hops with
  | zero =>
    cases howner
    exact h
  | succ d => simp [ancestor?, ho] at howner

/-- Reading a name is a search for its value. -/
theorem get_of_search (hs : s.Layered) {r : Option Value}
    (h : Search s.enclosing? (fun b => s.lookup? b name) a r) :
    s.get a name = r.elim (.error (.undefinedVariable name)) .ok := by
  induction h with
  | found h =>
    rw [get, owner?_eq_self hs (by simp [h]), Option.bind_some, h]
    rfl
  | onwards h ho _ ih => rw [get, owner?_outwards hs h ho, ← ih, get]
  | lost h ho =>
    rw [get, owner?_outermost hs h ho]
    rfl

/-- Changing a name is a search for the scope to change. -/
theorem assign_of_search (hs : s.Layered) {value : Value} {r : Option Store}
    (h : Search s.enclosing? (fun b => (s.lookup? b name).map fun _ => s.define b name value) a r) :
    s.assign a name value = r.elim (.error (.undefinedVariable name)) .ok := by
  induction h with
  | found h =>
    obtain ⟨old, hold, rfl⟩ := Option.map_eq_some_iff.mp h
    rw [assign, owner?_eq_self hs (by simp [hold])]
    rfl
  | onwards h ho _ ih =>
    rw [assign, owner?_outwards hs (Option.map_eq_none_iff.mp h) ho, ← ih, assign]
  | lost h ho =>
    rw [assign, owner?_outermost hs (Option.map_eq_none_iff.mp h) ho]
    rfl

theorem Layered.exists_search (hs : s.Layered) {β : Type} (answer : ScopeId → Option β)
    (a : ScopeId) : ∃ r, Search s.enclosing? answer a r :=
  LoxLang.exists_search (P := fun _ => True) answer id (fun _ ho => ⟨trivial, hs ho⟩) trivial

/-! ## The global scope -/

/-- All scopes lie within the global one, and each within an older one. -/
structure Rooted (s : Store) : Prop where
  layered : s.Layered
  outermost : ∀ {a}, a < s.nextScope → (s.enclosing? a = none ↔ a = globalScope)

namespace Rooted

theorem of_scopes_eq {s' : Store} (h : s.Rooted) (hs : s'.scopes = s.scopes) : s'.Rooted := by
  obtain ⟨hlayered, houtermost⟩ := h
  unfold Layered enclosing? nextScope at *
  rw [← hs] at houtermost
  exact ⟨fun {a b} ho => hlayered (hs ▸ ho), houtermost⟩

theorem takeIdentity (h : s.Rooted) : s.takeIdentity.Rooted := h.of_scopes_eq rfl

theorem addObject (h : s.Rooted) : s.addObject.Rooted := h.of_scopes_eq rfl

theorem define (h : s.Rooted) (a : ScopeId) (name : String) (value : Value) :
    (s.define a name value).Rooted := by
  refine ⟨Layered.define h.layered a name value, fun {b} hb => ?_⟩
  rw [nextScope_define] at hb
  rw [enclosing?_define]
  exact h.outermost hb

/-- A new scope within one that is there already. -/
theorem addScope (h : s.Rooted) (ho : outer < s.nextScope) (b : Bindings Value) :
    (s.addScope (some outer) b).Rooted := by
  have hnew : ∀ o ∈ some outer, o < s.nextScope := fun o hmem => Option.mem_some_iff.mp hmem ▸ ho
  refine ⟨Layered.addScope h.layered hnew b, fun {a} ha => ?_⟩
  rw [nextScope_addScope] at ha
  rw [enclosing?_addScope]
  split
  · next heq =>
    have hne : a ≠ globalScope := heq ▸ Nat.ne_of_gt (Nat.zero_lt_of_lt ho)
    simp [hne]
  · next hne => exact h.outermost (Nat.lt_of_le_of_ne (Nat.le_of_lt_succ ha) hne)

/-- Every scope leads to the global one. -/
theorem exists_ancestor?_eq (h : s.Rooted) (ha : a < s.nextScope) :
    ∃ hops, s.ancestor? a hops = some globalScope := by
  induction a using Nat.strongRecOn with
  | ind a ih =>
    cases ho : s.enclosing? a with
    | none =>
      rw [(h.outermost ha).mp ho]
      exact ⟨0, rfl⟩
    | some outer =>
      have hlt := h.layered ho
      obtain ⟨hops, hhops⟩ := ih outer hlt (Nat.lt_trans hlt ha)
      exact ⟨hops + 1, by rw [ancestor?, ho]; exact hhops⟩

end Rooted

end Store

/-! ## Methods -/

namespace Class

variable {own : Class} {name : String}

theorem method?_eq_self {m : Closure} (h : own.methods.get? name = some m) :
    own.method? name = some m := by
  rw [method?_eq_findSome?]
  cases own with
  | mk _ _ parent _ => cases parent <;> simp [chain, h]

theorem method?_upwards {parent : Class} (h : own.methods.get? name = none)
    (hp : own.superclass = some parent) : own.method? name = parent.method? name := by
  cases own with
  | mk _ _ above _ =>
    cases hp
    rw [method?_eq_findSome?, method?_eq_findSome?, chain, List.findSome?_cons, h]

theorem method?_topmost (h : own.methods.get? name = none) (hp : own.superclass = none) :
    own.method? name = none := by
  cases own with
  | mk _ _ above _ =>
    cases hp
    exact h

/-- Finding a method is a search along the superclasses. -/
theorem method?_of_search {r : Option Closure}
    (h : Search superclass (fun d => d.methods.get? name) own r) : own.method? name = r := by
  induction h with
  | found h => exact method?_eq_self h
  | onwards h hp _ ih => exact (method?_upwards h hp).trans ih
  | lost h hp => exact method?_topmost h hp

end Class

end LoxLang
