import LoxLang.Proofs.Machine.Chain

/-!
# Walks along scopes

Scopes form a tree in which each scope lies within an older one. A walk outwards to the first scope
that has a name ends where a jump over the same number of scopes does, so that both ways read and
change the same binding. Another walk sees the change only if it ends there too.

## Main definitions

* `Store.ofChanges`: the trees of scopes that can be built.
* `Store.Layered`: each scope lies within an older one.
* `Store.FoundAt`: the first scope outwards that has a name.
* `Store.ChangedAt`: two stores that differ in one binding.

## Main results

* `Store.owner?_eq_some_iff`: where a walk ends.
* `Store.walk_agrees_with_jump`: reading and changing names in both ways.
-/

namespace LoxLang

/-- A change to a tree of scopes. -/
inductive ScopeChange where
  | root
  | child (scope : ScopeId)
  | define (scope : ScopeId) (name : String) (value : Value)
  | assign (scope : ScopeId) (name : String) (value : Value)
  | assignAt (scope : ScopeId) (hops : Nat) (name : String) (value : Value)

namespace Store

/-- The store after a change, which stays as it is if the change fails. New scopes lie within scopes
that are there already. -/
def change (s : Store) : ScopeChange → Store
  | .root => s.addScope none []
  | .child scope => if scope < s.nextScope then s.addScope (some scope) [] else s
  | .define scope name value => s.define scope name value
  | .assign scope name value => (s.assign scope name value).toOption.getD s
  | .assignAt scope hops name value => (s.assignAt scope hops name value).toOption.getD s

def ofChanges (changes : List ScopeChange) : Store := changes.foldl change empty

/-! ## Layers -/

/-- Each scope lies within an older one. -/
def Layered (s : Store) : Prop :=
  ∀ {scope outer : ScopeId}, s.enclosing? scope = some outer → outer < scope

namespace Layered

variable {s : Store} {scope : ScopeId}

theorem empty : Store.empty.Layered := by
  intro scope outer h
  simp [enclosing?, Store.empty] at h

theorem define (h : s.Layered) (scope : ScopeId) (name : String) (value : Value) :
    (s.define scope name value).Layered := by
  intro other outer ho
  rw [enclosing?_define] at ho
  exact h ho

theorem addScope (h : s.Layered) {outer : Option ScopeId} (hnew : ∀ o ∈ outer, o < s.nextScope)
    (b : Bindings Value) : (s.addScope outer b).Layered := by
  intro other o ho
  rw [enclosing?_addScope] at ho
  split at ho
  · next heq => exact heq ▸ hnew o ho
  · exact h ho

/-- A change keeps the layers. -/
theorem change (h : s.Layered) (c : ScopeChange) : (s.change c).Layered := by
  cases c with
  | root => exact h.addScope (by simp) []
  | child scope =>
    rw [Store.change]
    split
    · next hlt => exact h.addScope (fun o ho => Option.mem_some_iff.mp ho ▸ hlt) []
    · exact h
  | define scope name value => exact h.define scope name value
  | assign scope name value =>
    rw [Store.change, assign]
    cases s.owner? scope name with
    | none => exact h
    | some owner => exact h.define owner name value
  | assignAt scope hops name value =>
    rw [Store.change, assignAt]
    cases s.ancestor? scope hops with
    | none => exact h
    | some owner => exact h.define owner name value

theorem foldl (h : s.Layered) (changes : List ScopeChange) :
    (changes.foldl Store.change s).Layered := by
  induction changes generalizing s with
  | nil => exact h
  | cons c changes ih => exact ih (h.change c)

/-- There are no more scopes around a scope than older ones. -/
theorem add_hops_le (h : s.Layered) {hops : Nat} {owner : ScopeId}
    (ho : s.ancestor? scope hops = some owner) : owner + hops ≤ scope := by
  induction hops generalizing scope with
  | zero =>
    cases ho
    exact Nat.le_refl _
  | succ d ih =>
    rw [ancestor?] at ho
    cases houter : s.enclosing? scope with
    | none => simp [houter] at ho
    | some outer =>
      rw [houter] at ho
      exact Nat.lt_of_le_of_lt (ih ho) (h houter)

end Layered

theorem layered_ofChanges (changes : List ScopeChange) : (ofChanges changes).Layered :=
  Layered.empty.foldl changes

/-! ## Where a walk ends -/

/-- The first scope outwards that has a name is `owner`, at the given distance. -/
structure FoundAt (s : Store) (scope : ScopeId) (name : String) (hops : Nat) (owner : ScopeId) :
    Prop where
  ancestor : s.ancestor? scope hops = some owner
  bound : (s.lookup? owner name).isSome
  nearest : ∀ k < hops, ∀ between, s.ancestor? scope k = some between →
    s.lookup? between name = none

variable {s : Store} {scope owner : ScopeId} {name : String} {hops : Nat}

theorem foundAt_zero_iff :
    s.FoundAt scope name 0 owner ↔ scope = owner ∧ (s.lookup? scope name).isSome := by
  constructor
  · rintro ⟨⟨⟩, hbound, -⟩
    exact ⟨rfl, hbound⟩
  · rintro ⟨rfl, hbound⟩
    exact ⟨rfl, hbound, nofun⟩

theorem foundAt_succ_iff : s.FoundAt scope name (hops + 1) owner ↔
    s.lookup? scope name = none ∧
      ∃ outer, s.enclosing? scope = some outer ∧ s.FoundAt outer name hops owner := by
  constructor
  · rintro ⟨hancestor, hbound, hnearest⟩
    refine ⟨hnearest 0 (Nat.succ_pos hops) scope rfl, ?_⟩
    rw [ancestor?] at hancestor
    cases houter : s.enclosing? scope with
    | none => simp [houter] at hancestor
    | some outer =>
      rw [houter] at hancestor
      refine ⟨outer, rfl, hancestor, hbound, fun k hk between hb => ?_⟩
      exact hnearest (k + 1) (Nat.succ_lt_succ hk) between (by rw [ancestor?, houter]; exact hb)
  · rintro ⟨hnone, outer, houter, hancestor, hbound, hnearest⟩
    refine ⟨by rw [ancestor?, houter]; exact hancestor, hbound, fun k hk between hb => ?_⟩
    cases k with
    | zero =>
      cases hb
      exact hnone
    | succ k =>
      rw [ancestor?, houter] at hb
      exact hnearest k (Nat.lt_of_succ_lt_succ hk) between hb

/-- A walk of at most `n` scopes. -/
theorem ownerWithin?_eq_some_iff {n : Nat} :
    s.ownerWithin? name n scope = some owner ↔ ∃ hops < n, s.FoundAt scope name hops owner := by
  induction n generalizing scope with
  | zero => simp [ownerWithin?]
  | succ n ih =>
    rw [ownerWithin?, Nat.exists_lt_succ_left, foundAt_zero_iff]
    simp only [foundAt_succ_iff]
    cases hl : s.lookup? scope name with
    | some value => simp
    | none =>
      cases ho : s.enclosing? scope with
      | none => simp
      | some outer => simp [ih]

/-- A name is only found from a scope that is there. -/
theorem FoundAt.scope_lt (h : s.FoundAt scope name hops owner) : scope < s.nextScope := by
  cases hops with
  | zero =>
    obtain ⟨value, hvalue⟩ := Option.isSome_iff_exists.mp (foundAt_zero_iff.mp h).2
    exact lt_nextScope_of_lookup? hvalue
  | succ d =>
    obtain ⟨-, outer, houter, -⟩ := foundAt_succ_iff.mp h
    exact lt_nextScope_of_enclosing? houter

/-- A walk ends at the first scope outwards that has the name. The bound on its length is never
reached, as each scope lies within an older one. -/
theorem owner?_eq_some_iff (hs : s.Layered) :
    s.owner? scope name = some owner ↔ ∃ hops, s.FoundAt scope name hops owner := by
  rw [owner?, ownerWithin?_eq_some_iff]
  constructor
  · rintro ⟨hops, -, h⟩
    exact ⟨hops, h⟩
  · rintro ⟨hops, h⟩
    have hle : hops ≤ scope := Nat.le_trans (Nat.le_add_left ..) (hs.add_hops_le h.ancestor)
    exact ⟨hops, Nat.lt_of_le_of_lt hle h.scope_lt, h⟩

/-- A walk that meets a scope with the name ends. -/
theorem exists_foundAt (ho : s.ancestor? scope hops = some owner)
    (hl : (s.lookup? owner name).isSome) : ∃ d first, s.FoundAt scope name d first := by
  induction hops generalizing scope with
  | zero =>
    obtain rfl := Option.some.inj ho
    exact ⟨0, scope, foundAt_zero_iff.mpr ⟨rfl, hl⟩⟩
  | succ d ih =>
    rw [ancestor?] at ho
    cases houter : s.enclosing? scope with
    | none => simp [houter] at ho
    | some outer =>
      rw [houter] at ho
      cases hlookup : s.lookup? scope name with
      | some value => exact ⟨0, scope, foundAt_zero_iff.mpr ⟨rfl, by simp [hlookup]⟩⟩
      | none =>
        obtain ⟨d, first, hfirst⟩ := ih ho
        exact ⟨d + 1, first, foundAt_succ_iff.mpr ⟨hlookup, outer, houter, hfirst⟩⟩

theorem owner?_eq_none_iff (hs : s.Layered) : s.owner? scope name = none ↔
    ∀ hops owner, s.ancestor? scope hops = some owner → s.lookup? owner name = none := by
  constructor
  · intro h hops owner ho
    by_contra hl
    obtain ⟨d, first, hfirst⟩ := exists_foundAt ho (Option.isSome_iff_ne_none.mpr hl)
    rw [(owner?_eq_some_iff hs).mpr ⟨d, hfirst⟩] at h
    cases h
  · intro h
    cases ho : s.owner? scope name with
    | none => rfl
    | some owner =>
      obtain ⟨hops, hfound⟩ := (owner?_eq_some_iff hs).mp ho
      have hbound := hfound.bound
      rw [h hops owner hfound.ancestor] at hbound
      cases hbound

/-! ## One binding -/

/-- Two stores that differ in the value of one name in one scope. -/
structure ChangedAt (s : Store) (owner : ScopeId) (name : String) (value : Value) (s' : Store) :
    Prop where
  lookup : ∀ other word, s'.lookup? other word =
    if other = owner ∧ word = name then some value else s.lookup? other word
  enclosing : ∀ other, s'.enclosing? other = s.enclosing? other
  nextScope : s'.nextScope = s.nextScope
  objects : s'.objects = s.objects
  nextIdentity : s'.nextIdentity = s.nextIdentity

theorem changedAt_define (h : (s.lookup? owner name).isSome) (value : Value) :
    s.ChangedAt owner name value (s.define owner name value) where
  lookup other word := by
    obtain ⟨old, hold⟩ := Option.isSome_iff_exists.mp h
    have hlt := lt_nextScope_of_lookup? hold
    simp only [lookup?_define, hlt, and_true]
  enclosing other := enclosing?_define ..
  nextScope := nextScope_define ..
  objects := rfl
  nextIdentity := rfl

namespace ChangedAt

variable {value : Value} {s' : Store}

/-- The same names are in the same places. -/
theorem foundAt_iff (h : s.ChangedAt owner name value s') (hl : (s.lookup? owner name).isSome)
    {other first : ScopeId} {word : String} {hops : Nat} :
    s'.FoundAt other word hops first ↔ s.FoundAt other word hops first := by
  have hsome : ∀ scope, (s'.lookup? scope word).isSome = (s.lookup? scope word).isSome := by
    intro scope
    rw [h.lookup]
    split
    · next heq => simpa [heq] using hl.symm
    · rfl
  have hnone : ∀ scope, s'.lookup? scope word = none ↔ s.lookup? scope word = none := by
    intro scope
    rw [← Option.not_isSome_iff_eq_none, ← Option.not_isSome_iff_eq_none, hsome]
  induction hops generalizing other with
  | zero => rw [foundAt_zero_iff, foundAt_zero_iff, hsome]
  | succ d ih => simp only [foundAt_succ_iff, hnone, h.enclosing, ih]

theorem layered (h : s.ChangedAt owner name value s') (hs : s.Layered) : s'.Layered := by
  intro scope outer ho
  rw [h.enclosing] at ho
  exact hs ho

theorem owner?_eq (h : s.ChangedAt owner name value s') (hs : s.Layered)
    (hl : (s.lookup? owner name).isSome) (other : ScopeId) (word : String) :
    s'.owner? other word = s.owner? other word := by
  refine Option.ext fun first => ?_
  rw [owner?_eq_some_iff (h.layered hs), owner?_eq_some_iff hs]
  simp only [h.foundAt_iff hl]

/-- A walk that ends at the binding reads its new value. -/
theorem get_of_foundAt (h : s.ChangedAt owner name value s') (hs : s.Layered) {other : ScopeId}
    (hfound : s.FoundAt other name hops owner) : s'.get other name = .ok value := by
  rw [get, h.owner?_eq hs hfound.bound, (owner?_eq_some_iff hs).mpr ⟨hops, hfound⟩]
  simp [h.lookup]

/-- A walk that ends elsewhere reads what it did before. -/
theorem get_of_not_foundAt (h : s.ChangedAt owner name value s') (hs : s.Layered)
    (hl : (s.lookup? owner name).isSome) {other : ScopeId} {word : String}
    (hne : word = name → ∀ hops, ¬ s.FoundAt other word hops owner) :
    s'.get other word = s.get other word := by
  rw [get, get, h.owner?_eq hs hl]
  cases ho : s.owner? other word with
  | none => rfl
  | some first =>
    obtain ⟨hops, hfound⟩ := (owner?_eq_some_iff hs).mp ho
    have hother : ¬ (first = owner ∧ word = name) := by
      rintro ⟨rfl, hword⟩
      exact hne hword hops hfound
    simp only [Option.bind_some, h.lookup, if_neg hother]

end ChangedAt

/-! ## Both ways -/

/-- A name that is found outwards is read and changed alike by a walk and by a jump to the scope that
has it. The change is one binding, and is seen by the walks that end there and by no others. A name
that is not found can be neither read nor changed. -/
theorem walk_agrees_with_jump (changes : List ScopeChange) (scope : ScopeId) (name : String)
    (value : Value) :
    let s := ofChanges changes
    (∀ hops owner, s.FoundAt scope name hops owner →
      (∃ old, s.get scope name = .ok old ∧ s.getAt scope hops name = .ok old) ∧
      ∃ s', s.assign scope name value = .ok s' ∧ s.assignAt scope hops name value = .ok s' ∧
        s.ChangedAt owner name value s' ∧
        ∀ other word, ((∃ d, s.FoundAt other word d owner) ∧ word = name →
            s'.get other word = .ok value) ∧
          (¬ ((∃ d, s.FoundAt other word d owner) ∧ word = name) →
            s'.get other word = s.get other word)) ∧
    ((∀ hops owner, s.ancestor? scope hops = some owner → s.lookup? owner name = none) →
      ∃ e : RuntimeError, e.message = "Undefined variable '" ++ name ++ "'." ∧
        s.get scope name = .error e ∧ s.assign scope name value = .error e ∧
        s.change (.assign scope name value) = s) := by
  intro s
  have hs : s.Layered := layered_ofChanges changes
  constructor
  · intro hops owner hfound
    obtain ⟨old, hold⟩ := Option.isSome_iff_exists.mp hfound.bound
    have howner := (owner?_eq_some_iff hs).mpr ⟨hops, hfound⟩
    have hchanged := changedAt_define hfound.bound value
    refine ⟨⟨old, ?_, ?_⟩, s.define owner name value, ?_, ?_, hchanged, fun other word => ⟨?_, ?_⟩⟩
    · rw [get, howner, Option.bind_some, hold]
    · rw [getAt, hfound.ancestor]
      simp only [hold]
    · rw [assign, howner]
    · rw [assignAt, hfound.ancestor]
    · rintro ⟨⟨d, hd⟩, rfl⟩
      exact hchanged.get_of_foundAt hs hd
    · intro hne
      exact hchanged.get_of_not_foundAt hs hfound.bound fun hword d hd => hne ⟨⟨d, hd⟩, hword⟩
  · intro hnone
    have howner := (owner?_eq_none_iff hs).mpr hnone
    have hassign : s.assign scope name value = .error (.undefinedVariable name) := by
      rw [assign, howner]
    exact ⟨.undefinedVariable name, rfl, by rw [get, howner]; rfl, hassign,
      by rw [change, hassign]; rfl⟩

/-- The variable of an outer scope is changed from within. A sibling sees the change, unless it has a
variable of the same name. -/
theorem walk_agrees_with_jump_siblings :
    let s := ofChanges [.root, .define 0 "x" .nil, .child 0, .child 1, .child 1,
      .define 3 "x" (.bool false)]
    ∃ s', s.assign 2 "x" (.bool true) = .ok s' ∧ s.assignAt 2 2 "x" (.bool true) = .ok s' ∧
      s'.get 1 "x" = .ok (.bool true) ∧ s'.get 3 "x" = s.get 3 "x" := by
  intro s
  have hfound : s.FoundAt 2 "x" 2 0 := by
    refine foundAt_succ_iff.mpr ⟨rfl, 1, rfl, foundAt_succ_iff.mpr ⟨rfl, 0, rfl, ?_⟩⟩
    exact foundAt_zero_iff.mpr ⟨rfl, rfl⟩
  obtain ⟨-, s', hassign, hassignAt, -, hseen⟩ :=
    (walk_agrees_with_jump _ 2 "x" (.bool true)).1 2 0 hfound
  refine ⟨s', hassign, hassignAt, (hseen 1 "x").1 ⟨⟨1, ?_⟩, rfl⟩, (hseen 3 "x").2 ?_⟩
  · exact foundAt_succ_iff.mpr ⟨rfl, 0, rfl, foundAt_zero_iff.mpr ⟨rfl, rfl⟩⟩
  · rintro ⟨⟨d, hd⟩, -⟩
    -- The walk from the other sibling ends at once.
    cases d with
    | zero => exact absurd (foundAt_zero_iff.mp hd).1 (by decide)
    | succ d => exact absurd (foundAt_succ_iff.mp hd).1 nofun

end Store

end LoxLang
