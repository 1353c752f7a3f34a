import LoxLang.Proofs.Machine.Likeness
import LoxLang.Proofs.Scoping.Padding
import LoxLang.Store

/-!
# Scopes that stand for others

Of two runs, one of code and one of the same code with more blocks, the second one makes all scopes
that the first one makes, and others without names between them. A world says which scope of the second
run stands for a scope of the first one. Code runs in scopes that belong together along a map of
distances: the scope at a distance has its twin at the distance that the map gives.

## Main definitions

* `World`: the twins of scopes, and the scopes around scopes in both runs.
* `World.Reaches`: scopes that belong together along a map of distances.
* `World.Values`: values that are equal but for the code and the scopes of their closures.
-/

namespace LoxLang.Padding

/-- The scope that is some scopes outwards. -/
def up (outer : ScopeId → Option ScopeId) : Nat → ScopeId → Option ScopeId
  | 0, a => some a
  | d + 1, a => (outer a).bind (up outer d)

theorem ancestor?_eq_up (st : Store) (a : ScopeId) (d : Nat) :
    st.ancestor? a d = up st.enclosing? d a := by
  induction d generalizing a with
  | zero => rfl
  | succ d ih =>
    rw [Store.ancestor?, up]
    cases st.enclosing? a with
    | none => rfl
    | some outer => exact ih outer

theorem up_mono {outer outer' : ScopeId → Option ScopeId}
    (h : ∀ {a b}, outer a = some b → outer' a = some b) {d : Nat} {a b : ScopeId}
    (hu : up outer d a = some b) : up outer' d a = some b := by
  induction d generalizing a with
  | zero => exact hu
  | succ d ih =>
    obtain ⟨o, ho, hu⟩ := Option.bind_eq_some_iff.mp hu
    rw [up, h ho]
    exact ih hu

/-! ## Worlds -/

/-- The twins of scopes, and the scopes around scopes in the one run and in the other. -/
structure World where
  twin : ScopeId → Option ScopeId
  outer : ScopeId → Option ScopeId
  outer' : ScopeId → Option ScopeId

namespace World

variable {w w' : World} {σ : Distances} {a a' n n' : ScopeId}

/-- What a world keeps when it grows. -/
structure Le (w w' : World) : Prop where
  twin : ∀ {a b}, w.twin a = some b → w'.twin a = some b
  outer : ∀ {a b}, w.twin a = some b → w'.outer a = w.outer a
  outer' : ∀ {a b}, w.outer' a = some b → w'.outer' a = some b

/-- The scopes from `a` outwards have their twins in the chain from `a'` outwards, at the distances
that `σ` gives. -/
def Reaches (w : World) (σ : Distances) (a a' : ScopeId) : Prop :=
  ∀ d b, up w.outer d a = some b → ∃ b', w.twin b = some b' ∧ up w.outer' (σ d) a' = some b'

namespace Reaches

/-- Where the innermost scopes belong together, they are twins. -/
theorem twin (h : w.Reaches σ a a') (hσ : σ 0 = 0) : w.twin a = some a' := by
  obtain ⟨b', hb, hu⟩ := h 0 a rfl
  rw [hσ] at hu
  exact hb.trans hu.symm

/-- A chain of scopes with twins stays as it is. -/
theorem up_eq (h : w.Reaches σ a a') (hle : w.Le w') (d : Nat) :
    up w'.outer d a = up w.outer d a := by
  have hchain : ∀ d b, up w.outer d a = some b → ∃ b', w.twin b = some b' := fun d b hu => by
    obtain ⟨b', hb, -⟩ := h d b hu
    exact ⟨b', hb⟩
  clear h
  induction d generalizing a with
  | zero => rfl
  | succ d ih =>
    obtain ⟨b', hb⟩ := hchain 0 a rfl
    rw [up, up, hle.outer hb]
    cases ho : w.outer a with
    | none => rfl
    | some o => exact ih fun d b hu => hchain (d + 1) b (by rwa [up, ho])

theorem mono (h : w.Reaches σ a a') (hle : w.Le w') : w'.Reaches σ a a' := by
  intro d b hu
  rw [h.up_eq hle] at hu
  obtain ⟨b', hb, hu'⟩ := h d b hu
  exact ⟨b', hle.twin hb, up_mono hle.outer' hu'⟩

/-- A scope more on both sides. -/
theorem within (h : w.Reaches σ a a') (ht : w.twin n = some n') (ho : w.outer n = some a)
    (ho' : w.outer' n' = some a') : w.Reaches σ.within n n' := by
  intro d b hu
  cases d with
  | zero =>
    obtain rfl : n = b := Option.some.inj hu
    exact ⟨n', ht, rfl⟩
  | succ d =>
    rw [up, ho] at hu
    obtain ⟨b', hb, hu'⟩ := h d b hu
    refine ⟨b', hb, ?_⟩
    rw [Distances.within_succ, up, ho']
    exact hu'

/-- A scope more in the padded run. -/
theorem padded (h : w.Reaches σ a a') (ho' : w.outer' n' = some a') : w.Reaches σ.padded a n' := by
  intro d b hu
  obtain ⟨b', hb, hu'⟩ := h d b hu
  refine ⟨b', hb, ?_⟩
  rw [Distances.padded_apply, up, ho']
  exact hu'

end Reaches

/-! ## Values -/

/-- What is related in two runs whose tables are `t` and `t'`. -/
abbrev Related (t t' : BindingTable) : (k : Code) → Distances → k.Tree → k.Tree → Prop :=
  Pads (UsesAgree (Agrees t t'))

/-- Closures whose code is padded, in scopes that belong together. Between the scope of the closure and
its routine come the scopes that `inside` adds. -/
structure Closures (w : World) (t t' : BindingTable) (inside : Distances → Distances)
    (f g : Closure) : Prop where
  isInitializer : f.isInitializer = g.isInitializer
  code : ∃ σ : Distances, σ 0 = 0 ∧ Related t t' .routine (inside σ) f.routine g.routine ∧
    w.Reaches σ f.scope g.scope

/-- Functions, which are ready to be called. -/
abbrev Functions (w : World) (t t' : BindingTable) : Closure → Closure → Prop :=
  w.Closures t t' id

/-- Methods: the scope of `this` is not there yet. -/
abbrev Methods (w : World) (t t' : BindingTable) : Closure → Closure → Prop :=
  w.Closures t t' Distances.within

/-- Values that are equal but for the code and the scopes of their closures. -/
abbrev Values (w : World) (t t' : BindingTable) : Value → Value → Prop :=
  Value.Like (w.Functions t t') (w.Methods t t')

variable {t t' : BindingTable}

theorem Closures.mono {inside : Distances → Distances} {f g : Closure}
    (h : w.Closures t t' inside f g) (hle : w.Le w') : w'.Closures t t' inside f g := by
  obtain ⟨σ, hσ, hcode, hreach⟩ := h.code
  exact ⟨h.isInitializer, σ, hσ, hcode, hreach.mono hle⟩

theorem Closures.sameHead {inside : Distances → Distances} {f g : Closure}
    (h : w.Closures t t' inside f g) : f.SameHead g := by
  obtain ⟨σ, -, hcode, -⟩ := h.code
  exact ⟨hcode.name_eq.1, hcode.name_eq.2⟩

theorem classes_mono (hle : w.Le w') {c d : Class} (h : c.Like (w.Methods t t') d) :
    c.Like (w'.Methods t t') d :=
  h.mono fun _ _ h => h.mono hle

theorem Values.mono (hle : w.Le w') {v v' : Value} (h : w.Values t t' v v') :
    w'.Values t t' v v' :=
  Value.Like.mono (fun _ _ h => h.mono hle) (fun _ _ h => h.mono hle) h

theorem Values.text_eq {v v' : Value} (h : w.Values t t' v v') : v.text = v'.text :=
  Value.Like.text_eq (fun _ _ h => h.sameHead) h

theorem Values.arity?_eq {v v' : Value} (h : w.Values t t' v v') :
    Machine.arity? v = Machine.arity? v' :=
  Value.Like.arity?_eq (fun _ _ h => h.sameHead) (fun _ _ h => h.sameHead) h

theorem optional_mono (hle : w.Le w') {v v' : Option Value}
    (h : Option.Rel (w.Values t t') v v') : Option.Rel (w'.Values t t') v v' := by
  cases h with
  | none => exact .none
  | some h => exact .some (Values.mono hle h)

end World

end LoxLang.Padding
