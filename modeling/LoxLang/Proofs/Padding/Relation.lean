import LoxLang.Machine.Run
import LoxLang.Proofs.Padding.World

/-!
# States and configurations of the two runs

Both runs hold values that are equal but for their closures, in scopes that are twins and in the fields
of the same objects. Their frames wait for the same things. Where the padded run is in a block that the
other one does not have, it has two frames more.

A frame waits for a value, or for a statement to end. What a statement gives when it ends is not
compared: nobody looks at it.

## Main definitions

* `World.Stores`, `World.States`: what both runs hold.
* `World.Stacks`: frames that wait for the same.
* `World.Configs`: configurations that are about to do the same.
-/

namespace LoxLang.Padding.World

open Machine

/-! ## States -/

/-- Twins have the same names, with values that belong together. -/
structure Stores (w : World) (t t' : BindingTable) (st st' : Store) : Prop where
  outer : ∀ a, w.outer a = st.enclosing? a
  outer' : ∀ a, w.outer' a = st'.enclosing? a
  bounds : ∀ {a b}, w.twin a = some b → a < st.nextScope ∧ b < st'.nextScope
  injective : ∀ {a b c}, w.twin a = some c → w.twin b = some c → a = b
  names : ∀ {a b}, w.twin a = some b → ∀ name,
    Option.Rel (w.Values t t') (st.lookup? a name) (st'.lookup? b name)
  global : w.twin globalScope = some globalScope
  top : st.enclosing? globalScope = none ∧ st'.enclosing? globalScope = none
  fields : ∀ id name, Option.Rel (w.Values t t') (st.field? id name) (st'.field? id name)
  objects : st.nextObject = st'.nextObject
  identity : st.nextIdentity = st'.nextIdentity

/-- The two runs hold the same, but for the current scopes. -/
structure States (w : World) (t t' : BindingTable) (s s' : State) : Prop where
  store : w.Stores t t' s.store s'.store
  table : s.table = t ∧ s'.table = t'
  depth : s.depth = s'.depth
  output : s.output = s'.output
  clock : s.clock = s'.clock

/-! ## Code in its scopes -/

/-- Code that both runs come to, with `a` and `a'` as the current scopes. -/
def Runs (w : World) (t t' : BindingTable) (a a' : ScopeId) (k : Code) (c c' : k.Tree) : Prop :=
  ∃ σ, w.Reaches σ a a' ∧ Related t t' k σ c c'

/-- Expressions that both runs come to. -/
def Evals (w : World) (t t' : BindingTable) (a a' : ScopeId) (e e' : Expr) : Prop :=
  ∃ σ, w.Reaches σ a a' ∧ UsesAgree (Agrees t t') σ e e'

/-- Uses of names that both runs come to. -/
def Meets (w : World) (t t' : BindingTable) (a a' : ScopeId) (u u' : Use) : Prop :=
  ∃ σ, w.Reaches σ a a' ∧ Agrees t t' σ u u'

/-! ## Frames -/

/-- What a call gives when its body has ended. -/
inductive CallResults (w : World) (t t' : BindingTable) : CallResult → CallResult → Prop where
  | returned : CallResults w t t' .returned .returned
  | receiver (h : w.twin a = some a') : CallResults w t t' (.receiver a) (.receiver a')
  | given (hd : CallResults w t t' r r') (h : w.Values t t' v v') :
      CallResults w t t' (.given r v) (.given r' v')

/-- What a frame waits for. -/
inductive Event where
  | value
  | ended

/-- Frames that wait for the same, while `a` and `a'` are the current scopes. The first event is the one
they wait for, and the second one is what the frames below them wait for. -/
inductive Frames (w : World) (t t' : BindingTable) (a a' : ScopeId) :
    Event → Event → Frame → Frame → Prop where
  | unary (op) (line) : Frames w t t' a a' .value .value (.unary op line) (.unary op line)
  | binaryLeft (op) (line) (he : w.Evals t t' a a' right right') :
      Frames w t t' a a' .value .value (.binaryLeft op line right) (.binaryLeft op line right')
  | binaryRight (op) (line) (hv : w.Values t t' left left') :
      Frames w t t' a a' .value .value (.binaryRight op line left) (.binaryRight op line left')
  | logical (op) (he : w.Evals t t' a a' right right') :
      Frames w t t' a a' .value .value (.logical op right) (.logical op right')
  | assign (name) (hu : w.Meets t t' a a' ⟨site, .assign, name⟩ ⟨site', .assign, name⟩) :
      Frames w t t' a a' .value .value (.assign site name) (.assign site' name)
  | callee (line) (he : List.Forall₂ (w.Evals t t' a a') args args') :
      Frames w t t' a a' .value .value (.callee line args) (.callee line args')
  | argument (line) (hv : w.Values t t' callee callee')
      (hd : List.Forall₂ (w.Values t t') done done')
      (he : List.Forall₂ (w.Evals t t' a a') rest rest') :
      Frames w t t' a a' .value .value (.argument line callee done rest)
        (.argument line callee' done' rest')
  | get (name) : Frames w t t' a a' .value .value (.get name) (.get name)
  | setObject (name) (he : w.Evals t t' a a' value value') :
      Frames w t t' a a' .value .value (.setObject name value) (.setObject name value')
  | setValue (name) (id) :
      Frames w t t' a a' .value .value (.setValue name id) (.setValue name id)
  | print : Frames w t t' a a' .value .ended .print .print
  | var (name) (ht : w.twin a = some a') : Frames w t t' a a' .value .ended (.var name) (.var name)
  | if_ (ht : w.Runs t t' a a' .statement then_ then_')
      (he : Option.Rel (w.Runs t t' a a' .statement) else_ else_') :
      Frames w t t' a a' .value .ended (.if_ then_ else_) (.if_ then_' else_')
  | whileCondition (hc : w.Evals t t' a a' condition condition')
      (hb : w.Runs t t' a a' .statement body body') :
      Frames w t t' a a' .value .ended (.whileCondition condition body)
        (.whileCondition condition' body')
  | superclass (name) (line) (hσ : σ 0 = 0) (hr : w.Reaches σ a a')
      (hm : Related t t' .routines σ.within.within methods methods') :
      Frames w t t' a a' .value .ended (.superclass name line methods)
        (.superclass name line methods')
  | return_ : Frames w t t' a a' .value .ended .return_ .return_
  | whileBody (hc : w.Evals t t' a a' condition condition')
      (hb : w.Runs t t' a a' .statement body body') :
      Frames w t t' a a' .ended .ended (.whileBody condition body) (.whileBody condition' body')
  | sequence (h : w.Runs t t' a a' .statements rest rest') :
      Frames w t t' a a' .ended .ended (.sequence rest) (.sequence rest')

/-- Frames that wait for the same. At the bottom there are the statements of the top level. -/
inductive Stacks (w : World) (t t' : BindingTable) :
    Event → ScopeId → ScopeId → List Frame → List Frame → Prop where
  | frame (hf : w.Frames t t' a a' event below f f') (hk : Stacks w t t' below a a' k k') :
      Stacks w t t' event a a' (f :: k) (f' :: k')
  /-- The value of an expression that is a statement. -/
  | ignore (hk : Stacks w t t' .ended a a' k k') : Stacks w t t' .value a a' k k'
  | block (hk : Stacks w t t' .ended b b' k k') :
      Stacks w t t' .ended a a' (.block b :: k) (.block b' :: k')
  | call (hr : w.CallResults t t' result result') (hk : Stacks w t t' .value b b' k k') :
      Stacks w t t' .ended a a' (.call b result :: k) (.call b' result' :: k')
  | program (h : w.Runs t t' a a' .statements rest rest') :
      Stacks w t t' .ended a a' [.program rest] [.program rest']
  /-- In a block that only the padded run has. -/
  | padded (hk : Stacks w t t' .ended a b' k k') :
      Stacks w t t' .ended a a' k (.sequence [] :: .block b' :: k')
  /-- At the end of such a block. -/
  | paddedEnd (hk : Stacks w t t' .ended a b' k k') :
      Stacks w t t' .ended a a' k (.block b' :: k')

/-! ## Configurations -/

/-- The two runs are about to do the same, or the padded one enters or leaves a block that the other
one does not have. -/
inductive Configs (w : World) (t t' : BindingTable) : Config → Config → Prop where
  | eval (hs : w.States t t' s s') (he : w.Evals t t' s.scope s'.scope e e')
      (hk : w.Stacks t t' .value s.scope s'.scope k k') :
      Configs w t t' ⟨.eval e, k, s⟩ ⟨.eval e', k', s'⟩
  | exec (hs : w.States t t' s s') (h : w.Runs t t' s.scope s'.scope .statement stmt stmt')
      (hk : w.Stacks t t' .ended s.scope s'.scope k k') :
      Configs w t t' ⟨.exec stmt, k, s⟩ ⟨.exec stmt', k', s'⟩
  | value (hs : w.States t t' s s') (hv : w.Values t t' v v')
      (hk : w.Stacks t t' .value s.scope s'.scope k k') :
      Configs w t t' ⟨.value v, k, s⟩ ⟨.value v', k', s'⟩
  | ended {v v' : Value} (hs : w.States t t' s s')
      (hk : w.Stacks t t' .ended s.scope s'.scope k k') :
      Configs w t t' ⟨.value v, k, s⟩ ⟨.value v', k', s'⟩
  | returning (hs : w.States t t' s s') (hv : w.Values t t' v v')
      (hk : w.Stacks t t' .ended s.scope s'.scope k k') :
      Configs w t t' ⟨.returning v, k, s⟩ ⟨.returning v', k', s'⟩
  | failing {f : Failure} {event : Event} (hs : w.States t t' s s')
      (hk : w.Stacks t t' event s.scope s'.scope k k') :
      Configs w t t' ⟨.failing f, k, s⟩ ⟨.failing f, k', s'⟩
  /-- Both programs have ended. -/
  | succeeded (ho : s.output = s'.output) : Configs w t t' ⟨.value .nil, [], s⟩ ⟨.value .nil, [], s'⟩
  | failed {f : Failure} (ho : s.output = s'.output) :
      Configs w t t' ⟨.failing f, [], s⟩ ⟨.failing f, [], s'⟩

section

variable {w : World} {t t' : BindingTable} {c c' : Config}

theorem Stacks.ne_nil {event : Event} {a a' : ScopeId} {k k' : List Frame}
    (h : w.Stacks t t' event a a' k k') : k ≠ [] ∧ k' ≠ [] := by
  induction h with
  | ignore _ ih => exact ih
  | padded _ ih => exact ⟨ih.1, List.cons_ne_nil _ _⟩
  | paddedEnd _ ih => exact ⟨ih.1, List.cons_ne_nil _ _⟩
  | _ => exact ⟨List.cons_ne_nil _ _, List.cons_ne_nil _ _⟩

/-- Both have ended in the same way, or none has ended. -/
theorem Configs.outcome?_eq (h : w.Configs t t' c c') : c.outcome? = c'.outcome? := by
  have hrunning : ∀ {control : Control} {k : List Frame} {s : State}, k ≠ [] →
      Config.outcome? ⟨control, k, s⟩ = none := fun {control k s} hk => by
    cases k with
    | nil => exact absurd rfl hk
    | cons f k => cases control <;> rfl
  have hboth : ∀ {control control' : Control} {event : Event} {k k' : List Frame} {s s' : State},
      w.Stacks t t' event s.scope s'.scope k k' →
      Config.outcome? ⟨control, k, s⟩ = Config.outcome? ⟨control', k', s'⟩ := fun hk => by
    rw [hrunning hk.ne_nil.1, hrunning hk.ne_nil.2]
  cases h with
  | succeeded ho => rfl
  | failed ho => rfl
  | eval _ _ hk => exact hboth hk
  | exec _ _ hk => exact hboth hk
  | value _ _ hk => exact hboth hk
  | ended _ hk => exact hboth hk
  | returning _ _ hk => exact hboth hk
  | failing _ hk => exact hboth hk

theorem Configs.output_eq (h : w.Configs t t' c c') : c.state.output = c'.state.output := by
  cases h with
  | succeeded ho => exact ho
  | failed ho => exact ho
  | eval hs => exact hs.output
  | exec hs => exact hs.output
  | value hs => exact hs.output
  | ended hs => exact hs.output
  | returning hs => exact hs.output
  | failing hs => exact hs.output

end

end LoxLang.Padding.World
