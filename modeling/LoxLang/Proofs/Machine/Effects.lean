import LoxLang.Machine.Run
import LoxLang.Proofs.Machine.Fits

/-!
# What a step does to the store

A step leaves the store alone, gives a name a value, sets a field, or makes scopes and objects. Which
of these it does can be read off the configuration, and all that is said elsewhere about the store
after a step follows from this.

## Main definitions

* `Config.Calls`: the next step calls a value.
* `Config.Binds`: the next step binds a method to an object.
* `Config.Writes`: the next step gives a name in a scope a value.
* `Config.Effect`: the store after the next step.
* `Store.Evolves`: scopes are made and names in scopes are given values, and nothing else happens to
  the scopes.

## Main results

* `effect_step`: the effects are all that a step does to the store.
* `Evolves.scopes_eq`, `Evolves.le`: what is not written stays, and so do the reserved words.
* `Config.Fits.isOrdinary_of_writes`: no reserved word is written.
-/

namespace LoxLang.Machine

/-! ## What the next step does -/

/-- The next step calls a value. What it gives goes to the frames `k`. -/
inductive Config.Calls : Config → Value → List Value → Nat → List Frame → Prop where
  | bare : Calls ⟨.value callee, .callee line [] :: k, s⟩ callee [] line k
  | given : Calls ⟨.value v, .argument line callee done [] :: k, s⟩ callee (v :: done).reverse line k

theorem Config.Calls.step_eq {c : Config} {callee : Value} {args : List Value} {line : Nat}
    {k : List Frame} (h : c.Calls callee args line k) :
    step c = callValue callee args line k c.state := by
  cases h <;> rfl

/-- The next step calls a class and makes an object of it. -/
structure Config.Constructs (c : Config) (own : Class) (args : List Value) (k : List Frame) :
    Prop where
  calls : ∃ line, c.Calls (.class_ own) args line k
  step_eq : step c = construct own args k c.state

/-- The next step binds a method to an object. -/
inductive Config.Binds : Config → Closure → Value → Prop where
  | property (hf : s.store.field? object name.text = none) (hm : own.method? name.text = some m) :
      Binds ⟨.value (.object object own), .get name :: k, s⟩ m (.object object own)
  | super (hd : s.table.hops? site = some hops) (hs : superAndThis hops s = .ok (parent, receiver))
      (hm : parent.method? method.text = some m) :
      Binds ⟨.eval (.super site line method), k, s⟩ m receiver

theorem Config.Binds.exists_step_eq {c : Config} {m : Closure} {receiver : Value}
    (h : c.Binds m receiver) : ∃ k, step c = giveMethod m receiver k c.state := by
  cases h with
  | property hf hm =>
    simp only [step, resume, getProperty, hf, hm]
    exact ⟨_, rfl⟩
  | super hd hs hm =>
    simp only [step, evalStep, getSuper, hd, hs, hm]
    exact ⟨_, rfl⟩

/-- The next step gives a name that it declares a value. -/
inductive Config.Declares : Config → Name → Prop where
  | «variable» : Declares ⟨.exec (.var name none), k, s⟩ name
  | initialized : Declares ⟨.value v, .var name :: k, s⟩ name
  | function : Declares ⟨.exec (.function routine), k, s⟩ routine.name
  | class_ : Declares ⟨.exec (.class_ name none methods), k, s⟩ name
  | derived : Declares ⟨.value (.class_ parent), .superclass name line methods :: k, s⟩ name

/-- The next step gives a name in a scope a value. -/
inductive Config.Writes : Config → ScopeId → Name → Prop where
  | declare {c : Config} (h : c.Declares name) : Writes c c.state.scope name
  | assignAt (hd : s.table.hops? site = some d) (ha : s.store.ancestor? s.scope d = some a) :
      Writes ⟨.value v, .assign site name :: k, s⟩ a name
  | assign (hd : s.table.hops? site = none) (ha : s.store.owner? globalScope name.text = some a) :
      Writes ⟨.value v, .assign site name :: k, s⟩ a name

/-- The store after the next step. -/
inductive Config.Effect : Config → Store → Prop where
  | idle {c : Config} : Effect c c.state.store
  | «variable» : Effect ⟨.exec (.var name none), k, s⟩ (s.store.define s.scope name.text .nil)
  | initialized : Effect ⟨.value v, .var name :: k, s⟩ (s.store.define s.scope name.text v)
  | function : Effect ⟨.exec (.function routine), k, s⟩
      (s.store.takeIdentity.define s.scope routine.name.text
        (.function s.store.nextIdentity ⟨routine, s.scope, false⟩))
  | class_ : Effect ⟨.exec (.class_ name none methods), k, s⟩
      (s.store.takeIdentity.define s.scope name.text
        (.class_ (.mk s.store.nextIdentity name.text none (methodTable methods s.scope))))
  | derived : Effect ⟨.value (.class_ parent), .superclass name line methods :: k, s⟩
      ((s.store.addScope (some s.scope) [(Keyword.super.spelling, .class_ parent)]).takeIdentity.define
        s.scope name.text (.class_ (.mk s.store.nextIdentity name.text (some parent)
          (methodTable methods s.store.nextScope))))
  | assign (h : Config.Writes ⟨.value v, .assign site name :: k, s⟩ a name) :
      Effect ⟨.value v, .assign site name :: k, s⟩ (s.store.define a name.text v)
  | setField : Effect ⟨.value v, .setValue name object :: k, s⟩
      (s.store.setField object name.text v)
  | block : Effect ⟨.exec (.block body), k, s⟩ (s.store.addScope (some s.scope) [])
  | method {c : Config} (h : c.Binds m receiver) : Effect c
      (c.state.store.addScope (some m.scope) [(Keyword.this.spelling, receiver)]).takeIdentity
  | call {c : Config} (h : c.Calls (.function i f) args line k) : Effect c
      (c.state.store.addScope (some f.scope) (bindParams f.routine.params args))
  | object {c : Config} (h : c.Constructs own args k) : Effect c c.state.store.addObject
  /-- The scope in which the initializer finds its object lies around that of its call. -/
  | initializer {c : Config} (h : c.Constructs own args k)
      (hm : own.method? Routine.initName = some m) : Effect c
      ((c.state.store.addObject.addScope (some m.scope)
        [(Keyword.this.spelling, .object c.state.store.nextObject own)]).addScope
          (some c.state.store.nextScope) (bindParams m.routine.params args))

/-! ## The effects of all steps -/

section Steps

variable {c : Config} {k : List Frame} {s : State}

@[simp] theorem store_sequence (body : List Stmt) :
    (sequence body k s).state.store = s.store := by
  cases body <;> rfl

theorem store_giveOrRaise (r : Except RuntimeError Value) (line : Nat) :
    (giveOrRaise r line k s).state.store = s.store := by
  cases r <;> rfl

theorem store_readName (site : Site) (name : String) (line : Nat) :
    (readName site name line k s).state.store = s.store := by
  unfold readName
  split
  · split <;> rfl
  · exact store_giveOrRaise _ _

theorem store_finishCall (result : CallResult) (v : Value) (outer : ScopeId) :
    (finishCall result v k (leaveCall outer s)).state.store = s.store := by
  unfold finishCall
  split <;> rfl

/-- A step that leaves the store alone. -/
theorem Config.Effect.of_eq {st : Store} (h : st = c.state.store) : c.Effect st := h ▸ .idle

theorem effect_writeName (site : Site) (name : Name) (v : Value) :
    Config.Effect ⟨.value v, .assign site name :: k, s⟩
      (writeName site name v k s).state.store := by
  unfold writeName
  split
  · next d hd =>
    unfold Store.assignAt
    cases ha : s.store.ancestor? s.scope d with
    | none => exact .idle
    | some a => exact .assign (.assignAt hd ha)
  · next hd =>
    unfold Store.assign
    cases ha : s.store.owner? globalScope name.text with
    | none => exact .idle
    | some a => exact .assign (.assign hd ha)

theorem effect_getProperty (v : Value) (name : Name) :
    Config.Effect ⟨.value v, .get name :: k, s⟩ (getProperty v name k s).state.store := by
  unfold getProperty
  split
  · split
    · exact .idle
    · next hf =>
      split
      · next hm => exact .method (.property hf hm)
      · exact .idle
  · exact .idle

theorem effect_getSuper (site : Site) (line : Nat) (method : Name) :
    Config.Effect ⟨.eval (.super site line method), k, s⟩
      (getSuper site line method k s).state.store := by
  unfold getSuper
  split
  · exact .idle
  · next hops hd =>
    split
    · exact .idle
    · next hs =>
      split
      · next hm => exact .method (.super hd hs hm)
      · exact .idle

theorem Config.Constructs.effect {own : Class} {args : List Value} (h : c.Constructs own args k) :
    c.Effect (construct own args k c.state).state.store := by
  unfold construct
  split
  · exact .object h
  · next m hm =>
    simp only [enter, store_sequence]
    exact .initializer h hm

/-- What a call comes to: an error, a reading of the clock, the body of a function, or an object. -/
theorem callValue_cases (callee : Value) (args : List Value) (line : Nat) (k : List Frame)
    (s : State) :
    (∃ e, callValue callee args line k s = raise e line k s) ∨
    (callee = .native .clock ∧ callValue callee args line k s = readClock k s) ∨
    (∃ i f, callee = .function i f ∧ callValue callee args line k s =
      enter f args (resultOf f) k s) ∨
    ∃ own, callee = .class_ own ∧ callValue callee args line k s = construct own args k s := by
  unfold callValue
  split
  · exact .inl ⟨_, rfl⟩
  · split
    · exact .inl ⟨_, rfl⟩
    · split
      · exact .inl ⟨_, rfl⟩
      · split
        · exact .inr (.inl ⟨rfl, rfl⟩)
        · exact .inr (.inr (.inl ⟨_, _, rfl, rfl⟩))
        · exact .inr (.inr (.inr ⟨_, rfl, rfl⟩))
        · exact .inl ⟨_, rfl⟩

theorem effect_callValue {callee : Value} {args : List Value} {line : Nat}
    (h : c.Calls callee args line k) :
    c.Effect (callValue callee args line k c.state).state.store := by
  obtain ⟨e, he⟩ | ⟨-, he⟩ | ⟨i, f, rfl, he⟩ | ⟨own, rfl, he⟩ :=
    callValue_cases callee args line k c.state
  · rw [he]
    exact .idle
  · rw [he]
    exact .idle
  · rw [he]
    simp only [enter, store_sequence]
    exact .call h
  · rw [he]
    exact Config.Constructs.effect ⟨⟨line, h⟩, h.step_eq.trans he⟩

theorem effect_evalStep (e : Expr) :
    Config.Effect ⟨.eval e, k, s⟩ (evalStep e k s).state.store := by
  cases e with
  | «variable» site name => exact .of_eq (store_readName _ _ _)
  | this site line => exact .of_eq (store_readName _ _ _)
  | super site line method => exact effect_getSuper site line method
  | _ => exact .idle

theorem effect_execStep (stmt : Stmt) :
    Config.Effect ⟨.exec stmt, k, s⟩ (execStep stmt k s).state.store := by
  cases stmt with
  | var name init =>
    cases init with
    | none => exact .variable
    | some e => exact .idle
  | block body =>
    simp only [execStep, store_sequence]
    exact .block
  | function routine => exact .function
  | return_ line value => cases value <;> exact .idle
  | class_ name parent methods =>
    cases parent with
    | none => exact .class_
    | some parent => exact .idle
  | _ => exact .idle

theorem effect_resume (v : Value) (f : Frame) :
    Config.Effect ⟨.value v, f :: k, s⟩ (resume v f k s).state.store := by
  cases f with
  | unary op line => exact .of_eq (store_giveOrRaise _ _)
  | binaryRight op line left => exact .of_eq (store_giveOrRaise _ _)
  | assign site name => exact effect_writeName site name v
  | callee line args =>
    cases args with
    | nil => exact effect_callValue .bare
    | cons e es => exact .idle
  | argument line callee done rest =>
    cases rest with
    | nil => exact effect_callValue .given
    | cons e es => exact .idle
  | get name => exact effect_getProperty v name
  | setValue name object => exact .setField
  | var name => exact .initialized
  | superclass name line methods =>
    cases v with
    | class_ parent => exact .derived
    | _ => exact .idle
  | sequence rest => exact .of_eq (store_sequence _)
  | call outer result => exact .of_eq (store_finishCall _ _ _)
  | _ =>
    refine .of_eq ?_
    unfold resume
    repeat' split
    all_goals first | rfl | contradiction

/-- A step has one of the effects. -/
theorem effect_step (c : Config) : c.Effect (step c).state.store := by
  obtain ⟨control, frames, s⟩ := c
  cases control with
  | eval e => exact effect_evalStep e
  | exec stmt => exact effect_execStep stmt
  | value v =>
    cases frames with
    | nil => exact .idle
    | cons f k => exact effect_resume v f
  | returning v =>
    cases frames with
    | nil => exact .idle
    | cons f k =>
      cases f with
      | call outer result => exact .of_eq (store_finishCall _ _ _)
      | _ => exact .idle
  | failing e =>
    cases frames with
    | nil => exact .idle
    | cons f k => cases f <;> exact .idle

end Steps

end LoxLang.Machine

/-! ## Scopes that stay as they are -/

namespace LoxLang.Store

/-- From one store to another scopes are made, and some names in scopes are given values. -/
inductive Evolves (written : ScopeId → Name → Prop) (st : Store) : Store → Prop where
  | refl : Evolves written st st
  | define (h : Evolves written st st') (hw : written a name) (v : Value) :
      Evolves written st (st'.define a name.text v)
  | addScope (h : Evolves written st st') (outer : Option ScopeId) (b : Bindings Value) :
      Evolves written st (st'.addScope outer b)
  | other (h : Evolves written st st') (hs : st''.scopes = st'.scopes) : Evolves written st st''

namespace Evolves

variable {written : ScopeId → Name → Prop} {st st' : Store} {a : ScopeId}

theorem takeIdentity (h : Evolves written st st') : Evolves written st st'.takeIdentity :=
  h.other rfl

theorem addObject (h : Evolves written st st') : Evolves written st st'.addObject := h.other rfl

theorem nextScope_le (h : Evolves written st st') : st.nextScope ≤ st'.nextScope := by
  induction h with
  | refl => exact Nat.le_refl _
  | define _ _ _ ih => rwa [nextScope_define]
  | addScope _ _ _ ih =>
    rw [nextScope_addScope]
    exact Nat.le_succ_of_le ih
  | other _ hs ih =>
    unfold nextScope at *
    rwa [hs]

theorem enclosing?_eq (h : Evolves written st st') (ha : a < st.nextScope) :
    st'.enclosing? a = st.enclosing? a := by
  induction h with
  | refl => rfl
  | define _ _ _ ih => rwa [enclosing?_define]
  | addScope h _ _ ih =>
    rw [enclosing?_addScope, if_neg (Nat.ne_of_lt (Nat.lt_of_lt_of_le ha h.nextScope_le)), ih]
  | other _ hs ih => rwa [enclosing?, hs]

/-- A scope in which nothing is written stays as it is. -/
theorem scopes_eq (h : Evolves written st st') (ha : a < st.nextScope)
    (hw : ∀ name, ¬ written a name) : st'.scopes[a]? = st.scopes[a]? := by
  induction h with
  | refl => rfl
  | @define st₁ b name _ hb v ih =>
    have hne : a ≠ b := fun he => hw name (he ▸ hb)
    rw [scopes_define_of_ne _ hne, ih]
  | addScope h _ _ ih => rw [scopes_addScope_of_lt _ (Nat.lt_of_lt_of_le ha h.nextScope_le), ih]
  | other _ hs ih => rw [hs, ih]

/-- If no reserved word is written, the scopes keep their names. -/
theorem le (h : Evolves written st st') (hw : ∀ a name, written a name → name.IsOrdinary) :
    st.Le st' := by
  induction h with
  | refl => exact .refl st
  | define _ hb v ih => exact ih.trans (le_define _ _ (hw _ _ hb) v)
  | addScope _ outer b ih => exact ih.trans (le_addScope _ outer b)
  | other _ hs ih => exact ih.trans (le_of_scopes_eq hs)

end Evolves

end LoxLang.Store

namespace LoxLang.Machine

/-- Objects are made and never lost. -/
theorem Config.Effect.nextObject_le {c : Config} {st : Store} (h : c.Effect st) :
    c.state.store.nextObject ≤ st.nextObject := by
  cases h with
  | setField => simp [Store.setField, Store.nextObject]
  | object h => simp [Store.addObject, Store.nextObject]
  | initializer h hm => simp [Store.addScope, Store.addObject, Store.nextObject]
  | _ => exact Nat.le_refl _

theorem Config.Effect.evolves {c : Config} {st : Store} (h : c.Effect st) :
    c.state.store.Evolves c.Writes st := by
  cases h with
  | idle => exact .refl
  | «variable» => exact .define .refl (.declare .variable) _
  | initialized => exact .define .refl (.declare .initialized) _
  | function => exact .define (.takeIdentity .refl) (.declare .function) _
  | class_ => exact .define (.takeIdentity .refl) (.declare .class_) _
  | derived => exact .define (.takeIdentity (.addScope .refl _ _)) (.declare .derived) _
  | assign h => exact .define .refl h _
  | setField => exact .other .refl rfl
  | block => exact .addScope .refl _ _
  | method h => exact .takeIdentity (.addScope .refl _ _)
  | call h => exact .addScope .refl _ _
  | object h => exact .addObject .refl
  | initializer h hm => exact .addScope (.addScope (.addObject .refl) _ _) _ _

/-- From one step to the next the scopes evolve. -/
theorem evolves_step (c : Config) : c.state.store.Evolves c.Writes (step c).state.store :=
  (effect_step c).evolves

/-- A machine whose code is as the grammar has it writes no reserved word. -/
theorem Config.Fits.isOrdinary_of_writes {P : Scoping.Occurrence → Prop}
    (hP : ∀ o, P o → o.use.IsOrdinary) {c : Config} (h : c.Fits P) {a : ScopeId} {name : Name}
    (hw : c.Writes a name) : name.IsOrdinary := by
  have hassign : ∀ {v site k s}, Config.Fits P ⟨.value v, .assign site name :: k, s⟩ →
      name.IsOrdinary := by
    intro v site k s ⟨_, scopes, pending, h⟩
    cases h.frames with
    | assign hu hk => exact hP _ hu (.inr rfl)
  cases hw with
  | assignAt hd ha => exact hassign h
  | assign hd ha => exact hassign h
  | declare hd =>
    cases hd with
    | «variable» =>
      obtain ⟨scopes, h⟩ := h
      exact h.code.1
    | initialized =>
      obtain ⟨-, scopes, pending, h⟩ := h
      cases h.frames with
      | var hn hp hk => exact hn
    | function =>
      obtain ⟨scopes, h⟩ := h
      exact h.code.1.1
    | class_ =>
      obtain ⟨scopes, h⟩ := h
      exact h.code.1.1
    | derived =>
      obtain ⟨-, scopes, pending, h⟩ := h
      cases h.frames with
      | superclass hn hp hm hk => exact hn

end LoxLang.Machine
