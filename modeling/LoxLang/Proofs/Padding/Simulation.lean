import LoxLang.Proofs.Machine.Safety
import LoxLang.Proofs.Padding.Operations
import LoxLang.Proofs.Program.Loops

/-!
# The padded run follows

Each step of a run is taken by the padded run too. In between, the padded run enters and leaves the
blocks that the other one does not have. It does so only finitely often: on the way in, the
statement gets smaller, and on the way out there are fewer frames.

## Main results

* `Matched.advance`: both take a step, or the padded run takes one by itself.
* `Matched.exists_run`: to each number of steps there is one, not smaller, after which the padded run
  is where the other one is.
* `Matched.exists_run_padded`: the padded run is never anywhere else.
-/

namespace LoxLang.Padding

open Machine World

/-- In some world the two runs are about to do the same. -/
def Matched (t t' : BindingTable) (c c' : Config) : Prop := ∃ w : World, w.Configs t t' c c'

section Steps

variable {w : World} {t t' : BindingTable} {s s' : State} {k k' : List Frame} {v v' : Value}
  {event : Event}

/-! ## Names -/

theorem matched_giveOrRaise {r r' : Except RuntimeError Value}
    (hr : Results (w.Functions t t') (w.Methods t t') r r') (line : Nat) (hs : w.States t t' s s')
    (hk : w.Stacks t t' .value s.scope s'.scope k k') :
    Matched t t' (giveOrRaise r line k s) (giveOrRaise r' line k' s') := by
  cases hr with
  | ok hv => exact ⟨w, .value hs hv hk⟩
  | error e => exact ⟨w, .failing hs hk⟩

theorem matched_readName {u u' : Use} (hu : w.Meets t t' s.scope s'.scope u u') {name : String}
    (line : Nat) (hs : w.States t t' s s') (hk : w.Stacks t t' .value s.scope s'.scope k k')
    (hok : ∀ d, s.table.hops? u.site = some d → ∃ v, s.store.getAt s.scope d name = .ok v) :
    Matched t t' (readName u.site name line k s) (readName u'.site name line k' s') := by
  obtain ⟨σ, hr, hu⟩ := hu
  have hhops := hu.hops
  rw [← hs.table.1, ← hs.table.2] at hhops
  unfold readName
  cases hd : s.table.hops? u.site with
  | none =>
    rw [hd] at hhops
    simp only [hhops, Option.map_none]
    exact matched_giveOrRaise (hs.store.get_global name) line hs hk
  | some d =>
    rw [hd] at hhops
    obtain ⟨v, hv⟩ := hok d hd
    obtain ⟨v', hv', hrel⟩ := hs.store.getAt hr hv
    simp only [hhops, Option.map_some, hv, hv']
    exact ⟨w, .value hs hrel hk⟩

theorem World.States.withStore (hs : w.States t t' s s') {st st' : Store}
    (h : w.Stores t t' st st') : w.States t t' { s with store := st } { s' with store := st' } :=
  ⟨h, hs.table, hs.depth, hs.output, hs.clock⟩

theorem World.States.withScope (hs : w.States t t' s s') (a a' : ScopeId) :
    w.States t t' { s with scope := a } { s' with scope := a' } :=
  ⟨hs.store, hs.table, hs.depth, hs.output, hs.clock⟩

theorem matched_writeName {site site' : Site} {name : Name}
    (hu : w.Meets t t' s.scope s'.scope ⟨site, .assign, name⟩ ⟨site', .assign, name⟩)
    (hv : w.Values t t' v v') (hs : w.States t t' s s')
    (hk : w.Stacks t t' .value s.scope s'.scope k k')
    (hok : ∀ d, s.table.hops? site = some d → ∃ owner, s.store.ancestor? s.scope d = some owner) :
    Matched t t' (writeName site name v k s) (writeName site' name v' k' s') := by
  obtain ⟨σ, hr, hu⟩ := hu
  have hhops : t'.hops? site' = (t.hops? site).map σ := hu.hops
  rw [← hs.table.1, ← hs.table.2] at hhops
  unfold writeName
  cases hd : s.table.hops? site with
  | none =>
    have hbounds := hs.store.bounds hs.store.global
    rw [hd] at hhops
    simp only [hhops, Option.map_none, Store.assign_global hs.store.top.1 hbounds.1,
      Store.assign_global hs.store.top.2 hbounds.2]
    obtain ⟨hn, hn'⟩ | ⟨u, u', hu, hu', -⟩ := rel_cases (hs.store.names hs.store.global name.text)
    · simp only [hn, hn']
      exact ⟨w, .failing hs hk⟩
    · simp only [hu, hu']
      exact ⟨w, .value (hs.withStore (hs.store.define hs.store.global name.text hv)) hv hk⟩
  | some d =>
    rw [hd] at hhops
    obtain ⟨owner, ho⟩ := hok d hd
    obtain ⟨owner', ht, ho'⟩ := hs.store.ancestor? hr ho
    simp only [hhops, Option.map_some, Store.assignAt, ho, ho']
    exact ⟨w, .value (hs.withStore (hs.store.define ht name.text hv)) hv hk⟩

/-! ## Methods -/

/-- A method that is bound to its object is a function. -/
theorem functions_bind {f g : Closure} (h : w.Methods t t' f g) {st st' : Store}
    (hst : w.Stores t t' st st') :
    (w.add st.nextScope st'.nextScope f.scope g.scope).Functions t t'
      { f with scope := st.nextScope } { g with scope := st'.nextScope } := by
  obtain ⟨σ, hσ, hcode, hr⟩ := h.code
  exact ⟨h.isInitializer, σ.within, rfl, hcode, hst.reaches_within hr⟩

theorem like_singleton (name : String) (hv : w.Values t t' v v') :
    Bindings.Like (w.Values t t') [(name, v)] [(name, v')] :=
  .cons ⟨rfl, hv⟩ .nil

theorem matched_giveMethod {f g : Closure} (h : w.Methods t t' f g) (hv : w.Values t t' v v')
    (hs : w.States t t' s s') (hk : w.Stacks t t' .value s.scope s'.scope k k') :
    Matched t t' (giveMethod f v k s) (giveMethod g v' k' s') := by
  have hle := hs.store.le_add f.scope g.scope
  have hstore := hs.store.addScope f.scope g.scope (like_singleton Keyword.this.spelling hv)
  have hvalue := functions_bind h hs.store
  refine ⟨_, .value ⟨hstore.takeIdentity, hs.table, hs.depth, hs.output, hs.clock⟩ ?_ (hk.mono hle)⟩
  have hid : s.store.nextIdentity = s'.store.nextIdentity := hs.store.identity
  simp only [Store.addScope, hid]
  exact .function _ hvalue

theorem matched_getProperty (hv : w.Values t t' v v') (name : Name) (hs : w.States t t' s s')
    (hk : w.Stacks t t' .value s.scope s'.scope k k') :
    Matched t t' (getProperty v name k s) (getProperty v' name k' s') := by
  cases hv with
  | object id h =>
    unfold getProperty
    obtain ⟨hf, hf'⟩ | ⟨u, u', hu, hu', hrel⟩ := rel_cases (hs.store.fields id name.text)
    · obtain ⟨hm, hm'⟩ | ⟨f, g, hm, hm', hmethod⟩ := rel_cases (h.method? name.text)
      · simp only [hf, hf', hm, hm']
        exact ⟨w, .failing hs hk⟩
      · simp only [hf, hf', hm, hm']
        exact matched_giveMethod hmethod (.object id h) hs hk
    · simp only [hu, hu']
      exact ⟨w, .value hs hrel hk⟩
  | _ => exact ⟨w, .failing hs hk⟩

theorem matched_getSuper {site site' : Site} {line : Nat} {method : Name}
    (hu : w.Meets t t' s.scope s'.scope ⟨site, .super, ⟨Keyword.super.spelling, line⟩⟩
      ⟨site', .super, ⟨Keyword.super.spelling, line⟩⟩)
    (hs : w.States t t' s s') (hk : w.Stacks t t' .value s.scope s'.scope k k')
    (hp : ¬ Config.Panics ⟨.eval (.super site line method), k, s⟩) :
    Matched t t' (getSuper site line method k s) (getSuper site' line method k' s') := by
  obtain ⟨σ, hr, hu⟩ := hu
  have hhops : t'.hops? site' = (t.hops? site).map σ := hu.hops
  rw [← hs.table.1, ← hs.table.2] at hhops
  unfold getSuper
  cases hd : s.table.hops? site with
  | none =>
    rw [hd] at hhops
    simp only [hhops, Option.map_none]
    exact ⟨w, .failing hs hk⟩
  | some hops =>
    rw [hd] at hhops
    obtain ⟨c, receiver, hfound⟩ := exists_superAndThis hd hp
    obtain ⟨d, id, own, rfl, hsuper, hthis, rfl⟩ := superAndThis_eq_ok.mp hfound
    have hnext : σ (d + 1) = σ d + 1 := hu.adjacent ⟨rfl, rfl⟩ d (hs.table.1 ▸ hd)
    obtain ⟨u, hsuper', hc⟩ := hs.store.getAt hr hsuper
    obtain ⟨o, hthis', ho⟩ := hs.store.getAt hr hthis
    cases hc with
    | @class_ _ c' hc =>
      cases ho with
      | @object _ own' _ ho =>
        rw [hnext] at hsuper'
        have hfound' : superAndThis (σ d + 1) s' = .ok (c', .object id own') :=
          superAndThis_eq_ok.mpr ⟨σ d, id, own', rfl, hsuper', hthis', rfl⟩
        simp only [hhops, Option.map_some, hnext, hfound, hfound']
        obtain ⟨hm, hm'⟩ | ⟨f, g, hm, hm', hmethod⟩ := rel_cases (hc.method? method.text)
        · simp only [hm, hm']
          exact ⟨w, .failing hs hk⟩
        · simp only [hm, hm']
          exact matched_giveMethod hmethod (.object id ho) hs hk

/-! ## Calls -/

theorem matched_sequence {body body' : List Stmt} (hs : w.States t t' s s')
    (h : w.Runs t t' s.scope s'.scope .statements body body')
    (hk : w.Stacks t t' .ended s.scope s'.scope k k') :
    Matched t t' (Machine.sequence body k s) (Machine.sequence body' k' s') := by
  obtain ⟨σ, hr, h⟩ := h
  cases h with
  | nil => exact ⟨w, .ended hs hk⟩
  | cons hfirst hrest => exact ⟨w, .exec hs ⟨σ, hr, hfirst⟩ (.frame (.sequence ⟨σ, hr, hrest⟩) hk)⟩

/-- The bodies of routines start in scopes that belong together. -/
theorem matched_enter {f g : Closure} (h : w.Functions t t' f g) {args args' : List Value}
    (hargs : List.Forall₂ (w.Values t t') args args') {result result' : CallResult}
    (hresult : w.CallResults t t' result result') (hs : w.States t t' s s')
    (hk : w.Stacks t t' .value s.scope s'.scope k k') :
    Matched t t' (enter f args result k s) (enter g args' result' k' s') := by
  obtain ⟨routine, a, isInit⟩ := f
  obtain ⟨routine', a', isInit'⟩ := g
  obtain ⟨-, σ, -, hcode, hr⟩ := h
  cases hcode with
  | @routine _ _ _ name params hbody =>
    have hle := hs.store.le_add a a'
    have hstore := hs.store.addScope a a' (like_bindParams params hargs)
    exact matched_sequence ⟨hstore, hs.table, congrArg (· + 1) hs.depth, hs.output, hs.clock⟩
      ⟨σ.within, hs.store.reaches_within hr, hbody⟩ (.call (hresult.mono hle) (hk.mono hle))

/-- Initializers look for their objects in scopes that belong together. -/
theorem World.Functions.callResults {f g : Closure} (h : w.Functions t t' f g) :
    w.CallResults t t' (resultOf f) (resultOf g) := by
  obtain ⟨σ, hσ, -, hr⟩ := h.code
  unfold resultOf
  rw [← h.isInitializer]
  split_ifs
  · exact .receiver (hr.twin hσ)
  · exact .returned

theorem matched_construct {c d : Class} (h : c.Like (w.Methods t t') d) {args args' : List Value}
    (hargs : List.Forall₂ (w.Values t t') args args') (hs : w.States t t' s s')
    (hk : w.Stacks t t' .value s.scope s'.scope k k') :
    Matched t t' (construct c args k s) (construct d args' k' s') := by
  have hobject : w.Values t t' (.object s.store.nextObject c) (.object s'.store.nextObject d) :=
    hs.store.objects ▸ .object _ h
  have hadded := hs.withStore hs.store.addObject
  unfold construct
  obtain ⟨hm, hm'⟩ | ⟨f, g, hm, hm', hmethod⟩ := rel_cases (h.method? Routine.initName)
  · simp only [hm, hm']
    exact ⟨w, .value hadded hobject hk⟩
  · simp only [hm, hm']
    have hle := hadded.store.le_add f.scope g.scope
    have hstore := hadded.store.addScope f.scope g.scope
      (like_singleton Keyword.this.spelling hobject)
    have hbound := functions_bind hmethod hadded.store
    exact matched_enter hbound (hargs.imp fun _ _ h => Values.mono hle h)
      (.given hbound.callResults (Values.mono hle hobject))
      ⟨hstore, hs.table, hs.depth, hs.output, hs.clock⟩ (hk.mono hle)

theorem matched_readClock (hs : w.States t t' s s')
    (hk : w.Stacks t t' .value s.scope s'.scope k k') :
    Matched t t' (readClock k s) (readClock k' s') := by
  have hread : w.States t t' { s with clock := s.clock.next } { s' with clock := s'.clock.next } :=
    ⟨hs.store, hs.table, hs.depth, hs.output, congrArg Clock.next hs.clock⟩
  unfold readClock
  rw [show s'.clock.now = s.clock.now from (congrArg Clock.now hs.clock).symm]
  exact ⟨w, .value hread (.number _) hk⟩

theorem matched_callValue (hv : w.Values t t' v v') {args args' : List Value}
    (hargs : List.Forall₂ (w.Values t t') args args') (line : Nat) (hs : w.States t t' s s')
    (hk : w.Stacks t t' .value s.scope s'.scope k k') :
    Matched t t' (callValue v args line k s) (callValue v' args' line k' s') := by
  unfold callValue
  rw [← Values.arity?_eq hv, ← hargs.length_eq, ← hs.depth]
  split
  · exact ⟨w, .failing hs hk⟩
  · next n hn =>
    split_ifs
    · exact ⟨w, .failing hs hk⟩
    · exact ⟨w, .failing hs hk⟩
    · cases hv with
      | native f =>
        cases f with
        | clock => exact matched_readClock hs hk
      | function i h => exact matched_enter h hargs h.callResults hs hk
      | class_ h => exact matched_construct h hargs hs hk
      | _ => exact ⟨w, .failing hs hk⟩

theorem matched_callWith (hv : w.Values t t' v v') {done done' : List Value}
    (hd : List.Forall₂ (w.Values t t') done done') {rest rest' : List Expr}
    (he : List.Forall₂ (w.Evals t t' s.scope s'.scope) rest rest') (line : Nat)
    (hs : w.States t t' s s') (hk : w.Stacks t t' .value s.scope s'.scope k k') :
    Matched t t' (callWith line v done rest k s) (callWith line v' done' rest' k' s') := by
  cases he with
  | nil => exact matched_callValue hv (List.rel_reverse hd) line hs hk
  | cons hfirst hrest => exact ⟨w, .eval hs hfirst (.frame (.argument line hv hd hrest) hk)⟩

/-- Calls give values that belong together or come to the same fault. -/
theorem World.CallResults.value {r r' : CallResult} (h : w.CallResults t t' r r')
    (hst : w.Stores t t' st st') (hv : w.Values t t' v v') :
    (∃ f, r.value st v = .error f ∧ r'.value st' v' = .error f) ∨
      ∃ u u', r.value st v = .ok u ∧ r'.value st' v' = .ok u' ∧ w.Values t t' u u' := by
  induction h with
  | returned => exact .inr ⟨v, v', rfl, rfl, hv⟩
  | receiver ht =>
    unfold CallResult.value Store.getAt Store.ancestor?
    obtain ⟨hn, hn'⟩ | ⟨u, u', hu, hu', hrel⟩ := rel_cases (hst.names ht Keyword.this.spelling)
    · exact .inl ⟨.missingName, by simp only [hn], by simp only [hn']⟩
    · exact .inr ⟨u, u', by simp only [hu], by simp only [hu'], hrel⟩
  | given _ hw ih =>
    unfold CallResult.value
    obtain ⟨f, hf, hf'⟩ | ⟨u, u', hu, hu', -⟩ := ih
    · exact .inl ⟨f, by rw [hf]; rfl, by rw [hf']; rfl⟩
    · exact .inr ⟨_, _, by rw [hu]; rfl, by rw [hu']; rfl, hw⟩

/-- A call that ends gives values that belong together. -/
theorem matched_finishCall {result result' : CallResult} (h : w.CallResults t t' result result')
    (hv : w.Values t t' v v') (hs : w.States t t' s s')
    (hk : w.Stacks t t' .value s.scope s'.scope k k') :
    Matched t t' (finishCall result v k s) (finishCall result' v' k' s') := by
  unfold finishCall
  obtain ⟨f, hf, hf'⟩ | ⟨u, u', hu, hu', hrel⟩ := h.value hs.store hv
  · rw [hf, hf']
    exact ⟨w, .failing hs hk⟩
  · rw [hu, hu']
    exact ⟨w, .value hs hrel hk⟩

theorem World.States.leaveCall (hs : w.States t t' s s') (a a' : ScopeId) :
    w.States t t' (leaveCall a s) (leaveCall a' s') :=
  ⟨hs.store, hs.table, congrArg (· - 1) hs.depth, hs.output, hs.clock⟩

/-! ## Declarations -/

variable {σ : Distances}

theorem World.States.define (hs : w.States t t' s s') (ht : w.twin s.scope = some s'.scope)
    (name : String) (hv : w.Values t t' v v') :
    w.States t t' (s.define name v) (s'.define name v') :=
  hs.withStore (hs.store.define ht name hv)

theorem states_declareClass (name : Name) (hs : w.States t t' s s') (hσ : σ 0 = 0)
    (hr : w.Reaches σ s.scope s'.scope) {rs rs' : List Routine}
    (hm : Related t t' .routines σ.within rs rs') :
    w.States t t' (declareClass name none rs s) (declareClass name none rs' s') := by
  have hmethods := like_methodTable hσ hm hr
  refine hs.withStore (hs.store.takeIdentity.define (hr.twin hσ) name.text ?_)
  rw [hs.store.identity]
  exact .class_ (.root hmethods)

/-- The methods of a class with a superclass are in a new scope. -/
theorem states_declareClass_derived (name : Name) (hs : w.States t t' s s') (hσ : σ 0 = 0)
    (hr : w.Reaches σ s.scope s'.scope) {c d : Class} (hc : c.Like (w.Methods t t') d)
    {rs rs' : List Routine} (hm : Related t t' .routines σ.within.within rs rs') :
    (w.add s.store.nextScope s'.store.nextScope s.scope s'.scope).States t t'
      (declareClass name (some c) rs s) (declareClass name (some d) rs' s') := by
  have hle := hs.store.le_add s.scope s'.scope
  have hmethods := like_methodTable rfl hm (hs.store.reaches_within hr)
  have hstore := hs.store.addScope s.scope s'.scope
    (like_singleton Keyword.super.spelling (.class_ hc))
  refine ⟨hstore.takeIdentity.define (hle.twin (hr.twin hσ)) name.text ?_, hs.table, hs.depth,
    hs.output, hs.clock⟩
  have hid : (s.store.addScope (some s.scope) [(Keyword.super.spelling, .class_ c)]).nextIdentity =
      (s'.store.addScope (some s'.scope) [(Keyword.super.spelling, .class_ d)]).nextIdentity :=
    hs.store.identity
  simp only [hid]
  exact .class_ (.derived (classes_mono hle hc) hmethods)

end Steps

/-! ## One step -/

/-- A bound on the steps that a run takes by itself, to enter or to leave blocks. -/
def weight : Config → Nat
  | ⟨.exec stmt, _, _⟩ => stmt.size
  | ⟨_, k, _⟩ => k.length

/-- Both take a step, or the padded run takes one by itself. -/
def Advances (t t' : BindingTable) (c c' : Config) : Prop :=
  Matched t t' (step c) (step c') ∨ Matched t t' c (step c') ∧ weight (step c') < weight c'

section Advance

variable {w : World} {t t' : BindingTable} {s s' : State} {k k' : List Frame} {v v' : Value}
  {event : Event}

theorem matched_evalStep {e e' : Expr} (hs : w.States t t' s s')
    (he : w.Evals t t' s.scope s'.scope e e') (hk : w.Stacks t t' .value s.scope s'.scope k k')
    (hp : ¬ Config.Panics ⟨.eval e, k, s⟩) :
    Matched t t' (evalStep e k s) (evalStep e' k' s') := by
  have hread : ∀ {d : Nat} {name : String}, Config.Reads ⟨.eval e, k, s⟩ s.scope d name →
      ∃ v, s.store.getAt s.scope d name = .ok v := fun {d name} hr => by
    cases hv : s.store.getAt s.scope d name with
    | ok v => exact ⟨v, rfl⟩
    | error f => exact absurd (panics_of_getAt hr hv) hp
  obtain ⟨σ, hr, he⟩ := he
  cases he with
  | literal l => exact ⟨w, .value hs (.literal l) hk⟩
  | group h => exact ⟨w, .eval hs ⟨σ, hr, h⟩ hk⟩
  | unary op line h => exact ⟨w, .eval hs ⟨σ, hr, h⟩ (.frame (.unary op line) hk)⟩
  | binary op line hleft hright =>
    exact ⟨w, .eval hs ⟨σ, hr, hleft⟩ (.frame (.binaryLeft op line ⟨σ, hr, hright⟩) hk)⟩
  | logical op line hleft hright =>
    exact ⟨w, .eval hs ⟨σ, hr, hleft⟩ (.frame (.logical op ⟨σ, hr, hright⟩) hk)⟩
  | «variable» name hu =>
    exact matched_readName ⟨σ, hr, hu⟩ name.line hs hk fun d hd => hread (.variable hd)
  | assign name hu h => exact ⟨w, .eval hs ⟨σ, hr, h⟩ (.frame (.assign name ⟨σ, hr, hu⟩) hk)⟩
  | call line hc ha =>
    exact ⟨w, .eval hs ⟨σ, hr, hc⟩ (.frame (.callee line (ha.imp fun _ _ h => ⟨σ, hr, h⟩)) hk)⟩
  | get name h => exact ⟨w, .eval hs ⟨σ, hr, h⟩ (.frame (.get name) hk)⟩
  | set name ho hv => exact ⟨w, .eval hs ⟨σ, hr, ho⟩ (.frame (.setObject name ⟨σ, hr, hv⟩) hk)⟩
  | this line hu => exact matched_readName ⟨σ, hr, hu⟩ line hs hk fun d hd => hread (.this hd)
  | super line method hu => exact matched_getSuper ⟨σ, hr, hu⟩ hs hk hp

theorem advances_exec {stmt stmt' : Stmt} (hs : w.States t t' s s')
    (h : w.Runs t t' s.scope s'.scope .statement stmt stmt')
    (hk : w.Stacks t t' .ended s.scope s'.scope k k') :
    Advances t t' ⟨.exec stmt, k, s⟩ ⟨.exec stmt', k', s'⟩ := by
  obtain ⟨σ, hr, h⟩ := h
  cases h with
  | padded h =>
    -- The padded run enters a block by itself.
    have hle := hs.store.le_pad s'.scope
    refine .inr ⟨⟨w.pad s'.store.nextScope s'.scope, .exec ?_
      ⟨σ.padded, hs.store.reaches_padded hr, h⟩ (.padded (hk.mono hle))⟩, ?_⟩
    · exact ⟨hs.store.addPad s'.scope, hs.table, hs.depth, hs.output, hs.clock⟩
    · simp only [step, execStep, Machine.sequence, weight, Stmt.size, Stmt.eachSize]
      omega
  | expression he => exact .inl ⟨w, .eval hs ⟨σ, hr, he⟩ (.ignore hk)⟩
  | print he => exact .inl ⟨w, .eval hs ⟨σ, hr, he⟩ (.frame .print hk)⟩
  | var hσ he =>
    have ht := hr.twin hσ
    cases he with
    | none => exact .inl ⟨w, .ended (hs.define ht _ .nil) hk⟩
    | some he => exact .inl ⟨w, .eval hs ⟨σ, hr, he⟩ (.frame (.var _ ht) hk)⟩
  | block h =>
    have hle := hs.store.le_add s.scope s'.scope
    have hempty : Bindings.Like (w.Values t t') [] [] := .nil
    have hstore := hs.store.addScope s.scope s'.scope hempty
    exact .inl (matched_sequence ⟨hstore, hs.table, hs.depth, hs.output, hs.clock⟩
      ⟨σ.within, hs.store.reaches_within hr, h⟩ (.block (hk.mono hle)))
  | if_ hc ht => exact .inl ⟨w, .eval hs ⟨σ, hr, hc⟩ (.frame (.if_ ⟨σ, hr, ht⟩ .none) hk)⟩
  | ifElse hc ht he =>
    exact .inl ⟨w, .eval hs ⟨σ, hr, hc⟩ (.frame (.if_ ⟨σ, hr, ht⟩ (.some ⟨σ, hr, he⟩)) hk)⟩
  | while_ hc hb =>
    exact .inl ⟨w, .eval hs ⟨σ, hr, hc⟩ (.frame (.whileCondition ⟨σ, hr, hc⟩ ⟨σ, hr, hb⟩) hk)⟩
  | function hσ h =>
    have htaken := hs.withStore hs.store.takeIdentity
    refine .inl ⟨w, .ended ?_ hk⟩
    rw [← h.name_eq.1]
    exact htaken.define (hr.twin hσ) _ (hs.store.identity ▸ .function _ ⟨rfl, σ, hσ, h, hr⟩)
  | return_ he =>
    cases he with
    | none => exact .inl ⟨w, .returning hs .nil hk⟩
    | some he => exact .inl ⟨w, .eval hs ⟨σ, hr, he⟩ (.frame .return_ hk)⟩
  | class_ hσ h => exact .inl ⟨w, .ended (states_declareClass _ hs hσ hr h) hk⟩
  | derived hσ hp h =>
    exact .inl ⟨w, .eval hs ⟨σ, hr, hp⟩ (.frame (.superclass _ _ hσ hr h) hk)⟩

/-- A frame that waits for a value gets one. -/
theorem matched_resume_value {below : Event} {f f' : Frame}
    (hf : w.Frames t t' s.scope s'.scope .value below f f') (hs : w.States t t' s s')
    (hv : w.Values t t' v v') (hk : w.Stacks t t' below s.scope s'.scope k k')
    (hp : ¬ Config.Panics ⟨.value v, f :: k, s⟩) :
    Matched t t' (resume v f k s) (resume v' f' k' s') := by
  cases hf with
  | unary op line => exact matched_giveOrRaise (hv.unary op) line hs hk
  | binaryLeft op line he => exact ⟨w, .eval hs he (.frame (.binaryRight op line hv) hk)⟩
  | binaryRight op line hleft => exact matched_giveOrRaise (hleft.binary hv op) line hs hk
  | logical op he =>
    simp only [resume, ← hv.decides_eq op]
    split
    · exact ⟨w, .value hs hv hk⟩
    · exact ⟨w, .eval hs he hk⟩
  | assign name hu =>
    refine matched_writeName hu hv hs hk fun d hd => ?_
    cases ho : s.store.ancestor? s.scope d with
    | some owner => exact ⟨owner, rfl⟩
    | none => exact absurd (.writeBeyondChain hd ho) hp
  | callee line he => exact matched_callWith hv .nil he line hs hk
  | argument line hc hd he => exact matched_callWith hc (.cons hv hd) he line hs hk
  | get name => exact matched_getProperty hv name hs hk
  | setObject name he =>
    cases hv with
    | object id h => exact ⟨w, .eval hs he (.frame (.setValue name id) hk)⟩
    | _ => exact ⟨w, .failing hs hk⟩
  | setValue name id =>
    exact ⟨w, .value (hs.withStore (hs.store.setField id name.text hv)) hv hk⟩
  | print =>
    simp only [resume, ← Values.text_eq hv, ← hs.output]
    split
    · exact ⟨w, .ended ⟨hs.store, hs.table, hs.depth, rfl, hs.clock⟩ hk⟩
    · exact ⟨w, .failing hs hk⟩
  | var name ht => exact ⟨w, .ended (hs.define ht name.text hv) hk⟩
  | if_ ht he =>
    simp only [resume, ← hv.isTruthy_eq]
    split
    · exact ⟨w, .exec hs ht hk⟩
    · cases he with
      | none => exact ⟨w, .ended hs hk⟩
      | some he => exact ⟨w, .exec hs he hk⟩
  | whileCondition hc hb =>
    simp only [resume, ← hv.isTruthy_eq]
    split
    · exact ⟨w, .exec hs hb (.frame (.whileBody hc hb) hk)⟩
    · exact ⟨w, .ended hs hk⟩
  | superclass name line hσ hr hm =>
    cases hv with
    | class_ hc =>
      have hle := hs.store.le_add s.scope s'.scope
      exact ⟨_, .ended (states_declareClass_derived name hs hσ hr hc hm) (hk.mono hle)⟩
    | _ => exact ⟨w, .failing hs hk⟩
  | return_ => exact ⟨w, .returning hs hv hk⟩

/-- A statement has ended. -/
theorem advances_ended (hs : w.States t t' s s') (hk : w.Stacks t t' .ended s.scope s'.scope k k') :
    Advances t t' ⟨.value v, k, s⟩ ⟨.value v', k', s'⟩ := by
  cases hk with
  | frame hf hk =>
    cases hf with
    | whileBody hc hb => exact .inl ⟨w, .eval hs hc (.frame (.whileCondition hc hb) hk)⟩
    | sequence h => exact .inl (matched_sequence hs h hk)
  | block hk => exact .inl ⟨w, .ended (hs.withScope _ _) hk⟩
  | call hresult hk => exact .inl (matched_finishCall hresult .nil (hs.leaveCall _ _) hk)
  | program h =>
    obtain ⟨σ, hr, h⟩ := h
    cases h with
    | nil => exact .inl ⟨w, .succeeded hs.output⟩
    | cons hfirst hrest => exact .inl ⟨w, .exec hs ⟨σ, hr, hfirst⟩ (.program ⟨σ, hr, hrest⟩)⟩
  | padded hk =>
    exact .inr ⟨⟨w, .ended hs (.paddedEnd hk)⟩,
      by simp [step, resume, Machine.sequence, give, weight]⟩
  | paddedEnd hk =>
    exact .inr ⟨⟨w, .ended (hs.withScope s.scope _) hk⟩,
      by simp [step, resume, give, weight]⟩

/-- A `return` leaves frames up to the end of a call or of a statement of the top level. -/
theorem advances_returning (hs : w.States t t' s s') (hv : w.Values t t' v v')
    (hk : w.Stacks t t' .ended s.scope s'.scope k k') :
    Advances t t' ⟨.returning v, k, s⟩ ⟨.returning v', k', s'⟩ := by
  cases hk with
  | frame hf hk =>
    cases hf with
    | whileBody hc hb => exact .inl ⟨w, .returning hs hv hk⟩
    | sequence h => exact .inl ⟨w, .returning hs hv hk⟩
  | block hk => exact .inl ⟨w, .returning (hs.withScope _ _) hv hk⟩
  | call hresult hk => exact .inl (matched_finishCall hresult hv (hs.leaveCall _ _) hk)
  | program h => exact .inl ⟨w, .ended hs (.program h)⟩
  | padded hk =>
    exact .inr ⟨⟨w, .returning hs hv (.paddedEnd hk)⟩, by simp [step, returnThrough, weight]⟩
  | paddedEnd hk =>
    exact .inr ⟨⟨w, .returning (hs.withScope s.scope _) hv hk⟩,
      by simp [step, returnThrough, weight]⟩

/-- A failure leaves a frame that waits for anything. -/
theorem advances_failing_frame {below : Event} {f f' : Frame} {e : Failure}
    (hf : w.Frames t t' s.scope s'.scope event below f f') (hs : w.States t t' s s')
    (hk : w.Stacks t t' below s.scope s'.scope k k') :
    Advances t t' ⟨.failing e, f :: k, s⟩ ⟨.failing e, f' :: k', s'⟩ := by
  cases hf <;> exact .inl ⟨w, .failing hs hk⟩

/-- A failure leaves all frames. -/
theorem advances_failing {e : Failure} (hs : w.States t t' s s')
    (hk : w.Stacks t t' .ended s.scope s'.scope k k') :
    Advances t t' ⟨.failing e, k, s⟩ ⟨.failing e, k', s'⟩ := by
  cases hk with
  | frame hf hk => exact advances_failing_frame hf hs hk
  | block hk => exact .inl ⟨w, .failing (hs.withScope _ _) hk⟩
  | call hresult hk => exact .inl ⟨w, .failing (hs.leaveCall _ _) hk⟩
  | program h => exact .inl ⟨w, .failed hs.output⟩
  | padded hk =>
    exact .inr ⟨⟨w, .failing hs (.paddedEnd hk)⟩, by simp [step, failThrough, weight]⟩
  | paddedEnd hk =>
    exact .inr ⟨⟨w, .failing (hs.withScope s.scope _) hk⟩, by simp [step, failThrough, weight]⟩

end Advance

/-! ## Runs -/

section Runs

variable {t t' : BindingTable} {c c' : Config}

theorem Matched.outcome?_eq (h : Matched t t' c c') : c.outcome? = c'.outcome? := by
  obtain ⟨w, h⟩ := h
  exact h.outcome?_eq

theorem Matched.output_eq (h : Matched t t' c c') : c.state.output = c'.state.output := by
  obtain ⟨w, h⟩ := h
  exact h.output_eq

theorem Matched.advance (h : Matched t t' c c') (hp : ¬ c.Panics) : Advances t t' c c' := by
  obtain ⟨w, h⟩ := h
  cases h with
  | eval hs he hk => exact .inl (matched_evalStep hs he hk hp)
  | exec hs h hk => exact advances_exec hs h hk
  | value hs hv hk =>
    cases hk with
    | frame hf hk => exact .inl (matched_resume_value hf hs hv hk hp)
    | ignore hk => exact advances_ended hs hk
  | ended hs hk => exact advances_ended hs hk
  | returning hs hv hk => exact advances_returning hs hv hk
  | @failing _ _ _ _ _ event hs hk =>
    cases event with
    | ended => exact advances_failing hs hk
    | value =>
      cases hk with
      | frame hf hk => exact advances_failing_frame hf hs hk
      | ignore hk => exact advances_failing hs hk
  | succeeded ho => exact .inl ⟨w, .succeeded ho⟩
  | failed ho => exact .inl ⟨w, .failed ho⟩

/-- The padded run takes the step of the other one after some steps by itself. -/
theorem Matched.exists_step (h : Matched t t' c c') (hp : ¬ c.Panics) :
    ∃ n, Matched t t' (step c) (run (n + 1) c') := by
  -- The weight falls with each step that the padded run takes by itself.
  induction hn : weight c' using Nat.strongRecOn generalizing c' with
  | ind m ih =>
    obtain hstep | ⟨hstay, hlt⟩ := h.advance hp
    · exact ⟨0, by rwa [run_succ]⟩
    · obtain ⟨n, hm⟩ := ih _ (hn ▸ hlt) hstay rfl
      exact ⟨n + 1, by rwa [run_succ]⟩

/-- To each number of steps there is one, not smaller, after which the padded run is where the other
one is. -/
theorem Matched.exists_run (h : Matched t t' c c') (hp : ∀ n, ¬ (run n c).Panics) (n : Nat) :
    ∃ m, n ≤ m ∧ Matched t t' (run n c) (run m c') := by
  induction n with
  | zero => exact ⟨0, Nat.le_refl 0, h⟩
  | succ n ih =>
    obtain ⟨m, hle, hm⟩ := ih
    obtain ⟨d, hd⟩ := hm.exists_step (hp n)
    refine ⟨m + (d + 1), by omega, ?_⟩
    rwa [run_add n 1, run_succ, run_add m]

/-- At each moment the padded run is where the other one is at some moment, not later. -/
theorem Matched.exists_run_padded (h : Matched t t' c c') (hp : ∀ n, ¬ (run n c).Panics) (m : Nat) :
    ∃ n, n ≤ m ∧ Matched t t' (run n c) (run m c') := by
  induction m with
  | zero => exact ⟨0, Nat.le_refl 0, h⟩
  | succ m ih =>
    obtain ⟨n, hle, hn⟩ := ih
    rw [run_add m 1, run_succ]
    obtain hstep | ⟨hstay, -⟩ := hn.advance (hp n)
    · refine ⟨n + 1, by omega, ?_⟩
      rwa [run_add n 1, run_succ]
    · exact ⟨n, by omega, hstay⟩

end Runs

end LoxLang.Padding
