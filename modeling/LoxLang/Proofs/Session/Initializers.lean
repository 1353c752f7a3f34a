import LoxLang.Proofs.Machine.Extent
import LoxLang.Proofs.Machine.Holdings
import LoxLang.Proofs.Session.Course

/-!
# Objects and their initializers

A call of a class makes a new object and gives this object, whatever its initializer does. An
initializer that is taken from an object as a method gives the object too, however much later it is
called. Both hold because the frame of the call knows what it will give when the body starts: the
object itself, or the scope in which `this` is that object for ever.

## Main definitions

* `Value.IsMade`: initializers are marked as such, and the number of an object was given out.

## Main results

* `Session.object_of_initializer`: what calls of classes and of initializers give.
-/

namespace LoxLang

open Machine

/-! ## Marked initializers and numbered objects -/

/-- A method is marked as an initializer if it has the name of one. -/
def Class.IsMarked (c : Class) : Prop :=
  c.AllMethods fun name m => m.isInitializer = (name == Routine.initName)

/-- Initializers are marked, and the number of an object was given out. -/
def Value.IsMade (st : Store) : Value → Prop
  | .class_ c => c.IsMarked
  | .object id c => id < st.nextObject ∧ c.IsMarked
  | _ => True

theorem Value.IsPlain.isMade {v : Value} (h : v.IsPlain) (st : Store) : v.IsMade st := by
  cases v <;> trivial

theorem Value.IsMade.mono {st st' : Store} {v : Value} (h : v.IsMade st)
    (hle : st.nextObject ≤ st'.nextObject) : v.IsMade st' := by
  cases v with
  | object id c => exact ⟨Nat.lt_of_lt_of_le h.1 hle, h.2⟩
  | _ => exact h

namespace Machine

theorem isMarked_methodTable (methods : List Routine) (scope : ScopeId) :
    ∀ entry ∈ methodTable methods scope,
      entry.2.isInitializer = (entry.1 == Routine.initName) := by
  intro entry he
  obtain ⟨r, -, rfl⟩ := mem_methodTable he
  rfl

theorem nextObject_construct (own : Class) (args : List Value) (k : List Frame) (s : State) :
    (construct own args k s).state.store.nextObject = s.store.nextObject + 1 := by
  unfold construct
  split
  · simp [give, Store.addObject, Store.nextObject]
  · simp [enter, bindMethod, Store.addScope, Store.addObject, Store.nextObject]

theorem Config.Makes.isMade {c : Config} {v : Value}
    (h : ∀ w, c.Holds w → w.IsMade c.state.store) (hv : c.Makes v) :
    v.IsMade (step c).state.store := by
  cases hv with
  | function => trivial
  | class_ => exact isMarked_methodTable _ _
  | derived => exact ⟨h _ (.control List.mem_cons_self), isMarked_methodTable _ _⟩
  | method hb => trivial
  | object hc =>
    rw [hc.step_eq]
    exact ⟨by rw [nextObject_construct]; exact Nat.lt_succ_self _, h _ hc.holds.1⟩

end Machine

theorem Session.persists_isMade :
    Persists (fun _ => True) fun c => ∀ v, c.Holds v → v.IsMade c.state.store :=
  .of_holds (fun st _ hv => hv.isMade st) fun c _ h v hv => by
    rcases holds_step hv with hv | hv | hv
    · exact (h v hv).mono (effect_step c).nextObject_le
    · exact hv.isMade _
    · exact hv.isMade h

/-- At all moments of a session initializers are marked and objects numbered. -/
theorem Session.Course.isMade {starts : List Config} (h : Course starts) {c : Config}
    (hc : Visits starts c) : ∀ v, c.Holds v → v.IsMade c.state.store :=
  persists_isMade.visits (fun _ _ _ hv => (State.isPlain_of_holds_initial hv).isMade _) h
    (fun _ _ => trivial) hc

/-! ## What calls give -/

namespace Machine

variable {args : List Value} {line n : Nat} {s : State} {v : Value}

theorem outcome?_raise_ne (e : RuntimeError) :
    (run n (raise e line [] s)).outcome? ≠ some (.value v) := by
  rw [run_of_isFinal rfl]
  exact nofun

/-- A class gives the object that it makes. -/
theorem eq_object_of_outcome? {own : Class}
    (h : (run n (callValue (.class_ own) args line [] s)).outcome? = some (.value v)) :
    v = .object s.store.nextObject own := by
  obtain ⟨e, he⟩ | ⟨hcallee, -⟩ | ⟨i, f, hcallee, -⟩ | ⟨_, hcallee, he⟩ :=
    callValue_cases (.class_ own) args line [] s
  · rw [he] at h
    exact absurd h (outcome?_raise_ne e)
  · cases hcallee
  · cases hcallee
  · cases hcallee
    rw [he] at h
    cases hm : own.method? Routine.initName with
    | none =>
      rw [construct_of_eq_none hm, run_of_isFinal rfl] at h
      cases h
      rfl
    | some m =>
      rw [construct_of_eq_some hm] at h
      obtain ⟨w, hw⟩ := exists_value_of_enter h
      exact CallResult.eq_of_value_given hw

/-- An initializer gives what `this` stands for in its scope. -/
theorem getAt_of_outcome? {i : Nat} {f : Closure} (hf : f.isInitializer)
    (h : (run n (callValue (.function i f) args line [] s)).outcome? = some (.value v)) :
    (run n (callValue (.function i f) args line [] s)).state.store.getAt f.scope 0
      Keyword.this.spelling = .ok v := by
  obtain ⟨e, he⟩ | ⟨hcallee, -⟩ | ⟨i, f, hcallee, he⟩ | ⟨own, hcallee, -⟩ :=
    callValue_cases (.function i f) args line [] s
  · rw [he] at h
    exact absurd h (outcome?_raise_ne e)
  · cases hcallee
  · cases hcallee
    rw [he, resultOf, if_pos hf] at h ⊢
    obtain ⟨w, hw⟩ := exists_value_of_enter h
    exact hw
  · cases hcallee

end Machine

namespace Session

variable {starts : List Config}

/-- A bound initializer gives its object whenever it is called. -/
theorem Course.eq_of_initializer (h : Course starts) {object : ObjectId} {own : Class} {m : Closure}
    {k : List Frame} {s : State} (hm : m.isInitializer) {c : Config}
    (hp : Precedes starts (giveMethod m (.object object own) k s) c) {args : List Value} {line : Nat}
    {k' : List Frame} (hc : c.Calls (.function s.store.nextIdentity
      { m with scope := s.store.nextScope }) args line k') {n : Nat} {v : Value}
    (hv : c.Gives k' n v) : v = .object object own := by
  let bound := s.store.addScope (some m.scope) [(Keyword.this.spelling, .object object own)]
  have henclosing : bound.enclosing? s.store.nextScope = some m.scope := by
    simp [bound, Store.enclosing?_addScope]
  have hthis : bound.lookup? s.store.nextScope Keyword.this.spelling = some (.object object own) := by
    simp [bound, Store.lookup?_addScope, Bindings.get?_singleton]
  have hle : bound.Le (Machine.run n c).state.store :=
    h.le (hp.run_right n) (Store.le_of_scopes_eq rfl)
  obtain ⟨j, ho, hstate⟩ := hc.outcome?_of_gives hv
  have hgive := getAt_of_outcome? (f := { m with scope := s.store.nextScope }) hm ho
  obtain ⟨owner, howner, hl⟩ := Store.getAt_eq_ok.mp hgive
  cases howner
  rw [hstate, hle.words henclosing .this, hthis] at hl
  exact (Option.some.inj hl).symm

/-- Whatever is run in a session, a call of a class that succeeds gives an object of this class that
was held nowhere before. An initializer that was taken from an object as a method gives this object,
whatever happened before it is called. -/
theorem object_of_initializer (h : Course starts) :
    (∀ c own args line k n v, Visits starts c → c.Calls (.class_ own) args line k →
      c.Gives k n v → v = .object c.state.store.nextObject own ∧
        ∀ other, ¬ c.Holds (.object c.state.store.nextObject other)) ∧
    ∀ object own name k s m,
      Visits starts ⟨.value (.object object own), .get name :: k, s⟩ →
      name.text = Routine.initName → s.store.field? object name.text = none →
      own.method? name.text = some m →
      ∃ i f s', Machine.step ⟨.value (.object object own), .get name :: k, s⟩ =
          ⟨.value (.function i f), k, s'⟩ ∧
        ∀ c args line k' n v, Precedes starts ⟨.value (.function i f), k, s'⟩ c →
          c.Calls (.function i f) args line k' → c.Gives k' n v → v = .object object own := by
  refine ⟨fun c own args line k n v hvisits hc hv => ?_,
    fun object own name k s m hvisits hname hfield hm => ?_⟩
  · obtain ⟨j, ho, -⟩ := hc.outcome?_of_gives hv
    refine ⟨eq_object_of_outcome? ho, fun other hother => ?_⟩
    exact Nat.lt_irrefl _ (h.isMade hvisits _ hother).1
  · have hmade := h.isMade hvisits (.object object own) (.control List.mem_cons_self)
    have hinit : m.isInitializer := by
      rw [hmade.2.method? hm, hname]
      rfl
    have hstep : Machine.step ⟨.value (.object object own), .get name :: k, s⟩ =
        giveMethod m (.object object own) k s := by
      simp [Machine.step, resume, getProperty, hfield, hm]
    refine ⟨s.store.nextIdentity, { m with scope := s.store.nextScope }, _, hstep, ?_⟩
    intro c args line k' n v hp hc hv
    exact h.eq_of_initializer hinit hp hc hv

end Session

/-! ## An example -/

namespace Machine.Config

/-- Whether the next step calls a class. -/
def callsClass (c : Config) : Bool :=
  match c.call? with
  | some (.class_ _, _) => true
  | _ => false

theorem exists_calls_of_callsClass {c : Config} (h : c.callsClass) :
    ∃ own args line k, c.Calls (.class_ own) args line k := by
  unfold callsClass at h
  split at h
  · next hc => exact ⟨_, _, _, _, calls_of_call? hc⟩
  · cases h

/-- Whether an initializer is taken from an object to be called at once. -/
def takesInitializer : Config → Bool
  | ⟨.value (.object object own), .get name :: .callee _ [] :: _, s⟩ =>
    name.text == Routine.initName && (s.store.field? object name.text).isNone &&
      (own.method? name.text).isSome
  | _ => false

theorem exists_eq_of_takesInitializer {c : Config} (h : c.takesInitializer) :
    ∃ object own name line k s m,
      c = ⟨.value (.object object own), .get name :: .callee line [] :: k, s⟩ ∧
        name.text = Routine.initName ∧ s.store.field? object name.text = none ∧
          own.method? name.text = some m := by
  unfold takesInitializer at h
  split at h
  · simp only [Bool.and_eq_true, beq_iff_eq, Option.isNone_iff_eq_none] at h
    obtain ⟨⟨hname, hfield⟩, hmethod⟩ := h
    obtain ⟨m, hm⟩ := Option.isSome_iff_exists.mp hmethod
    exact ⟨_, _, _, _, _, _, m, rfl, hname, hfield, hm⟩
  · cases h

end Machine.Config

/-- A derived class inherits an initializer that returns early. The class is called, and then the
initializer of the new object. -/
theorem Session.object_of_initializer_inherited :
    let r := Request.interpret "class A{init(){this.x=1;return;}}class B<A{}B().init().x;" true
    let starts := (Session.start (.steady 0) none).starts 300 r
    starts.length = 1 ∧ ∀ start ∈ starts,
      (∃ own args line k, (Machine.run 13 start).Calls (.class_ own) args line k ∧
        (Machine.run 13 start).Gives k 11 (.object 0 own)) ∧
      ∃ object own i f line k, (Machine.run 25 start).Calls (.function i f) [] line k ∧
        (Machine.run 25 start).Gives k 11 (.object object own) := by
  intro r starts
  have hcheck : ∀ start ∈ starts, (Machine.run 13 start).callsClass ∧
      ((Machine.run 13 start).given? 11).isSome ∧
      (Machine.run 13 start).state.store.nextObject = 0 ∧
      (Machine.run 24 start).takesInitializer ∧ ((Machine.run 25 start).given? 11).isSome := by
    decide +kernel
  refine ⟨by decide +kernel, fun start hstart => ?_⟩
  obtain ⟨hcalls, hgiven, hnext, htakes, hgiven'⟩ := hcheck start hstart
  have hmem : start ∈ [(State.initial (.steady 0) none).idle] ++ starts := List.mem_append_right _ hstart
  obtain ⟨hclass, hbound⟩ := object_of_initializer (.intro (.start (.steady 0) none) 300 r)
  refine ⟨?_, ?_⟩
  · obtain ⟨own, args, line, k, hc⟩ := Config.exists_calls_of_callsClass hcalls
    obtain ⟨v, hv⟩ := Option.isSome_iff_exists.mp hgiven
    have hv := hc.gives_of_given? hv
    obtain ⟨rfl, -⟩ := hclass _ own args line k 11 v (.intro hmem 13) hc hv
    rw [hnext] at hv
    exact ⟨own, args, line, k, hc, hv⟩
  · obtain ⟨object, own, name, line, k, s, m, heq, hname, hfield, hm⟩ :=
      Config.exists_eq_of_takesInitializer htakes
    have hvisits : Visits ([(State.initial (.steady 0) none).idle] ++ starts) (Machine.run 24 start) :=
      .intro hmem 24
    rw [heq] at hvisits
    obtain ⟨i, f, s', hstep, hlater⟩ := hbound object own name _ s m hvisits hname hfield hm
    have hrun : Machine.run 25 start = ⟨.value (.function i f), .callee line [] :: k, s'⟩ := by
      rw [run_succ', heq, hstep]
    have hc : (Machine.run 25 start).Calls (.function i f) [] line k := hrun ▸ .bare
    obtain ⟨v, hv⟩ := Option.isSome_iff_exists.mp hgiven'
    have hv := hc.gives_of_given? hv
    have hp : Precedes ([(State.initial (.steady 0) none).idle] ++ starts) (Machine.run 25 start)
        (Machine.run 25 start) := .run hmem 25 0
    obtain rfl := hlater _ [] line k 11 v (hrun ▸ hp) (hrun ▸ hc) (hrun ▸ hv)
    exact ⟨object, own, i, f, line, k, hc, hv⟩

end LoxLang
