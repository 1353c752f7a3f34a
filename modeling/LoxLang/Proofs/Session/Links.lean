import LoxLang.Proofs.Session.Privacy
import LoxLang.Proofs.Store.Search

/-!
# Links lead back

Scopes, closures, classes and objects refer to each other in circles, but the links that searches
follow do not: a scope lies within one that was there when it was made, and a class has a superclass
that was there when the class was made. Both are fixed from then on. So each chain of scopes goes
back to the global scope, each chain of classes to a class without a superclass, and every search
ends.

## Main definitions

* `Value.HasClass`, `Config.HasClass`: the classes of a value and of a machine.
* `Config.Refers`: the scopes that a machine refers to.
* `Session.Made`: the step that makes a class, before some moment of a session.

## Main results

* `Session.Course.rooted`: at all moments the scopes lie within the global one.
* `Session.Course.exists_made`: the classes of a machine were made, each by one step.
* `Session.links_lead_back`: links lead to what is older, and searches along them end.
-/

namespace LoxLang

open Machine Scoping

/-- The classes of a value: a class itself or that of an object, and those above it. -/
inductive Value.HasClass : Value → Class → Prop where
  | itself : HasClass (.class_ own) own
  | object : HasClass (.object i own) own
  | above (h : HasClass v own) (hp : own.superclass = some parent) : HasClass v parent

theorem Value.IsPlain.not_hasClass {v : Value} (h : v.IsPlain) (own : Class) :
    ¬ v.HasClass own := by
  intro hown
  induction hown with
  | itself => exact h
  | object => exact h
  | above _ _ ih => exact ih h

/-- The identities of the classes of a value were given out. -/
def Value.IsIdentified (st : Store) (v : Value) : Prop :=
  ∀ own, v.HasClass own → own.identity < st.nextIdentity

theorem Value.IsPlain.isIdentified {v : Value} (h : v.IsPlain) (st : Store) : v.IsIdentified st :=
  fun own hown => absurd hown (h.not_hasClass own)

theorem Class.AllMethods.superclass {P : String → Closure → Prop} {own parent : Class}
    (h : own.AllMethods P) (hp : own.superclass = some parent) : parent.AllMethods P := by
  cases own with
  | mk _ _ above _ =>
    cases hp
    exact h.1

theorem Class.AllMethods.of_mem {P : String → Closure → Prop} {own : Class} (h : own.AllMethods P)
    {entry : String × Closure} (he : entry ∈ own.methods) : P entry.1 entry.2 := by
  cases own with
  | mk _ _ above _ =>
    cases above with
    | none => exact h entry he
    | some parent => exact h.2 entry he

/-- Where the closures of a value are, those of its classes are too. -/
theorem Value.Within.allMethods {R : ScopeId → Prop} {v : Value} (h : v.Within R) {own : Class}
    (hown : v.HasClass own) : own.AllMethods fun _ m => R m.scope := by
  induction hown with
  | itself => exact h
  | object => exact h
  | above _ hp ih => exact (ih h).superclass hp

namespace Machine

/-! ## Classes -/

/-- The classes of the values that a machine holds. -/
def Config.HasClass (c : Config) (own : Class) : Prop := ∃ v, c.Holds v ∧ v.HasClass own

section Classes

variable {c : Config} {st : Store} {own parent : Class}

theorem Config.HasClass.above (h : c.HasClass own) (hp : own.superclass = some parent) :
    c.HasClass parent := by
  obtain ⟨v, hv, hown⟩ := h
  exact ⟨v, hv, hown.above hp⟩

/-- The superclass of a class that is made is held. -/
theorem Config.Makes.superclass (h : c.Makes (.class_ own)) (hp : own.superclass = some parent) :
    c.Holds (.class_ parent) := by
  cases h with
  | class_ => cases hp
  | derived =>
    cases hp
    exact .control List.mem_cons_self

/-- A class gets the next identity. -/
theorem Config.Makes.nextIdentity_step (h : c.Makes (.class_ own)) :
    c.state.store.nextIdentity = own.identity ∧
      (step c).state.store.nextIdentity = own.identity + 1 := by
  cases h <;> exact ⟨rfl, rfl⟩

theorem Config.Makes.hasClass {v : Value} (hv : c.Makes v) (hown : v.HasClass own) :
    c.HasClass own ∨ c.Makes (.class_ own) := by
  induction hown with
  | itself => exact .inr hv
  | object =>
    cases hv with
    | object hc => exact .inl ⟨_, hc.holds.1, .itself⟩
  | above _ hp ih =>
    rcases ih hv with hown | hown
    · exact .inl (hown.above hp)
    · exact .inl ⟨_, hown.superclass hp, .itself⟩

/-- After a step a machine has the classes that it had before, and one that the step makes. -/
theorem hasClass_step (h : (step c).HasClass own) : c.HasClass own ∨ c.Makes (.class_ own) := by
  obtain ⟨v, hv, hown⟩ := h
  rcases holds_step hv with hv | hv | hv
  · exact .inl ⟨v, hv, hown⟩
  · exact absurd hown (hv.not_hasClass own)
  · exact hv.hasClass hown

/-- Identities are never given out twice. -/
theorem Config.Effect.nextIdentity_le (h : c.Effect st) :
    c.state.store.nextIdentity ≤ st.nextIdentity := by
  cases h with
  | function => exact Nat.le_succ _
  | class_ => exact Nat.le_succ _
  | derived => exact Nat.le_succ _
  | method h => exact Nat.le_succ _
  | _ => exact Nat.le_refl _

end Classes

/-! ## Scopes -/

/-- The scopes that a machine refers to: the current one, those that its frames make current again
or look into, and those around the closures that it holds, bound methods among them, or finds in its
classes. -/
inductive Config.Refers (c : Config) : ScopeId → Prop where
  | current : Refers c c.state.scope
  | block (h : .block outer ∈ c.frames) : Refers c outer
  | call (h : .call outer result ∈ c.frames) : Refers c outer
  | receiver (h : .call outer result ∈ c.frames) (ha : result.scope? = some a) : Refers c a
  | function (h : c.Holds (.function i f)) : Refers c f.scope
  | method (h : c.HasClass own) (hm : entry ∈ own.methods) : Refers c entry.2.scope

section Scopes

variable {c : Config} {st : Store}

/-- The scopes that frames make current again are those in which their code runs. -/
theorem FramesMayRun.of_mem {R : ScopeId → Prop} {lax : Prop} {k : List Frame} {scope : ScopeId}
    (h : FramesMayRun R lax k scope) {f : Frame} (hf : f ∈ k) {outer : ScopeId}
    (ho : f = .block outer ∨ ∃ result, f = .call outer result) : MayRun R lax outer true := by
  induction k generalizing scope with
  | nil => cases hf
  | cons g k ih =>
    rcases List.mem_cons.mp hf with rfl | hk
    · rcases ho with rfl | ⟨result, rfl⟩ <;> exact h.2.here
    · cases g <;> exact ih h.2 hk

/-- A call that looks for the object of its scope finds it there. -/
theorem FramesFit.has_this {P : Occurrence → Prop} {scopes : Scopes} {pending : Option String}
    {scope outer a : ScopeId} {k : List Frame} (h : FramesFit P st scopes pending scope k)
    {result : CallResult} (hf : .call outer result ∈ k) (ha : result.scope? = some a) :
    st.Has a Keyword.this.spelling := by
  induction h with
  | nil => cases hf
  | call _ hr _ ih =>
    rcases List.mem_cons.mp hf with he | hf
    · cases he
      exact hr.has_of_scope? ha
    · exact ih hf
  | unary _ ih | get _ ih | setValue _ ih | print _ ih | return_ _ ih | binaryLeft _ _ ih
  | binaryRight _ _ ih | logical _ _ ih | assign _ _ ih | callee _ _ ih | setObject _ _ ih
  | sequence _ _ ih | block _ _ ih | program _ _ ih | var _ _ _ ih | if_ _ _ _ ih
  | whileCondition _ _ _ ih | whileBody _ _ _ ih | superclass _ _ _ _ ih | argument _ _ _ _ ih =>
    exact ih (List.mem_of_ne_of_mem (by simp) hf)

theorem Config.Fits.exists_framesFit {P : Occurrence → Prop} (h : c.Fits P) :
    ∃ scopes pending, FramesFit P c.state.store scopes pending c.state.scope c.frames := by
  obtain ⟨control, frames, s⟩ := c
  cases control with
  | eval e =>
    obtain ⟨scopes, pending, -, h⟩ := h
    exact ⟨scopes, pending, h.frames⟩
  | exec stmt =>
    obtain ⟨scopes, h⟩ := h
    exact ⟨_, _, h.frames⟩
  | value v =>
    obtain ⟨-, scopes, pending, h⟩ := h
    exact ⟨scopes, pending, h.frames⟩
  | returning v => exact h.2.frames
  | failing e => exact h.frames

/-- All scopes that a machine refers to are there. -/
theorem Config.Refers.lt_nextScope {P : Occurrence → Prop} {a : ScopeId} (h : c.Refers a)
    (hclosed : c.IsClosed) (hfits : c.Fits P) : a < c.state.store.nextScope := by
  cases h with
  | current => exact hclosed.scope_lt
  | block hf =>
    exact (hclosed.code.frames.of_mem hf (.inl rfl)).resolve_right fun h => h.1
  | call hf =>
    exact (hclosed.code.frames.of_mem hf (.inr ⟨_, rfl⟩)).resolve_right fun h => h.1
  | receiver hf ha =>
    obtain ⟨scopes, pending, hframes⟩ := hfits.exists_framesFit
    obtain ⟨v, hv, -⟩ := hframes.has_this hf ha
    exact Store.lt_nextScope_of_lookup? hv
  | function hv => exact hclosed.values _ hv
  | method hown hm =>
    obtain ⟨v, hv, hown⟩ := hown
    exact ((hclosed.values v hv).allMethods hown).of_mem hm

/-- Whatever a step does to the store, new scopes lie within scopes that are there. -/
theorem Config.Effect.rooted (h : c.Effect st) (hc : c.IsClosed) (hs : c.state.store.Rooted) :
    st.Rooted := by
  cases h with
  | idle => exact hs
  | «variable» => exact hs.define _ _ _
  | initialized => exact hs.define _ _ _
  | function => exact hs.takeIdentity.define _ _ _
  | class_ => exact hs.takeIdentity.define _ _ _
  | derived => exact (hs.addScope hc.scope_lt _).takeIdentity.define _ _ _
  | assign hw => exact hs.define _ _ _
  | setField => exact hs.of_scopes_eq rfl
  | block => exact hs.addScope hc.scope_lt _
  | method hb => exact (hs.addScope (hc.method hb) _).takeIdentity
  | call hcall => exact hs.addScope (hc.closure hcall) _
  | object hconstructs => exact hs.addObject
  | initializer hconstructs hm =>
    -- The scope of the call lies within the one that has the object, which is new as well.
    refine (hs.addObject.addScope (hc.initializer hconstructs hm) _).addScope ?_ _
    rw [Store.nextScope_addScope]
    exact Nat.lt_succ_self _

end Scopes

end Machine

namespace Session

variable {starts : List Config} {c c' : Config} {own parent : Class}

/-! ## Scopes in a session -/

theorem persists_rooted : Persists Config.IsClosed fun c => c.state.store.Rooted where
  step hc h := (effect_step _).rooted hc h
  rests _ h := h
  begins h hb := by cases hb <;> exact h

theorem rooted_initial (clock : Clock) (room : Option Room) :
    (State.initial clock room).idle.state.store.Rooted := by
  refine ⟨Store.Layered.addScope Store.Layered.empty (by simp) _, fun {a} ha => ?_⟩
  obtain rfl : a = globalScope := Nat.lt_one_iff.mp ha
  exact ⟨fun _ => rfl, fun _ => rfl⟩

/-- At all moments of a session the scopes lie within the global one. -/
theorem Course.rooted (h : Course starts) (hc : Visits starts c) : c.state.store.Rooted :=
  persists_rooted.visits rooted_initial h (fun _ hc => h.isClosed hc) hc

/-- The scope around a scope stays the same. -/
theorem Course.enclosing?_eq (h : Course starts) (hp : Precedes starts c c') {a : ScopeId}
    (ha : a < c.state.store.nextScope) :
    c'.state.store.enclosing? a = c.state.store.enclosing? a := by
  have hpersists : Persists (fun _ => True) fun d => a < d.state.store.nextScope ∧
      d.state.store.enclosing? a = c.state.store.enclosing? a := by
    refine ⟨fun {d} _ ⟨hlt, heq⟩ => ?_, fun _ h => h, fun h hb => by cases hb <;> exact h⟩
    have hevolves := evolves_step d
    exact ⟨Nat.lt_of_lt_of_le hlt hevolves.nextScope_le, (hevolves.enclosing?_eq hlt).trans heq⟩
  exact (hpersists.precedes h (fun _ _ => trivial) hp ⟨ha, rfl⟩).2

/-! ## Classes in a session -/

theorem persists_isIdentified :
    Persists (fun _ => True) fun c => ∀ v, c.Holds v → v.IsIdentified c.state.store :=
  .of_holds (fun st _ hv => hv.isIdentified st) fun c _ h v hv own hown => by
    rcases hasClass_step ⟨v, hv, hown⟩ with ⟨w, hw, hown⟩ | hmakes
    · exact Nat.lt_of_lt_of_le (h w hw own hown) (effect_step c).nextIdentity_le
    · rw [hmakes.nextIdentity_step.2]
      exact Nat.lt_succ_self _

/-- The identities of the classes of a machine were given out. -/
theorem Course.identity_lt (h : Course starts) (hc : Visits starts c) (hown : c.HasClass own) :
    own.identity < c.state.store.nextIdentity := by
  obtain ⟨v, hv, hown⟩ := hown
  have hinitial : ∀ clock room v, (State.initial clock room).idle.Holds v →
      v.IsIdentified (State.initial clock room).store :=
    fun _ _ _ hv => (State.isPlain_of_holds_initial hv).isIdentified _
  exact persists_isIdentified.visits hinitial h (fun _ _ => trivial) hc v hv own hown

/-- A class is made by the step from `c₁`, and by no other step of the session. The step is taken
before the machine comes to `c`. -/
structure Made (starts : List Config) (own : Class) (c₁ c : Config) : Prop where
  visits : Visits starts c₁
  makes : c₁.Makes (.class_ own)
  once : ∀ c₂, Visits starts c₂ → c₂.Makes (.class_ own) → c₂ = c₁
  precedes : Precedes starts (Machine.step c₁) c

theorem nextIdentity_le_step (c : Config) :
    c.state.store.nextIdentity ≤ (Machine.step c).state.store.nextIdentity :=
  (effect_step c).nextIdentity_le

/-- After the step that makes a class, no step makes it again. -/
theorem Course.eq_of_makes (h : Course starts) (hc : c.Makes (.class_ own))
    (hc' : c'.Makes (.class_ own)) (hp : Precedes starts c c') : c = c' := by
  refine hp.eq_or_step.resolve_right fun hp => ?_
  have hle := h.le_of_step (f := Store.nextIdentity) nextIdentity_le_step hp
  rw [hc.nextIdentity_step.2, hc'.nextIdentity_step.1] at hle
  exact Nat.not_succ_le_self _ hle

/-- The classes of a machine were made. -/
theorem Course.exists_made (h : Course starts) (hc : Visits starts c) (hown : c.HasClass own) :
    ∃ c₁, Made starts own c₁ c := by
  -- Without a step that makes the class the machine would never have it.
  have hpersists : Persists (fun d => Visits starts d ∧ ¬ d.Makes (.class_ own))
      fun d => ∀ v, d.Holds v → ¬ v.HasClass own := by
    refine .of_holds (Q := fun _ v => ¬ v.HasClass own) (fun _ v hv => hv.not_hasClass own)
      fun d hd h v hv hown => ?_
    rcases hasClass_step ⟨v, hv, hown⟩ with ⟨w, hw, hown⟩ | hmakes
    · exact h w hw hown
    · exact hd.2 hmakes
  obtain ⟨v, hv, hclass⟩ := hown
  obtain ⟨c₁, hc₁, hmakes⟩ := hpersists.exists_visits
    (fun _ _ w hw => (State.isPlain_of_holds_initial hw).not_hasClass own) h hc
    fun hnone => hnone v hv hclass
  refine ⟨c₁, hc₁, hmakes, fun c₂ hc₂ hmakes₂ => ?_, ?_⟩
  · rcases hc₁.precedes_or hc₂ with hp | hp
    · exact (h.eq_of_makes hmakes hmakes₂ hp).symm
    · exact h.eq_of_makes hmakes₂ hmakes hp
  · refine h.precedes_of_lt (f := Store.nextIdentity) nextIdentity_le_step hc₁ hc ?_
    rw [hmakes.nextIdentity_step.1]
    exact h.identity_lt hc ⟨v, hv, hclass⟩

/-- The superclass of a class that is made was made before. -/
theorem Course.exists_made_superclass (h : Course starts) (hc : Visits starts c)
    (hmakes : c.Makes (.class_ own)) (hp : own.superclass = some parent) :
    ∃ c₁, Made starts parent c₁ c :=
  h.exists_made hc ⟨_, hmakes.superclass hp, .itself⟩

/-- The superclass of a class that is made is older. -/
theorem Course.identity_superclass_lt (h : Course starts) (hc : Visits starts c)
    (hmakes : c.Makes (.class_ own)) (hp : own.superclass = some parent) :
    parent.identity < own.identity := by
  rw [← hmakes.nextIdentity_step.1]
  exact h.identity_lt hc ⟨_, hmakes.superclass hp, .itself⟩

/-- So a search along the superclasses ends. -/
theorem Course.exists_search_superclass (h : Course starts) (hc : Visits starts c)
    (hmakes : c.Makes (.class_ own)) {β : Type} (answer : Class → Option β) :
    ∃ r, Search Class.superclass answer own r := by
  refine exists_search (P := fun d => ∃ c, Visits starts c ∧ c.Makes (.class_ d)) answer
    Class.identity (fun {d e} ⟨c, hc, hmakes⟩ hp => ?_) ⟨c, hc, hmakes⟩
  obtain ⟨c₁, hmade⟩ := h.exists_made_superclass hc hmakes hp
  exact ⟨⟨c₁, hmade.visits, hmade.makes⟩, h.identity_superclass_lt hc hmakes hp⟩

/-! ## Links and searches -/

/-- At every moment of a session, whatever was run before and however it ended:

* the scope around a scope is an older one, the same for ever, and only the global scope has none;
* from every scope that the machine refers to, the scopes around it lead to the global scope;
* reading and changing a name are searches along the scopes that end;
* each class that the machine has was made by one step, and the superclass of each class that was
  made so far is one that was made before it;
* finding a method is a search along the superclasses that ends, with the method of the nearest
  class that declares one. -/
theorem links_lead_back (h : Course starts) (hc : Visits starts c) :
    let st := c.state.store
    (∀ a < st.nextScope, (st.enclosing? a = none ↔ a = globalScope) ∧
      (∀ outer, st.enclosing? a = some outer → outer < a) ∧
      ∀ c', Precedes starts c c' → c'.state.store.enclosing? a = st.enclosing? a) ∧
    (∀ a, c.Refers a → ∃ hops, st.ancestor? a hops = some globalScope) ∧
    (∀ a < st.nextScope, ∀ name,
      (∃ r, Search st.enclosing? (fun b => st.lookup? b name) a r ∧
        st.get a name = r.elim (.error (.undefinedVariable name)) .ok) ∧
      ∀ value, ∃ r,
        Search st.enclosing? (fun b => (st.lookup? b name).map fun _ => st.define b name value) a r
          ∧ st.assign a name value = r.elim (.error (.undefinedVariable name)) .ok) ∧
    (∀ own, c.HasClass own → ∃ c₁, Made starts own c₁ c) ∧
    ∀ own c₁, Made starts own c₁ c →
      (∀ parent, own.superclass = some parent → ∃ c₂, Made starts parent c₂ c₁) ∧
      ∀ name, Search Class.superclass (fun d => d.methods.get? name) own (own.method? name) ∧
        own.method? name = own.chain.findSome? fun d => d.methods.get? name := by
  intro st
  obtain ⟨hlayered, houtermost⟩ : st.Rooted := h.rooted hc
  refine ⟨fun a ha => ⟨houtermost ha, fun _ ho => hlayered ho, fun c' hp => h.enclosing?_eq hp ha⟩,
    fun a ha => ?_, fun a _ name => ⟨?_, fun value => ?_⟩, fun own hown => h.exists_made hc hown,
    fun own c₁ hmade => ⟨fun parent hp => ?_, fun name => ⟨?_, ?_⟩⟩⟩
  · obtain ⟨s, hs⟩ := h.admits hc
    exact (h.rooted hc).exists_ancestor?_eq (ha.lt_nextScope (h.isClosed hc) hs.fits)
  · obtain ⟨r, hr⟩ := Store.Layered.exists_search hlayered (fun b => st.lookup? b name) a
    exact ⟨r, hr, Store.get_of_search hlayered hr⟩
  · obtain ⟨r, hr⟩ := Store.Layered.exists_search hlayered
      (fun b => (st.lookup? b name).map fun _ => st.define b name value) a
    exact ⟨r, hr, Store.assign_of_search hlayered hr⟩
  · exact h.exists_made_superclass hmade.visits hmade.makes hp
  · obtain ⟨r, hr⟩ := h.exists_search_superclass hmade.visits hmade.makes
      fun d => d.methods.get? name
    rwa [Class.method?_of_search hr]
  · exact Class.method?_eq_findSome? name own

/-- Whether the machine has an object whose class is derived from one of the same name and gets the
given method from there. -/
def inheritsFromNamesake (method : String) : Config → Bool
  | ⟨.value (.object _ (.mk _ name (some parent) methods)), _, _⟩ =>
    name == parent.name && (methods.get? method).isNone && (parent.methods.get? method).isSome
  | _ => false

theorem exists_of_inheritsFromNamesake {method : String} (h : inheritsFromNamesake method c) :
    ∃ own parent m, c.HasClass own ∧ own.superclass = some parent ∧ own.name = parent.name ∧
      own.methods.get? method = none ∧ parent.methods.get? method = some m := by
  unfold inheritsFromNamesake at h
  split at h
  · simp only [Bool.and_eq_true, beq_iff_eq, Option.isNone_iff_eq_none] at h
    obtain ⟨⟨hname, hnone⟩, hsome⟩ := h
    obtain ⟨m, hm⟩ := Option.isSome_iff_exists.mp hsome
    exact ⟨_, _, m, ⟨_, .control List.mem_cons_self, .object⟩, rfl, hname, hnone, hm⟩
  · cases h

/-- A run fails in a class statement. In the next one a class takes the place of its own superclass,
and within a block an object of it is asked for a method. -/
theorem links_lead_back_namesake :
    let first := Request.interpret "class A{m(){}}class A<x{}" false
    let s := ((Session.start (.steady 0) none).perform 100 first).2
    let last := Request.interpret "class A<A{}{A().m();}" false
    let starts := ([(State.initial (.steady 0) none).idle] ++ (Session.start (.steady 0) none).starts 100 first) ++
      s.starts 100 last
    (s.starts 100 last).length = 1 ∧ ∀ start ∈ s.starts 100 last,
      (Machine.run 12 start).state.scope = 2 ∧
      (∃ hops, (Machine.run 12 start).state.store.ancestor? 2 hops = some globalScope) ∧
      ∃ own parent m c₁ c₂, own.superclass = some parent ∧ own.name = parent.name ∧
        c₁.Makes (.class_ own) ∧ c₂.Makes (.class_ parent) ∧
        Precedes starts (Machine.step c₂) c₁ ∧
        Precedes starts (Machine.step c₁) (Machine.run 12 start) ∧
        Search Class.superclass (fun d => d.methods.get? "m") own (some m) ∧
        parent.methods.get? "m" = some m := by
  intro first s last starts
  have hcheck : ∀ start ∈ s.starts 100 last, (Machine.run 12 start).state.scope = 2 ∧
      inheritsFromNamesake "m" (Machine.run 12 start) := by decide +kernel
  refine ⟨by decide +kernel, fun start hstart => ?_⟩
  obtain ⟨hscope, hnamesake⟩ := hcheck start hstart
  obtain ⟨own, parent, m, hown, hparent, hname, hnone, hm⟩ :=
    exists_of_inheritsFromNamesake hnamesake
  have hcourse : Course starts :=
    .intro (.perform (.start (.steady 0) none) (by decide +kernel)) 100 last
  obtain ⟨-, hrefers, -, hmade, hclasses⟩ :=
    links_lead_back hcourse (.intro (List.mem_append_right _ hstart) 12)
  obtain ⟨c₁, hmade⟩ := hmade own hown
  obtain ⟨habove, hsearch⟩ := hclasses own c₁ hmade
  obtain ⟨c₂, hmade₂⟩ := habove parent hparent
  have hmethod : own.method? "m" = some m :=
    (Class.method?_upwards hnone hparent).trans (Class.method?_eq_self hm)
  exact ⟨hscope, hscope ▸ hrefers _ .current, own, parent, m, c₁, c₂, hparent, hname, hmade.makes,
    hmade₂.makes, hmade₂.precedes, hmade.precedes, hmethod ▸ (hsearch "m").1, hm⟩

end Session

end LoxLang
