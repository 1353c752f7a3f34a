import LoxLang.Proofs.Machine.Activation
import LoxLang.Proofs.Session.Course

/-!
# Where `super` leads

A class statement with a superclass makes a scope in which `super` is that class. Nothing ever changes
this, and no other scope has `super`. So wherever `super.m` is evaluated, a method is running that
some class statement has declared, and the methods of the class that its superclass clause gave then
are searched, the nearest first.

## Main definitions

* `Config.Derives`: a class statement is about to make a class with a superclass.

## Main results

* `Session.super_dispatch`: what `super.m` gives.
-/

namespace LoxLang

open Scoping Machine

namespace Machine

/-- The superclass clause of a class statement has been evaluated. The next step makes the class
`own`, with its methods in the scope `home`. -/
inductive Config.Derives : Config → Class → ScopeId → Prop where
  | intro : Derives ⟨.value (.class_ parent), .superclass name line methods :: k, s⟩
      (.mk s.store.nextIdentity name.text (some parent) (methodTable methods s.store.nextScope))
      s.store.nextScope

section Derives

variable {c : Config} {own : Class} {home : ScopeId}

theorem Config.Derives.nextScope_eq (h : c.Derives own home) : c.state.store.nextScope = home := by
  cases h
  rfl

/-- All methods of the class stand in the scope `home`. -/
theorem Config.Derives.scope_of_mem (h : c.Derives own home) :
    ∀ entry ∈ own.methods, entry.2.scope = home := by
  cases h with
  | intro =>
    intro entry he
    obtain ⟨r, -, rfl⟩ := mem_methodTable he
    rfl

/-- The scope of the methods has `super`. -/
theorem Config.Derives.exists_le (h : c.Derives own home)
    (hw : ∀ a name, c.Writes a name → name.IsOrdinary) :
    ∃ (st : Store) (parent : Class), st.Le (step c).state.store ∧ own.superclass = some parent ∧
      st.enclosing? home = some c.state.scope ∧
        st.lookup? home Keyword.super.spelling = some (.class_ parent) := by
  cases h with
  | @intro parent name line methods k s =>
    let st := s.store.addScope (some s.scope) [(Keyword.super.spelling, .class_ parent)]
    refine ⟨st, parent, ?_, rfl, ?_, ?_⟩
    · have htake : st.Le st.takeIdentity := Store.le_of_scopes_eq rfl
      exact htake.trans (Store.le_define _ s.scope (hw _ _ (.declare .derived)) _)
    · simp [st, Store.enclosing?_addScope]
    · simp [st, Store.lookup?_addScope, Bindings.get?_singleton]

end Derives

/-! ## Where `super` comes from -/

section Origin

variable {st : Store} {a : ScopeId} {word : String}

theorem lookup?_addScope_eq_none {outer : Option ScopeId} {b : Bindings Value}
    (h : st.lookup? a word = none) (hb : b.get? word = none) :
    (st.addScope outer b).lookup? a word = none := by
  rw [Store.lookup?_addScope]
  split <;> assumption

theorem lookup?_define_eq_none {scope : ScopeId} {name : Name} {k : Keyword} {v : Value}
    (h : st.lookup? a k.spelling = none) (hn : name.IsOrdinary) :
    (st.define scope name.text v).lookup? a k.spelling = none := by
  rwa [Store.lookup?_define, if_neg fun hc => hn.ne_spelling k hc.2.1.symm]

theorem get?_bindParams_eq_none {params : List Name} (h : ∀ p ∈ params, p.IsOrdinary)
    (args : List Value) (k : Keyword) : (bindParams params args).get? k.spelling = none := by
  refine Option.eq_none_iff_forall_ne_some.mpr fun v hv => ?_
  obtain ⟨p, hp, he⟩ := List.mem_map.mp (mem_of_get?_bindParams hv).1
  exact (h p hp).ne_spelling k he

variable {P : Occurrence → Prop} {c : Config}

theorem Config.Fits.callee (h : c.Fits P) {callee : Value} {args : List Value} {line : Nat}
    {k : List Frame} (hc : c.Calls callee args line k) : callee.Fits P c.state.store := by
  cases hc with
  | bare => exact h.1
  | given =>
    obtain ⟨-, scopes, pending, h⟩ := h
    cases h.frames with
    | argument hv hd he hk => exact hv

/-- Only a class statement makes a scope with `super`. -/
theorem Config.Fits.lookup?_super_step (hP : ∀ o, P o → o.use.IsOrdinary) (h : c.Fits P)
    (hd : ∀ own, ¬ c.Derives own a)
    (hn : c.state.store.lookup? a Keyword.super.spelling = none) :
    (Machine.step c).state.store.lookup? a Keyword.super.spelling = none := by
  have hw : ∀ a name, c.Writes a name → name.IsOrdinary := fun _ _ => h.isOrdinary_of_writes hP
  have hthis : ∀ v : Value,
      Bindings.get? Keyword.super.spelling [(Keyword.this.spelling, v)] = none := fun v => by
    rw [Bindings.get?_singleton, if_neg (by decide)]
  have heffect := effect_step c
  generalize (Machine.step c).state.store = st' at heffect ⊢
  cases heffect with
  | idle => exact hn
  | «variable» => exact lookup?_define_eq_none hn (hw _ _ (.declare .variable))
  | initialized => exact lookup?_define_eq_none hn (hw _ _ (.declare .initialized))
  | function => exact lookup?_define_eq_none hn (hw _ _ (.declare .function))
  | class_ => exact lookup?_define_eq_none hn (hw _ _ (.declare .class_))
  | @derived parent name line methods k s =>
    refine lookup?_define_eq_none ?_ (hw _ _ (.declare .derived))
    have hne : a ≠ s.store.nextScope := by
      rintro rfl
      exact hd _ .intro
    exact (Store.lookup?_addScope ..).trans ((if_neg hne).trans hn)
  | assign hassign => exact lookup?_define_eq_none hn (hw _ _ hassign)
  | setField => exact hn
  | block => exact lookup?_addScope_eq_none hn rfl
  | method hb => exact lookup?_addScope_eq_none hn (hthis _)
  | call hc =>
    obtain ⟨scopes, hr, -⟩ : Closure.Fits P c.state.store _ := h.callee hc
    exact lookup?_addScope_eq_none hn (get?_bindParams_eq_none hr.body.1 _ _)
  | object hc => exact hn
  | initializer hc hm =>
    obtain ⟨line, hcalls⟩ := hc.calls
    have hown : Class.Fits P c.state.store _ := h.callee hcalls
    obtain ⟨scopes, hr, -⟩ := hown.method? hm
    refine lookup?_addScope_eq_none (lookup?_addScope_eq_none hn (hthis _)) ?_
    exact get?_bindParams_eq_none hr.body.1 _ _

end Origin

end Machine

namespace Session

variable {starts : List Config}

/-- From a class statement on, `super` in the scope of its methods is the class that its superclass
clause gave. -/
theorem Course.lookup?_super (h : Course starts) {c c' : Config} {own : Class} {home : ScopeId}
    (hd : c.Derives own home) (hp : Precedes starts (Machine.step c) c')
    (hw : ∀ a name, c.Writes a name → name.IsOrdinary) :
    ∃ parent, own.superclass = some parent ∧
      c'.state.store.lookup? home Keyword.super.spelling = some (.class_ parent) := by
  obtain ⟨st, parent, hle, hparent, henclosing, hsuper⟩ := hd.exists_le hw
  refine ⟨parent, hparent, ?_⟩
  rw [(h.le hp hle).words henclosing .super, hsuper]

/-- A scope with `super` was made by a class statement. -/
theorem Course.exists_derives (h : Course starts) {c : Config} (hc : Visits starts c)
    {home : ScopeId} {v : Value}
    (hv : c.state.store.lookup? home Keyword.super.spelling = some v) :
    ∃ c₁ own, c₁.Derives own home ∧ Visits starts c₁ ∧ Precedes starts (Machine.step c₁) c := by
  -- Without such a statement no scope of that number would ever have `super`.
  have hpersists : Persists (fun d => Visits starts d ∧ ¬ ∃ own, d.Derives own home)
      fun d => d.state.store.lookup? home Keyword.super.spelling = none := by
    refine ⟨fun {d} ⟨hd, hnone⟩ hn => ?_, fun _ hn => hn, fun hn hb => by cases hb <;> exact hn⟩
    obtain ⟨s, hs⟩ := h.admits hd
    exact hs.fits.lookup?_super_step (fun _ ho => ho.ordinary)
      (fun own hown => hnone ⟨own, hown⟩) hn
  have hinitial : ∀ clock room, (State.initial clock room).idle.state.store.lookup? home
      Keyword.super.spelling = none := fun clock room =>
    lookup?_addScope_eq_none (by simp [Store.lookup?, Store.empty]) (by decide)
  obtain ⟨c₁, hvisits, own, hd⟩ := hpersists.exists_visits hinitial h hc (by simp [hv])
  refine ⟨c₁, own, hd, hvisits, ?_⟩
  refine h.precedes_of_lt (f := Store.nextScope) (fun c => (evolves_step c).nextScope_le) hvisits
    hc ?_
  rw [hd.nextScope_eq]
  exact Store.lt_nextScope_of_lookup? hv

/-- Where a program has `super`, the analysis ties it. -/
theorem Sound.isSome_hops?_super {s : Session} (h : s.Sound) {source : String} {p : Program}
    (hp : (s.readProgram source true).1 = .ok p) {site : Site} {line : Nat}
    (hu : ⟨site, .super, ⟨Keyword.super.spelling, line⟩⟩ ∈ Stmt.eachUses p) :
    ((s.readProgram source true).2.machine.table.hops? site).isSome := by
  have hread := readSource_of_readProgram hp
  obtain ⟨-, hok⟩ := Grammar.readProgram_fresh (ordinaryTokens_scan source) (scan source).endLine
    s.nextSite
  obtain ⟨hfresh, hregular⟩ := hok p (readSource_eq_ok hread)
  rw [← Stmt.map_use_eachOccurrences []] at hu
  obtain ⟨o, ho, huse⟩ := List.mem_map.mp hu
  unfold Session.readProgram at hp ⊢
  simp only [hread, if_true] at hp ⊢
  split at hp
  · cases hp
  · next ties hties =>
    obtain ⟨htied, hlegal⟩ := tiedBy_of_analyse hfresh hregular hties h.unused ho
    obtain ⟨d, -, hsuper⟩ := hlegal.hasSuper (by rw [huse])
    unfold Occurrence.TiedBy at htied
    rw [huse, hsuper] at htied
    exact Option.isSome_iff_exists.mpr ⟨_, htied⟩

/-- How a method of the superclass is found once the superclass and the object are known. -/
theorem step_super_eq {site : Site} {line : Nat} {method : Name} {k : List Frame} {s : State}
    {hops : Nat} (ht : s.table.hops? site = some hops) {parent : Class} {receiver : Value}
    (hs : superAndThis hops s = .ok (parent, receiver)) :
    Machine.step ⟨.eval (.super site line method), k, s⟩ =
      match parent.method? method.text with
      | some m => giveMethod m receiver k s
      | none => raise (.undefinedProperty method.text) method.line k s := by
  cases hm : parent.method? method.text <;> simp [Machine.step, evalStep, getSuper, ht, hs, hm]

/-- A program that is not run untied has all its `super` tied. Where in a session a tied `super.m` is
evaluated, a method is running that was declared by one execution of a class statement. The methods of
the class that its superclass clause gave then are searched along the chain of superclasses, the
nearest first, and the one that is found is bound to the object that `this` stands for. An undefined
property is reported if and only if no class of the chain declares it. -/
theorem super_dispatch (h : Course starts) :
    (∀ s : Session, s.Reachable → ∀ source p, (s.readProgram source true).1 = .ok p →
      ∀ site line, ⟨site, .super, ⟨Keyword.super.spelling, line⟩⟩ ∈ Stmt.eachUses p →
        ((s.readProgram source true).2.machine.table.hops? site).isSome) ∧
    ∀ site line method k s, Visits starts ⟨.eval (.super site line method), k, s⟩ →
      (s.table.hops? site).isSome →
      (∃ c own home receiver, c.Derives own home ∧ Visits starts c ∧
        Precedes starts (Machine.step c) ⟨.eval (.super site line method), k, s⟩ ∧
          s.store.Activates home receiver s.scope) ∧
      ∀ c own home receiver, c.Derives own home → Visits starts c →
        Precedes starts (Machine.step c) ⟨.eval (.super site line method), k, s⟩ →
        s.store.Activates home receiver s.scope →
        (∀ entry ∈ own.methods, entry.2.scope = home) ∧
        ∃ parent, own.superclass = some parent ∧
          (∀ m, parent.chain.findSome? (fun d => d.methods.get? method.text) = some m →
            Machine.step ⟨.eval (.super site line method), k, s⟩ = giveMethod m receiver k s) ∧
          ((∀ d ∈ parent.chain, d.methods.get? method.text = none) ↔
            Machine.step ⟨.eval (.super site line method), k, s⟩ =
              raise (.undefinedProperty method.text) method.line k s) := by
  refine ⟨fun s hs source p hp site line hu => hs.sound.isSome_hops?_super hp hu,
    fun site line method k s hc ht => ?_⟩
  obtain ⟨hops, ht⟩ := Option.isSome_iff_exists.mp ht
  obtain ⟨session, hadmits⟩ := h.admits hc
  have hfits := hadmits.fits
  rw [← hadmits.table] at hfits
  refine ⟨?_, fun c own home receiver hd hvisits hp ha => ⟨hd.scope_of_mem, ?_⟩⟩
  · obtain ⟨scopes, pending, d, hr, hthis, hsuper, -⟩ := hfits.exists_scopes ht
    obtain ⟨home, receiver, ha, v, hv, -⟩ := Store.exists_activates hr hthis hsuper
    obtain ⟨c, own, hd, hvisits, hp⟩ := h.exists_derives hc hv
    exact ⟨c, own, home, receiver, hd, hvisits, hp, ha⟩
  · obtain ⟨parent, hparent, hlookup⟩ := h.lookup?_super hd hp (h.isOrdinary_of_writes hvisits)
    have hstep : Machine.step ⟨.eval (.super site line method), k, s⟩ = _ :=
      step_super_eq ht (hfits.superAndThis_eq ht ha hlookup)
    refine ⟨parent, hparent, fun m hm => ?_, ?_⟩
    · rw [← Class.method?_eq_findSome?] at hm
      rw [hstep, hm]
    · rw [← Class.method?_eq_none_iff]
      refine ⟨fun hm => by rw [hstep, hm], fun hraise => ?_⟩
      cases hm : parent.method? method.text with
      | none => rfl
      | some m =>
        rw [hstep, hm] at hraise
        cases hraise

/-- Whether the next step reads a tied method of a superclass, of the given name. -/
def readsSuper (name : String) : Config → Bool
  | ⟨.eval (.super site _ method), _, s⟩ => (s.table.hops? site).isSome && method.text == name
  | _ => false

theorem exists_eq_of_readsSuper {name : String} {c : Config} (h : readsSuper name c) :
    ∃ site line method, c = ⟨.eval (.super site line method), c.frames, c.state⟩ ∧
      (c.state.table.hops? site).isSome ∧ method.text = name := by
  unfold readsSuper at h
  split at h
  · simp only [Bool.and_eq_true, beq_iff_eq] at h
    exact ⟨_, _, _, rfl, h.1, h.2⟩
  · cases h

/-- A method of a derived class changes the name of the superclass, and reads a method of the
superclass within a block. -/
theorem super_dispatch_reassigned :
    let r := Request.interpret "class A{m(){}}class B<A{m(){A=nil;{super.m;}}}B().m();" true
    let starts := (Session.start (.steady 0) none).starts 300 r
    starts.length = 1 ∧ ∀ start ∈ starts, ∃ (c : Config) (own parent : Class) (home : ScopeId)
      (receiver : Value) (m : Closure), c.Derives own home ∧ own.superclass = some parent ∧
      (Machine.run 22 start).state.store.Activates home receiver
        (Machine.run 22 start).state.scope ∧
      parent.chain.findSome? (fun d => d.methods.get? "m") = some m ∧
      Machine.run 23 start =
        giveMethod m receiver (Machine.run 22 start).frames (Machine.run 22 start).state := by
  intro r starts
  have hcheck : ∀ start ∈ starts, readsSuper "m" (Machine.run 22 start) ∧
      (Machine.run 23 start).control.value?.isSome := by decide +kernel
  refine ⟨by decide +kernel, fun start hstart => ?_⟩
  obtain ⟨hreads, hvalue⟩ := hcheck start hstart
  obtain ⟨site, line, method, heq, ht, hname⟩ := exists_eq_of_readsSuper hreads
  have hmem : start ∈ [(State.initial (.steady 0) none).idle] ++ starts := List.mem_append_right _ hstart
  have hvisits : Visits ([(State.initial (.steady 0) none).idle] ++ starts) (Machine.run 22 start) :=
    .intro hmem 22
  rw [heq] at hvisits
  obtain ⟨-, hdispatch⟩ := super_dispatch (.intro (.start (.steady 0) none) 300 r)
  obtain ⟨⟨c, own, home, receiver, hd, hc, hp, ha⟩, hall⟩ :=
    hdispatch site line method _ _ hvisits ht
  obtain ⟨-, parent, hparent, hfound, hnone⟩ := hall c own home receiver hd hc hp ha
  rw [← heq, ← run_succ', hname] at hfound hnone
  cases hm : parent.chain.findSome? (fun d => d.methods.get? "m") with
  | none =>
    rw [hnone.mp (List.findSome?_eq_none_iff.mp hm)] at hvalue
    cases hvalue
  | some m => exact ⟨c, own, parent, home, receiver, m, hd, hparent, ha, hm, hfound m hm⟩

end Session

end LoxLang
