import LoxLang.Proofs.Machine.Fits

/-!
# Every step keeps the invariant

A step takes code apart along its syntax, hands values on, or changes the store in a way that keeps
all chains of scopes. The only names that are written are no reserved words, so `this` and `super`
stay what they are.
-/

namespace LoxLang

open Scoping

variable {P : Occurrence → Prop}

/-! ## What the store gives -/

namespace Store

variable {st st' : Store} {scope : ScopeId} {d : Nat} {name : String} {v : Value}

theorem getAt_eq_ok : st.getAt scope d name = .ok v ↔
    ∃ owner, st.ancestor? scope d = some owner ∧ st.lookup? owner name = some v := by
  unfold getAt
  cases st.ancestor? scope d with
  | none => simp
  | some owner => cases h : st.lookup? owner name <;> simp [h]

theorem assignAt_eq_ok : st.assignAt scope d name v = .ok st' ↔
    ∃ owner, st.ancestor? scope d = some owner ∧ st.define owner name v = st' := by
  unfold assignAt
  cases st.ancestor? scope d <;> simp

theorem lookup?_of_get (h : st.get scope name = .ok v) : ∃ owner, st.lookup? owner name = some v := by
  unfold get at h
  split at h
  · next value hv =>
    cases h
    obtain ⟨owner, -, hl⟩ := Option.bind_eq_some_iff.mp hv
    exact ⟨owner, hl⟩
  · cases h

theorem eq_define_of_assign (h : st.assign scope name v = .ok st') :
    ∃ owner, st.define owner name v = st' := by
  unfold assign at h
  split at h
  · next owner _ => exact ⟨owner, Except.ok.inj h⟩
  · cases h

end Store

/-! ## Parameters and methods -/

theorem Scoping.Scopes.withParams_eq (scopes : Scopes) (params : List Name) :
    scopes.withParams params = (params.map (·.text)).reverse :: scopes := by
  have h : ∀ names, params.foldl (fun (g : Scopes) p => g.declare p.text) (names :: scopes) =
      ((params.map (·.text)).reverse ++ names) :: scopes := by
    induction params with
    | nil => simp
    | cons p ps ih =>
      intro names
      rw [List.foldl_cons, Scopes.declare, ih]
      simp
  rw [Scopes.withParams, h, List.append_nil]

theorem Routine.Fits.body {scopes : Scopes} {r : Routine} (h : r.Fits P scopes) :
    (∀ p ∈ r.params, p.IsOrdinary) ∧ Stmt.EachFits P (scopes.withParams r.params) r.body := by
  obtain ⟨name, params, body⟩ := r
  exact ⟨h.1.1, h.1.2, h.2⟩

theorem Bindings.mem_put {α : Type} {name : String} {a : α} {b : Bindings α} {entry : String × α}
    (h : entry ∈ b.put name a) : entry ∈ b ∨ entry = (name, a) := by
  induction b with
  | nil => exact .inr (by simpa [put] using h)
  | cons head b ih =>
    rw [put] at h
    split at h
    · next hname =>
      rcases List.mem_cons.mp h with rfl | h
      · exact .inr (by rw [hname])
      · exact .inl (List.mem_cons_of_mem _ h)
    · rcases List.mem_cons.mp h with rfl | h
      · exact .inl List.mem_cons_self
      · exact (ih h).imp_left (List.mem_cons_of_mem _)

namespace Machine

/-- A parameter has one of the arguments as its value. -/
theorem get?_bindParams {params : List Name} {args : List Value}
    (hlen : args.length = params.length) {name : String}
    (hn : name ∈ params.map (·.text)) : ∃ v, (bindParams params args).get? name = some v := by
  have h : ∀ (b : Bindings Value), (name ∈ params.map (·.text) ∨ ∃ v, b.get? name = some v) →
      ∃ v, ((params.zip args).foldl (fun b pair => b.put pair.1.text pair.2) b).get? name = some v := by
    clear hn
    induction params generalizing args with
    | nil => intro b hb; simpa using hb
    | cons p ps ih =>
      intro b hb
      obtain ⟨a, as, rfl⟩ : ∃ a as, args = a :: as := by cases args <;> simp_all
      refine ih (by simpa using hlen) _ ?_
      rw [Bindings.get?_put]
      by_cases he : name = p.text
      · exact .inr ⟨a, if_pos he⟩
      · rw [if_neg he]
        exact hb.imp_left fun hm => (List.mem_cons.mp hm).resolve_left he
  exact h [] (.inl hn)

/-- A name that has a value is a parameter, and the value is one of the arguments. -/
theorem mem_of_get?_bindParams {params : List Name} {args : List Value} {name : String} {v : Value}
    (h : (bindParams params args).get? name = some v) :
    name ∈ params.map (·.text) ∧ v ∈ args := by
  have hmem : ∀ (b : Bindings Value) (entry : String × Value),
      entry ∈ (params.zip args).foldl (fun b pair => b.put pair.1.text pair.2) b →
        entry ∈ b ∨ entry.1 ∈ params.map (·.text) ∧ entry.2 ∈ args := by
    clear h
    induction params generalizing args with
    | nil => intro b entry he; exact .inl (by simpa using he)
    | cons p ps ih =>
      intro b entry he
      cases args with
      | nil => exact .inl (by simpa using he)
      | cons a as =>
        rcases ih _ _ he with he | he
        · rcases Bindings.mem_put he with he | he
          · exact .inl he
          · exact .inr (he ▸ ⟨List.mem_cons_self, List.mem_cons_self⟩)
        · exact .inr ⟨List.mem_cons_of_mem _ he.1, List.mem_cons_of_mem _ he.2⟩
  exact (hmem [] _ (Bindings.mem_of_get? h)).resolve_left (by simp)

theorem mem_methodTable {methods : List Routine} {scope : ScopeId} {entry : String × Closure}
    (h : entry ∈ methodTable methods scope) :
    ∃ r ∈ methods, entry = (r.name.text, ⟨r, scope, r.isInit⟩) := by
  have hmem : ∀ b : Bindings Closure,
      entry ∈ methods.foldl (fun b r => b.put r.name.text ⟨r, scope, r.isInit⟩) b →
        entry ∈ b ∨ ∃ r ∈ methods, entry = (r.name.text, ⟨r, scope, r.isInit⟩) := by
    clear h
    induction methods with
    | nil => intro b he; exact .inl he
    | cons r rs ih =>
      intro b he
      rcases ih _ he with he | ⟨r', hr', he⟩
      · rcases Bindings.mem_put he with he | he
        · exact .inl he
        · exact .inr ⟨r, List.mem_cons_self, he⟩
      · exact .inr ⟨r', List.mem_cons_of_mem _ hr', he⟩
  exact (hmem [] h).resolve_left (by simp)

/-! ## States -/

@[simp] theorem openCalls_call (outer : ScopeId) (result : CallResult) (k : List Frame) :
    openCalls (.call outer result :: k) = openCalls k + 1 := by
  rw [openCalls, List.countP_cons_of_pos rfl, openCalls]

theorem openCalls_cons {f : Frame} (k : List Frame) (h : f.isCall = false) :
    openCalls (f :: k) = openCalls k := by
  simp [openCalls, h]

namespace State.Fits

variable {k : List Frame} {s : State} {f : Frame}

theorem push (h : s.Fits P k) (hf : f.isCall = false) : s.Fits P (f :: k) :=
  ⟨h.store, by rw [openCalls_cons k hf, h.depth]⟩

theorem pop (h : s.Fits P (f :: k)) (hf : f.isCall = false) : s.Fits P k :=
  ⟨h.store, by rw [h.depth, openCalls_cons k hf]⟩

end State.Fits

namespace Awaits

variable {scopes : Scopes} {pending : Option String} {k : List Frame} {s : State} {f : Frame}

theorem push (h : Awaits P scopes pending k s) (hf : f.isCall = false)
    (hk : FramesFit P s.store scopes pending s.scope (f :: k)) :
    Awaits P scopes pending (f :: k) s :=
  ⟨h.toFits.push hf, h.realized, hk⟩

theorem pop (h : Awaits P scopes pending (f :: k) s) (hf : f.isCall = false)
    (hk : FramesFit P s.store scopes pending s.scope k) : Awaits P scopes pending k s :=
  ⟨h.toFits.pop hf, h.realized, hk⟩

/-- The store may grow while the frames wait. -/
theorem grow (h : Awaits P scopes pending k s) {st : Store} (hle : s.store.Le st)
    (hst : st.Fits P) : Awaits P scopes pending k { s with store := st } :=
  ⟨⟨hst, h.depth⟩, h.realized.mono hle, h.frames.grow hle⟩

end Awaits

namespace Leaves

variable {k : List Frame} {s : State} {f : Frame}

theorem pop {scopes : Scopes} {pending : Option String} (h : Leaves P (f :: k) s)
    (hf : f.isCall = false) (hk : FramesFit P s.store scopes pending s.scope k) : Leaves P k s :=
  ⟨h.toFits.pop hf, scopes, pending, hk⟩

end Leaves

/-! ## Outcomes of a step -/

section Outcomes

variable {scopes : Scopes} {pending : Option String} {k : List Frame} {s : State} {v : Value}

theorem fits_give (hv : v.Fits P s.store) (h : Awaits P scopes pending k s) :
    (give v k s).Fits P :=
  ⟨hv, scopes, pending, h⟩

theorem fits_giveOrRaise {r : Except RuntimeError Value} {line : Nat}
    (hr : ∀ v, r = .ok v → v.Fits P s.store) (h : Awaits P scopes pending k s) :
    (giveOrRaise r line k s).Fits P := by
  cases r with
  | error e => exact h.leaves
  | ok v => exact fits_give (hr v rfl) h

theorem fits_sequence {body : List Stmt} (hb : Stmt.EachFits P scopes body) (hs : s.Fits P k)
    (hr : Realizes s.store none scopes s.scope)
    (hk : FramesFit P s.store (scopes.afterAll body) none s.scope k) :
    (sequence body k s).Fits P := by
  cases body with
  | nil => exact fits_give trivial ⟨hs, hr, hk⟩
  | cons first rest =>
    obtain ⟨hfirst, hrest⟩ := Stmt.eachFits_cons.mp hb
    exact ⟨scopes, hs.push rfl, hfirst, hr, .sequence hrest hk⟩

end Outcomes

/-! ## Names -/

section Names

variable {scopes : Scopes} {pending : Option String} {k : List Frame} {s : State}

theorem fits_readName (site : Site) (name : String) (line : Nat)
    (h : Awaits P scopes pending k s) : (readName site name line k s).Fits P := by
  unfold readName
  split
  · split
    · next v hv =>
      obtain ⟨owner, -, hl⟩ := Store.getAt_eq_ok.mp hv
      exact fits_give (h.store.lookup hl) h
    · exact h.leaves
  · refine fits_giveOrRaise (fun v hv => ?_) h
    obtain ⟨owner, hl⟩ := Store.lookup?_of_get hv
    exact h.store.lookup hl

theorem fits_give_define {name : Name} {v : Value} (hn : name.IsOrdinary)
    (hv : v.Fits P s.store) (owner : ScopeId) (h : Awaits P scopes pending k s) :
    (give v k { s with store := s.store.define owner name.text v }).Fits P := by
  have hle := s.store.le_define owner hn v
  exact fits_give (hv.grow hle) (h.grow hle (h.store.define owner hn (hv.grow hle)))

theorem fits_writeName {site : Site} {name : Name} {v : Value} (hn : name.IsOrdinary)
    (hv : v.Fits P s.store) (h : Awaits P scopes pending k s) :
    (writeName site name v k s).Fits P := by
  unfold writeName
  split
  · split
    · next st hst =>
      obtain ⟨owner, -, rfl⟩ := Store.assignAt_eq_ok.mp hst
      exact fits_give_define hn hv owner h
    · exact h.leaves
  · split
    · next st hst =>
      obtain ⟨owner, rfl⟩ := Store.eq_define_of_assign hst
      exact fits_give_define hn hv owner h
    · exact h.leaves

/-- Giving the pending name its value in the current scope ends its declaration. -/
theorem awaits_define {name : Name} {v : Value} (hs : s.Fits P k)
    (hr : Realizes s.store pending scopes s.scope)
    (hk : FramesFit P s.store scopes none s.scope k) (hn : name.IsOrdinary)
    (hp : pending = none ∨ pending = some name.text)
    (hv : v.Fits P (s.store.define s.scope name.text v)) :
    Awaits P scopes none k (s.define name.text v) :=
  ⟨⟨hs.store.define s.scope hn hv, hs.depth⟩, hr.define hp hn v,
    hk.grow (s.store.le_define s.scope hn v)⟩

end Names

/-! ## Methods and properties -/

section Methods

variable {scopes : Scopes} {pending : Option String} {k : List Frame} {s : State}
  {m : Closure} {receiver : Value}

theorem suits_this {id : ObjectId} {c : Class} :
    (Value.object id c).Suits Keyword.this.spelling :=
  ⟨fun _ => ⟨id, c, rfl⟩, fun h => absurd h (by decide)⟩

theorem suits_super {c : Class} : (Value.class_ c).Suits Keyword.super.spelling :=
  ⟨fun h => absurd h (by decide), fun _ => ⟨c, rfl⟩⟩

/-- A method bound to an object is a function that fits, in a store that has grown. -/
theorem fits_bindMethod (hm : m.FitsAsMethod P s.store) (hr : receiver.Fits P s.store)
    (ho : receiver.Suits Keyword.this.spelling) (hs : s.store.Fits P) :
    (bindMethod m receiver s).1.Fits P (bindMethod m receiver s).2.store ∧
      s.store.Le (bindMethod m receiver s).2.store ∧ (bindMethod m receiver s).2.store.Fits P := by
  obtain ⟨scopes, hroutine, hscope⟩ := hm
  have hb : ∀ name ∈ [Keyword.this.spelling], ∃ v,
      Bindings.get? name [(Keyword.this.spelling, receiver)] = some v ∧ v.Suits name := by
    simpa [Bindings.get?] using ho
  have hw : ∀ k : Keyword,
      (Bindings.get? k.spelling [(Keyword.this.spelling, receiver)]).isSome →
        k.spelling ∈ [Keyword.this.spelling] := by
    simp [Bindings.get?_singleton]
  have hrealized := hscope.addScope hb hw
  refine ⟨⟨_, hroutine, hrealized, fun _ => ?_⟩, s.store.le_addScope _ _,
    hs.addScope _ fun name v hv => ?_⟩
  · exact (hrealized.1 _ List.mem_cons_self).resolve_right (by simp)
  · obtain rfl : receiver = v := by simp_all [Bindings.get?]
    exact hr

theorem fits_giveMethod (hm : m.FitsAsMethod P s.store) (hr : receiver.Fits P s.store)
    (ho : receiver.Suits Keyword.this.spelling) (h : Awaits P scopes pending k s) :
    (giveMethod m receiver k s).Fits P := by
  obtain ⟨hf, hle, hst⟩ := fits_bindMethod hm hr ho h.store
  have htake : (bindMethod m receiver s).2.store.Le
      (bindMethod m receiver s).2.store.takeIdentity := Store.le_of_scopes_eq rfl
  have hv : Value.Fits P (bindMethod m receiver s).2.store
      (.function (bindMethod m receiver s).2.store.nextIdentity (bindMethod m receiver s).1) := hf
  exact fits_give (hv.grow htake) (h.grow (hle.trans htake) hst.takeIdentity)

theorem fits_getProperty {v : Value} (name : Name) (hv : v.Fits P s.store)
    (h : Awaits P scopes pending k s) : (getProperty v name k s).Fits P := by
  unfold getProperty
  split
  · next id c =>
    split
    · next field hf => exact fits_give (h.store.field hf) h
    · split
      · next m hm => exact fits_giveMethod (Class.Fits.method? hv hm) hv suits_this h
      · exact h.leaves
  · exact h.leaves

/-- What `super` and `this` stand for, when they are found. -/
theorem superAndThis_eq_ok {hops : Nat} {c : Class} {receiver : Value} :
    superAndThis hops s = .ok (c, receiver) ↔ ∃ d id own, hops = d + 1 ∧
      s.store.getAt s.scope (d + 1) Keyword.super.spelling = .ok (.class_ c) ∧
        s.store.getAt s.scope d Keyword.this.spelling = .ok (.object id own) ∧
          receiver = .object id own := by
  unfold superAndThis
  cases hops with
  | zero =>
    generalize s.store.getAt s.scope 0 Keyword.super.spelling = found
    rcases found with f | v
    · simp [Bind.bind, Except.bind]
    · cases v <;> simp [Bind.bind, Except.bind]
  | succ d =>
    simp only [Nat.add_right_cancel_iff, exists_and_left, exists_eq_left']
    generalize s.store.getAt s.scope (d + 1) Keyword.super.spelling = found
    generalize s.store.getAt s.scope d Keyword.this.spelling = object
    rcases found with f | v
    · simp [Bind.bind, Except.bind]
    · rcases object with f | w
      · cases v <;> simp [Bind.bind, Except.bind]
      · cases v <;> cases w <;> simp [Bind.bind, Except.bind, Pure.pure, Except.pure, eq_comm]

theorem fits_getSuper (site : Site) (line : Nat) (method : Name)
    (h : Awaits P scopes pending k s) : (getSuper site line method k s).Fits P := by
  unfold getSuper
  split
  · exact h.leaves
  · split
    · exact h.leaves
    · next c receiver hfound =>
      obtain ⟨d, id, own, rfl, hsuper, hthis, rfl⟩ := superAndThis_eq_ok.mp hfound
      obtain ⟨_, -, hsuper⟩ := Store.getAt_eq_ok.mp hsuper
      obtain ⟨_, -, hthis⟩ := Store.getAt_eq_ok.mp hthis
      have hc : c.Fits P s.store := h.store.lookup hsuper
      split
      · next m hm =>
        exact fits_giveMethod (hc.method? hm) (h.store.lookup hthis) suits_this h
      · exact h.leaves

end Methods

/-! ## Calls -/

section Calls

variable {scopes : Scopes} {pending : Option String} {k : List Frame} {s : State}
  {args : List Value}

theorem fits_enter {f : Closure} {result : CallResult} (hf : f.Fits P s.store)
    (hargs : ∀ v ∈ args, v.Fits P s.store) (hlen : args.length = f.routine.params.length)
    (hr : result.Fits P s.store) (h : Awaits P scopes pending k s) :
    (enter f args result k s).Fits P := by
  obtain ⟨inner, hroutine, hscope, -⟩ := hf
  obtain ⟨hparams, hbody⟩ := hroutine.body
  have hle := s.store.le_addScope (some f.scope) (bindParams f.routine.params args)
  have hb : ∀ name ∈ (f.routine.params.map (·.text)).reverse, ∃ v,
      (bindParams f.routine.params args).get? name = some v ∧ v.Suits name := by
    intro name hn
    obtain ⟨p, hp, rfl⟩ := List.mem_map.mp (List.mem_reverse.mp hn)
    obtain ⟨v, hv⟩ := get?_bindParams hlen (List.mem_map_of_mem hp)
    exact ⟨v, hv, (hparams p hp).suits v⟩
  have hw : ∀ k : Keyword, ((bindParams f.routine.params args).get? k.spelling).isSome →
      k.spelling ∈ (f.routine.params.map (·.text)).reverse := by
    intro k hk
    obtain ⟨v, hv⟩ := Option.isSome_iff_exists.mp hk
    exact List.mem_reverse.mpr (mem_of_get?_bindParams hv).1
  have hrealized := hscope.addScope hb hw
  rw [← Scopes.withParams_eq] at hrealized
  refine fits_sequence hbody ⟨?_, ?_⟩ hrealized ?_
  · exact h.store.addScope _ fun name v hv => hargs v (mem_of_get?_bindParams hv).2
  · simp [h.depth]
  · exact .call (h.realized.mono hle) (hr.grow hle) (h.frames.grow hle)

theorem fits_resultOf {f : Closure} {st : Store} (hf : f.Fits P st) : (resultOf f).Fits P st := by
  obtain ⟨_, -, -, hthis⟩ := hf
  unfold resultOf
  split
  · next hi => exact hthis hi
  · trivial

theorem fits_construct {c : Class} (hc : c.Fits P s.store) (hargs : ∀ v ∈ args, v.Fits P s.store)
    (hlen : ∀ m, c.method? Routine.initName = some m → args.length = m.routine.params.length)
    (h : Awaits P scopes pending k s) : (construct c args k s).Fits P := by
  have hle : s.store.Le s.store.addObject := Store.le_of_scopes_eq rfl
  have hgrown := h.grow hle h.store.addObject
  have hobject : Value.Fits P s.store.addObject (.object s.store.nextObject c) :=
    Value.Fits.grow (v := .object s.store.nextObject c) hc hle
  unfold construct
  split
  · exact fits_give hobject hgrown
  · next m hm =>
    have hmethod : m.FitsAsMethod P s.store.addObject := Class.Fits.method? hobject hm
    obtain ⟨hf, hle', hst⟩ := fits_bindMethod (s := { s with store := s.store.addObject })
      hmethod hobject suits_this hgrown.store
    have hargs' : ∀ v ∈ args, v.Fits P (bindMethod m (.object s.store.nextObject c)
        { s with store := s.store.addObject }).2.store :=
      fun v hv => ((hargs v hv).grow hle).grow hle'
    exact fits_enter hf hargs' (hlen m hm) ⟨fits_resultOf hf, hobject.grow hle'⟩
      (hgrown.grow hle' hst)

theorem fits_callValue {callee : Value} {line : Nat} (hc : callee.Fits P s.store)
    (hargs : ∀ v ∈ args, v.Fits P s.store) (h : Awaits P scopes pending k s) :
    (callValue callee args line k s).Fits P := by
  unfold callValue
  split
  · exact h.leaves
  · next n hn =>
    split
    · exact h.leaves
    · next hlen =>
      split
      · exact h.leaves
      · have hlen : args.length = n := not_not.mp hlen
        split
        · exact fits_give trivial ⟨⟨h.store, h.depth⟩, h.realized, h.frames⟩
        · exact fits_enter hc hargs (hlen.trans (Option.some.inj hn).symm) (fits_resultOf hc) h
        · next c =>
          refine fits_construct hc hargs (fun m hm => ?_) h
          simp only [arity?, hm, Option.some.injEq] at hn
          exact hlen.trans hn.symm
        · exact h.leaves

theorem fits_callWith {callee : Value} {line : Nat} {done : List Value} {rest : List Expr}
    (hc : callee.Fits P s.store) (hd : ∀ v ∈ done, v.Fits P s.store)
    (he : UsesFit P scopes pending (Expr.argsUses rest)) (h : Awaits P scopes pending k s) :
    (callWith line callee done rest k s).Fits P := by
  cases rest with
  | nil => exact fits_callValue hc (by simpa using hd) h
  | cons e es =>
    obtain ⟨hfirst, hrest⟩ := usesFit_append.mp he
    exact ⟨scopes, pending, hfirst, h.push rfl (.argument hc hd hrest h.frames)⟩

/-- The end of a call, whose frame knows the scopes around it. -/
theorem fits_finishCall {outer : ScopeId} {result : CallResult} {v : Value}
    (h : Leaves P (.call outer result :: k) s) (hv : v.Fits P s.store) :
    (finishCall result v k (leaveCall outer s)).Fits P := by
  obtain ⟨inner, waiting, hframes⟩ := h.frames
  cases hframes with
  | call ho hr hk =>
    have hdepth : s.depth - 1 = openCalls k := by
      rw [h.depth, openCalls_call]
      rfl
    have hawaits : Awaits P _ _ k (leaveCall outer s) := ⟨⟨h.store, hdepth⟩, ho, hk⟩
    rw [finishCall]
    split
    · next w hw =>
      refine fits_give ?_ hawaits
      obtain rfl | ⟨scope, hat⟩ | ⟨dropped, rfl⟩ := CallResult.cases_of_value_eq_ok hw
      · exact hv
      · obtain ⟨_, -, hl⟩ := Store.getAt_eq_ok.mp hat
        exact h.store.lookup hl
      · exact hr.2
    · exact hawaits.leaves

end Calls

/-! ## Classes -/

section Classes

variable {scopes : Scopes} {pending : Option String} {k : List Frame} {s : State}
  {name : Name} {methods : List Routine}

theorem awaits_declareClass_none (hs : s.Fits P k) (hr : Realizes s.store pending scopes s.scope)
    (hk : FramesFit P s.store scopes none s.scope k) (hn : name.IsOrdinary)
    (hp : pending = none ∨ pending = some name.text)
    (hm : ∀ r ∈ methods, r.Fits P ([Keyword.this.spelling] :: scopes)) :
    Awaits P scopes none k (declareClass name none methods s) := by
  have hle : s.store.Le s.store.takeIdentity := Store.le_of_scopes_eq rfl
  have hr' := hr.mono hle
  refine awaits_define (s := { s with store := s.store.takeIdentity })
    ⟨hs.store.takeIdentity, hs.depth⟩ hr' (hk.grow hle) hn hp fun entry hentry => ?_
  obtain ⟨r, hmem, rfl⟩ := mem_methodTable hentry
  exact ⟨scopes, hm r hmem, hr'.define hp hn _⟩

theorem awaits_declareClass_some {c : Class} (hs : s.Fits P k)
    (hr : Realizes s.store pending scopes s.scope)
    (hk : FramesFit P s.store scopes none s.scope k) (hn : name.IsOrdinary)
    (hp : pending = none ∨ pending = some name.text) (hc : c.Fits P s.store)
    (hm : ∀ r ∈ methods, r.Fits P
      ([Keyword.this.spelling] :: [Keyword.super.spelling] :: scopes)) :
    Awaits P scopes none k (declareClass name (some c) methods s) := by
  let inner := s.store.addScope (some s.scope) [(Keyword.super.spelling, .class_ c)]
  have hle : s.store.Le inner := s.store.le_addScope _ _
  have htake : inner.Le inner.takeIdentity := Store.le_of_scopes_eq rfl
  have hst : inner.Fits P := hs.store.addScope _ fun word v hv => by
    obtain rfl : Value.class_ c = v := by simp_all [Bindings.get?]
    exact hc
  have hr' := hr.mono (hle.trans htake)
  -- The scope of `super` stands within the current one, in which the class is defined at last.
  have hsuper : inner.Has s.store.nextScope Keyword.super.spelling :=
    s.store.has_addScope _ (if_pos rfl) suits_super
  have houter : inner.enclosing? s.store.nextScope = some s.scope := by
    simp [inner, Store.enclosing?_addScope]
  refine awaits_define (s := { s with store := inner.takeIdentity })
    ⟨hst.takeIdentity, hs.depth⟩ hr' (hk.grow (hle.trans htake)) hn hp ?_
  have hdefine := inner.takeIdentity.le_define s.scope hn
    (.class_ (.mk inner.nextIdentity name.text (some c) (methodTable methods s.store.nextScope)))
  have hle' := htake.trans hdefine
  refine ⟨Class.Fits.mono (fun _ ho => ho) (hle.trans hle') hc, fun entry hentry => ?_⟩
  obtain ⟨r, hmem, rfl⟩ := mem_methodTable hentry
  refine ⟨_, hm r hmem, ?_, fun k hk => ?_, s.scope, hle'.enclosing houter, hr'.define hp hn _⟩
  · intro word hw
    obtain rfl : word = Keyword.super.spelling := by simpa using hw
    exact .inl (hle'.has hsuper)
  · rw [hle'.words houter k] at hk
    simpa [inner, Store.lookup?_addScope, Bindings.get?_singleton] using hk

end Classes

/-! ## Steps -/

section Steps

variable {k : List Frame} {s : State} {v : Value}

theorem fits_literal (l : Literal) (st : Store) : l.value.Fits P st := by
  cases l <;> trivial

theorem fits_evalStep {scopes : Scopes} {pending : Option String} {e : Expr}
    (he : UsesFit P scopes pending e.uses) (h : Awaits P scopes pending k s) :
    (evalStep e k s).Fits P := by
  cases e with
  | literal l => exact fits_give (fits_literal l _) h
  | group inner => exact ⟨scopes, pending, he, h⟩
  | unary op line operand => exact ⟨scopes, pending, he, h.push rfl (.unary h.frames)⟩
  | binary op line left right =>
    obtain ⟨hleft, hright⟩ := usesFit_append.mp he
    exact ⟨scopes, pending, hleft, h.push rfl (.binaryLeft hright h.frames)⟩
  | logical op line left right =>
    obtain ⟨hleft, hright⟩ := usesFit_append.mp he
    exact ⟨scopes, pending, hleft, h.push rfl (.logical hright h.frames)⟩
  | «variable» site name => exact fits_readName site name.text name.line h
  | assign site name value =>
    obtain ⟨huse, hvalue⟩ := usesFit_cons.mp he
    exact ⟨scopes, pending, hvalue, h.push rfl (.assign huse h.frames)⟩
  | call callee line args =>
    obtain ⟨hcallee, hargs⟩ := usesFit_append.mp he
    exact ⟨scopes, pending, hcallee, h.push rfl (.callee hargs h.frames)⟩
  | get object name => exact ⟨scopes, pending, he, h.push rfl (.get h.frames)⟩
  | set object name value =>
    obtain ⟨hobject, hvalue⟩ := usesFit_append.mp he
    exact ⟨scopes, pending, hobject, h.push rfl (.setObject hvalue h.frames)⟩
  | this site line => exact fits_readName site Keyword.this.spelling line h
  | super site line method => exact fits_getSuper site line method h

theorem fits_execStep {scopes : Scopes} {stmt : Stmt} (h : Executes P scopes stmt k s) :
    (execStep stmt k s).Fits P := by
  obtain ⟨hregular, hcode⟩ := h.code
  cases stmt with
  | expression e =>
    exact ⟨scopes, none, usesFit_of_within hcode, h.toFits, h.realized, h.frames⟩
  | print e =>
    exact ⟨scopes, none, usesFit_of_within hcode, h.toFits.push rfl, h.realized, .print h.frames⟩
  | var name init =>
    have hr := h.realized.declare name hregular
    have hp := pending_eq_none_or scopes name.text
    cases init with
    | none => exact fits_give trivial (awaits_define h.toFits hr h.frames hregular hp trivial)
    | some e =>
      exact ⟨_, _, usesFit_of_within hcode, h.toFits.push rfl, hr, .var hregular hp h.frames⟩
  | block body =>
    have hle := s.store.le_addScope (some s.scope) []
    have hr : Realizes (s.store.addScope (some s.scope) []) none ([] :: scopes) s.store.nextScope :=
      h.realized.addScope (by simp) (by simp [Bindings.get?])
    refine fits_sequence ⟨hregular, hcode⟩ ?_ hr
      (.block (h.realized.mono hle) (h.frames.grow hle))
    exact State.Fits.push ⟨h.store.addScope _ (by simp [Bindings.get?]), h.depth⟩ rfl
  | if_ condition then_ else_ =>
    cases else_ with
    | none =>
      simp only [Stmt.occurrences, List.mem_append, or_imp, forall_and] at hcode
      refine ⟨scopes, none, usesFit_of_within hcode.1, h.toFits.push rfl, h.realized, ?_⟩
      exact .if_ ⟨hregular.1, hregular.2, hcode.2⟩ (by simp) h.frames
    | some else_ =>
      obtain ⟨⟨hd, hr⟩, hd', hr'⟩ := hregular
      simp only [Stmt.occurrences, List.mem_append, or_imp, forall_and] at hcode
      obtain ⟨⟨hcondition, hthen⟩, helse⟩ := hcode
      refine ⟨scopes, none, usesFit_of_within hcondition, h.toFits.push rfl, h.realized, ?_⟩
      exact .if_ ⟨hd, hr, hthen⟩ (by simpa using ⟨hd', hr', helse⟩) h.frames
  | while_ condition body =>
    simp only [Stmt.occurrences, List.mem_append, or_imp, forall_and] at hcode
    have hcondition := usesFit_of_within hcode.1
    refine ⟨scopes, none, hcondition, h.toFits.push rfl, h.realized, ?_⟩
    exact .whileCondition hcondition ⟨hregular.1, hregular.2, hcode.2⟩ h.frames
  | function routine =>
    have hle : s.store.Le s.store.takeIdentity := Store.le_of_scopes_eq rfl
    have hr := (h.realized.declare routine.name hregular.1).mono hle
    have hp := pending_eq_none_or scopes routine.name.text
    refine fits_give trivial (awaits_define (s := { s with store := s.store.takeIdentity })
      ⟨h.store.takeIdentity, h.depth⟩ hr (h.frames.grow hle) hregular.1 hp ?_)
    exact ⟨_, ⟨hregular.2, hcode⟩, hr.define hp hregular.1 _, by simp⟩
  | return_ line value =>
    cases value with
    | none => exact ⟨trivial, h.toFits, _, _, h.frames⟩
    | some e =>
      exact ⟨scopes, none, usesFit_of_within hcode, h.toFits.push rfl, h.realized,
        .return_ h.frames⟩
  | class_ name parent methods =>
    obtain ⟨hn, hmethods⟩ := hregular
    have hr := h.realized.declare name hn
    have hp := pending_eq_none_or scopes name.text
    simp only [Stmt.occurrences, List.mem_append, or_imp, forall_and] at hcode
    obtain ⟨hparent, hcode⟩ := hcode
    have hm := fun r hr => Routine.fits_of_mem hmethods hcode (r := r) hr
    cases parent with
    | none => exact fits_give trivial (awaits_declareClass_none h.toFits hr h.frames hn hp hm)
    | some parent =>
      have huse : UsesFit P _ _ [parent.use] := usesFit_of_within hparent
      exact ⟨_, _, huse, h.toFits.push rfl, hr, .superclass hn hp hm h.frames⟩

theorem fits_unaryApply {op : UnaryOp} {w : Value} {st : Store} (h : op.apply v = .ok w) :
    w.Fits P st := by
  cases op with
  | negate =>
    cases v <;> cases h
    trivial
  | not =>
    cases h
    trivial

theorem fits_binaryApply {op : BinaryOp} {left right w : Value} {st : Store}
    (h : op.apply left right = .ok w) : w.Fits P st := by
  cases op <;> simp only [BinaryOp.apply, Value.add, Value.onNumbers] at h
  all_goals first
    | (cases h; trivial)
    | (split at h <;> cases h <;> trivial)

theorem executes_of_fitsInside {scopes : Scopes} {stmt : Stmt} (hs : stmt.FitsInside P scopes)
    (h : Awaits P scopes none k s) : Executes P scopes stmt k s :=
  ⟨h.toFits, hs.2, h.realized, by rw [Scopes.after_eq_self hs.1]; exact h.frames⟩

theorem fits_resume (hP : ∀ o, P o → o.use.IsOrdinary) {scopes : Scopes}
    {pending : Option String} {f : Frame} (hv : v.Fits P s.store)
    (h : Awaits P scopes pending (f :: k) s) : (resume v f k s).Fits P := by
  have hframes := h.frames
  cases hframes with
  | unary hk => exact fits_giveOrRaise (fun w hw => fits_unaryApply hw) (h.pop rfl hk)
  | binaryLeft he hk =>
    exact ⟨_, _, he, (h.pop rfl hk).push rfl (.binaryRight hv hk)⟩
  | binaryRight hleft hk => exact fits_giveOrRaise (fun w hw => fits_binaryApply hw) (h.pop rfl hk)
  | logical he hk =>
    rw [resume]
    split
    · exact fits_give hv (h.pop rfl hk)
    · exact ⟨_, _, he, h.pop rfl hk⟩
  | assign hu hk => exact fits_writeName (hP _ hu (.inr rfl)) hv (h.pop rfl hk)
  | callee he hk => exact fits_callWith hv (by simp) he (h.pop rfl hk)
  | argument hc hd he hk =>
    exact fits_callWith hc (by simpa using ⟨hv, hd⟩) he (h.pop rfl hk)
  | get hk => exact fits_getProperty _ hv (h.pop rfl hk)
  | setObject he hk =>
    cases v with
    | object id c => exact ⟨_, _, he, (h.pop rfl hk).push rfl (.setValue hk)⟩
    | _ => exact (h.pop rfl hk).leaves
  | setValue hk =>
    have hle : ∀ st : Store, s.store.scopes = st.scopes → s.store.Le st := fun st he =>
      Store.le_of_scopes_eq he.symm
    exact fits_give (hv.grow (hle _ rfl)) ((h.pop rfl hk).grow (hle _ rfl)
      (h.store.setField _ _ hv))
  | print hk =>
    have h := h.pop rfl hk
    rw [resume]
    split
    · exact fits_give trivial ⟨⟨h.store, h.depth⟩, h.realized, h.frames⟩
    · exact h.leaves
  | var hn hp hk =>
    have hle := s.store.le_define s.scope hn v
    exact fits_give trivial
      (awaits_define (h.toFits.pop rfl) h.realized hk hn hp (hv.grow hle))
  | if_ hthen helse hk =>
    replace h := h.pop rfl hk
    unfold resume
    dsimp only
    split
    · exact ⟨_, executes_of_fitsInside hthen h⟩
    · split
      · next stmt => exact ⟨_, executes_of_fitsInside (helse stmt rfl) h⟩
      · exact fits_give trivial h
  | whileCondition he hs hk =>
    have h := h.pop rfl hk
    rw [resume]
    split
    · exact ⟨_, executes_of_fitsInside hs (h.push rfl (.whileBody he hs hk))⟩
    · exact fits_give trivial h
  | whileBody he hs hk =>
    exact ⟨_, _, he, (h.pop rfl hk).push rfl (.whileCondition he hs hk)⟩
  | superclass hn hp hm hk =>
    cases v with
    | class_ c =>
      exact fits_give trivial
        (awaits_declareClass_some (h.toFits.pop rfl) h.realized hk hn hp hv hm)
    | _ => exact ⟨h.toFits.pop rfl, _, _, hk⟩
  | return_ hk => exact ⟨hv, (h.pop rfl hk).leaves⟩
  | sequence hs hk => exact fits_sequence hs (h.toFits.pop rfl) h.realized hk
  | block ho hk => exact fits_give trivial ⟨⟨h.store, (h.toFits.pop rfl).depth⟩, ho, hk⟩
  | call ho hr hk => exact fits_finishCall h.leaves trivial
  | @program rest _ _ hs hk =>
    cases rest with
    | nil => exact fits_give trivial (h.pop rfl hk)
    | cons stmt rest =>
      obtain ⟨hfirst, hrest⟩ := Stmt.eachFits_cons.mp hs
      rw [Scopes.after_nil] at hrest
      refine ⟨[], h.toFits.pop rfl |>.push rfl, hfirst, trivial, ?_⟩
      rw [Scopes.after_nil]
      exact .program hrest hk

/-- Whatever frame is left, the frames below it fit, and the frames of blocks and calls give back
the scope in which they do. -/
theorem leaves_failThrough {e : Failure} {f : Frame} (h : Leaves P (f :: k) s) :
    (failThrough e f k s).Fits P := by
  obtain ⟨scopes, pending, hframes⟩ := h.frames
  cases hframes with
  | block ho hk => exact ⟨⟨h.store, (h.toFits.pop rfl).depth⟩, _, _, hk⟩
  | call ho hr hk =>
    have hdepth : s.depth - 1 = openCalls k := by
      rw [h.depth, openCalls_call]
      rfl
    exact ⟨⟨h.store, hdepth⟩, _, _, hk⟩
  | _ => exact h.pop rfl (by assumption)

theorem fits_returnThrough {f : Frame} (hv : v.Fits P s.store) (h : Leaves P (f :: k) s) :
    (returnThrough v f k s).Fits P := by
  obtain ⟨scopes, pending, hframes⟩ := h.frames
  cases hframes with
  | block ho hk => exact ⟨hv, ⟨h.store, (h.toFits.pop rfl).depth⟩, _, _, hk⟩
  | call ho hr hk => exact fits_finishCall h hv
  | program hs hk =>
    have hr : Realizes s.store none [] s.scope := trivial
    exact fits_give trivial ⟨h.toFits, hr, .program hs hk⟩
  | _ => exact ⟨hv, h.pop rfl (by assumption)⟩

/-- A step keeps the invariant. -/
theorem Config.Fits.step (hP : ∀ o, P o → o.use.IsOrdinary) {c : Config} (h : c.Fits P) :
    (Machine.step c).Fits P := by
  obtain ⟨control, frames, state⟩ := c
  cases control with
  | eval e =>
    obtain ⟨scopes, pending, he, h⟩ := h
    exact fits_evalStep he h
  | exec stmt =>
    obtain ⟨scopes, h⟩ := h
    exact fits_execStep h
  | value v =>
    cases frames with
    | nil => exact h
    | cons f k =>
      obtain ⟨hv, scopes, pending, h⟩ := h
      exact fits_resume hP hv h
  | returning v =>
    cases frames with
    | nil => exact h
    | cons f k => exact fits_returnThrough h.1 h.2
  | failing f =>
    cases frames with
    | nil => exact h
    | cons f k => exact leaves_failThrough h

/-- A run keeps the invariant. -/
theorem Config.Fits.run (hP : ∀ o, P o → o.use.IsOrdinary) {c : Config} (h : c.Fits P) (n : Nat) :
    (Machine.run n c).Fits P := by
  induction n generalizing c with
  | zero => exact h
  | succ n ih =>
    rw [run_succ]
    exact ih (h.step hP)

end Steps

end Machine

end LoxLang
