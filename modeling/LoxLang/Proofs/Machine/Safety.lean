import LoxLang.Proofs.Machine.Preservation

/-!
# Look-ups that never fail

A machine would have to give up where it looks for a name at a known distance and there is no such
scope or no such name, where `this` or `super` stand for something else than an object or a class,
and where a call ends that was not counted. In a configuration that fits, with a table that ties the
names of its code, the next step is none of these.

## Main results

* `Config.Fits.not_panics`: a configuration that fits does not panic.
* `Config.NoFault.step`: a fault comes from a panic only.
-/

namespace LoxLang

open Scoping

/-- What is known about an occurrence in the code of a session: its site was handed out, and the
table either does not tie it or ties it to its declaration, as the rules allow. -/
structure Scoping.Occurrence.Grounded (t : BindingTable) (n : Nat) (o : Occurrence) : Prop where
  site : o.use.site < n
  ordinary : o.use.IsOrdinary
  tied : t.hops? o.use.site = none ∨ o.TiedBy t ∧ o.Legal

/-- Occurrences stay grounded when sites and ties of new ones are added. -/
theorem Scoping.Occurrence.Grounded.mono {t t' : BindingTable} {n n' : Nat}
    {o : Occurrence} (h : o.Grounded t n) (hn : n ≤ n')
    (ht : ∀ site < n, t'.hops? site = t.hops? site) : o.Grounded t' n' := by
  refine ⟨Nat.lt_of_lt_of_le h.site hn, h.ordinary, ?_⟩
  have hsite := ht _ h.site
  rcases h.tied with hnone | ⟨htied, hlegal⟩
  · exact .inl (hsite.trans hnone)
  · exact .inr ⟨hsite.trans htied, hlegal⟩

namespace Machine

/-- The next step reads a name that is to be found from a scope some scopes outwards. -/
inductive Config.Reads : Config → ScopeId → Nat → String → Prop where
  | «variable» (h : s.table.hops? site = some d) :
      Reads ⟨.eval (.variable site name), k, s⟩ s.scope d name.text
  | this (h : s.table.hops? site = some d) :
      Reads ⟨.eval (.this site line), k, s⟩ s.scope d Keyword.this.spelling
  | super (h : s.table.hops? site = some d) :
      Reads ⟨.eval (.super site line method), k, s⟩ s.scope d Keyword.super.spelling
  /-- With `super` goes the object of the scope before it. -/
  | receiver (h : s.table.hops? site = some (d + 1)) :
      Reads ⟨.eval (.super site line method), k, s⟩ s.scope d Keyword.this.spelling
  /-- An initializer gives its object, when its body ends and when it returns, also where a call of
  the class drops it. -/
  | ended (h : result.scope? = some scope) :
      Reads ⟨.value v, .call outer result :: k, s⟩ scope 0 Keyword.this.spelling
  | returned (h : result.scope? = some scope) :
      Reads ⟨.returning v, .call outer result :: k, s⟩ scope 0 Keyword.this.spelling

/-- A control that hands something to the frame on top. -/
def Control.Meets : Control → Prop
  | .value _ | .returning _ | .failing _ => True
  | _ => False

/-- The next step cannot be taken. -/
inductive Config.Panics : Config → Prop where
  | readBeyondChain {c : Config} (h : c.Reads scope d name)
      (hn : c.state.store.ancestor? scope d = none) : Panics c
  | writeBeyondChain (h : s.table.hops? site = some d)
      (hn : s.store.ancestor? s.scope d = none) : Panics ⟨.value v, .assign site name :: k, s⟩
  | missingName {c : Config} (h : c.Reads scope d name)
      (ho : c.state.store.ancestor? scope d = some owner)
      (hn : c.state.store.lookup? owner name = none) : Panics c
  /-- The scope of `this` would have to be nearer than that of `super`. -/
  | superTooNear (h : s.table.hops? site = some 0) :
      Panics ⟨.eval (.super site line method), k, s⟩
  | superNotClass {c : Config} (h : c.Reads scope d Keyword.super.spelling)
      (hv : c.state.store.getAt scope d Keyword.super.spelling = .ok v)
      (hn : ∀ parent, v ≠ .class_ parent) : Panics c
  | thisNotObject {c : Config} (h : c.Reads scope d Keyword.this.spelling)
      (hv : c.state.store.getAt scope d Keyword.this.spelling = .ok v)
      (hn : ∀ id own, v ≠ .object id own) : Panics c
  | uncountedCall {control : Control} (hm : control.Meets) (h : s.depth = 0) :
      Panics ⟨control, .call outer result :: k, s⟩

/-! ## No look-up fails -/

section

variable {t : BindingTable} {n : Nat}

/-- A tied use that is not an assignment finds a value that suits its name. -/
theorem Awaits.has_of_tied {scopes : Scopes} {pending : Option String} {k : List Frame} {s : State}
    {u : Use} {d : Nat} {P : Occurrence → Prop} (h : Awaits P scopes pending k s)
    (hu : Occurrence.Grounded s.table n ⟨u, scopes, pending⟩)
    (hkind : u.kind = .variable ∨ Keyword.ofSpelling? u.name.text ≠ none)
    (hd : s.table.hops? u.site = some d) :
    ∃ owner, s.store.ancestor? s.scope d = some owner ∧ s.store.Has owner u.name.text := by
  obtain ⟨htied, hlegal⟩ := hu.tied.resolve_left (by simp [hd])
  have hscopes : scopes.hops? u.name.text = some d := htied.symm.trans hd
  obtain ⟨owner, ho, hhas⟩ := h.realized.ancestor hscopes
  refine ⟨owner, ho, hhas.resolve_right fun ⟨hpending, hword⟩ => ?_⟩
  rcases hkind with hkind | hkind
  · exact hlegal.notPending hkind hpending
  · exact hkind hword

/-- What is read at a known distance is there and suits its name. -/
theorem Config.Fits.has_of_reads {c : Config} {scope : ScopeId} {d : Nat} {name : String}
    (h : c.Fits (Occurrence.Grounded c.state.table n)) (hr : c.Reads scope d name) :
    ∃ owner, c.state.store.ancestor? scope d = some owner ∧ c.state.store.Has owner name := by
  cases hr with
  | «variable» hd =>
    obtain ⟨scopes, pending, he, h⟩ := h
    exact h.has_of_tied (he _ List.mem_cons_self) (.inl rfl) hd
  | this hd =>
    obtain ⟨scopes, pending, he, h⟩ := h
    exact h.has_of_tied (he _ List.mem_cons_self) (.inr (by simp [Keyword.ofSpelling?_spelling])) hd
  | super hd =>
    obtain ⟨scopes, pending, he, h⟩ := h
    exact h.has_of_tied (he _ List.mem_cons_self) (.inr (by simp [Keyword.ofSpelling?_spelling])) hd
  | receiver hd =>
    obtain ⟨scopes, pending, he, h⟩ := h
    have hu := he _ List.mem_cons_self
    obtain ⟨htied, hlegal⟩ := hu.tied.resolve_left (by simp [hd])
    -- The scope of `this` is the one before that of `super`.
    obtain ⟨e, hthis, hsuper⟩ := hlegal.hasSuper rfl
    have hsame : some (e + 1) = some (d + 1) := hsuper.symm.trans (htied.symm.trans hd)
    obtain rfl : e = d := by simpa using hsame
    obtain ⟨owner, ho, hhas⟩ := h.realized.ancestor hthis
    exact ⟨owner, ho, hhas.resolve_right fun hp => absurd hp.2 (by decide)⟩
  | ended hscope =>
    obtain ⟨-, scopes, pending, h⟩ := h
    cases h.frames with
    | call ho hr hk => exact ⟨_, rfl, hr.has_of_scope? hscope⟩
  | returned hscope =>
    obtain ⟨-, h⟩ := h
    obtain ⟨scopes, pending, hframes⟩ := h.frames
    cases hframes with
    | call ho hr hk => exact ⟨_, rfl, hr.has_of_scope? hscope⟩

/-- A value that is read suits its name. -/
theorem Config.Fits.suits_of_getAt {c : Config} {scope : ScopeId} {d : Nat} {name : String}
    {v : Value} (h : c.Fits (Occurrence.Grounded c.state.table n)) (hr : c.Reads scope d name)
    (hv : c.state.store.getAt scope d name = .ok v) : v.Suits name := by
  obtain ⟨owner, ho, w, hw, hs⟩ := h.has_of_reads hr
  obtain ⟨owner', ho', hv⟩ := Store.getAt_eq_ok.mp hv
  obtain rfl : owner = owner' := Option.some.inj (ho.symm.trans ho')
  exact Option.some.inj (hw.symm.trans hv) ▸ hs

/-- The frame of a call is counted. -/
theorem Config.Fits.depth_pos {P : Occurrence → Prop} {control : Control} {outer : ScopeId}
    {result : CallResult} {k : List Frame} {s : State}
    (h : Config.Fits P ⟨control, .call outer result :: k, s⟩) (hm : control.Meets) :
    s.depth ≠ 0 := by
  have hfits : s.Fits P (.call outer result :: k) := by
    cases control with
    | value v =>
      obtain ⟨-, scopes, pending, h⟩ := h
      exact h.toFits
    | returning v => exact h.2.toFits
    | failing f => exact (h : Leaves P _ s).toFits
    | eval e => exact hm.elim
    | exec stmt => exact hm.elim
  rw [hfits.depth, openCalls_call]
  exact Nat.succ_ne_zero _

/-- A configuration that fits does not panic. -/
theorem Config.Fits.not_panics {c : Config} (h : c.Fits (Occurrence.Grounded c.state.table n)) :
    ¬ c.Panics := by
  intro hp
  cases hp with
  | readBeyondChain hr hn =>
    obtain ⟨owner, ho, -⟩ := h.has_of_reads hr
    simp [hn] at ho
  | writeBeyondChain hd hn =>
    obtain ⟨-, scopes, pending, h⟩ := h
    cases h.frames with
    | assign hu hk =>
      obtain ⟨htied, -⟩ := hu.tied.resolve_left (by simp [hd])
      obtain ⟨owner, ho, -⟩ := h.realized.ancestor (htied.symm.trans hd)
      simp [hn] at ho
  | missingName hr ho hn =>
    obtain ⟨owner', ho', v, hv, -⟩ := h.has_of_reads hr
    obtain rfl := Option.some.inj (ho.symm.trans ho')
    simp [hn] at hv
  | superTooNear hd =>
    obtain ⟨scopes, pending, he, h⟩ := h
    obtain ⟨htied, hlegal⟩ := (he _ List.mem_cons_self).tied.resolve_left (by simp [hd])
    obtain ⟨e, -, hsuper⟩ := hlegal.hasSuper rfl
    have hsame : some (e + 1) = some 0 := hsuper.symm.trans (htied.symm.trans hd)
    simp at hsame
  | superNotClass hr hv hn =>
    obtain ⟨parent, rfl⟩ := (h.suits_of_getAt hr hv).2 rfl
    exact hn parent rfl
  | thisNotObject hr hv hn =>
    obtain ⟨id, own, rfl⟩ := (h.suits_of_getAt hr hv).1 rfl
    exact hn id own rfl
  | uncountedCall hm hd => exact h.depth_pos hm hd

end

/-! ## Faults come from panics only -/

/-- The machine is not leaving its frames because of a fault. -/
def Config.NoFault (c : Config) : Prop := ∀ f, c.control ≠ .failing (.fault f)

theorem Config.NoFault.outcome?_ne {c : Config} (h : c.NoFault) (f : Fault) :
    c.outcome? ≠ some (.failed (.fault f)) := by
  obtain ⟨control, frames, s⟩ := c
  intro ho
  cases frames with
  | cons frame k => cases control <;> cases ho
  | nil =>
    cases control with
    | failing e =>
      cases ho
      exact h f rfl
    | _ => cases ho

section NoFault

variable {k : List Frame} {s : State}

theorem noFault_giveOrRaise (r : Except RuntimeError Value) (line : Nat) :
    (giveOrRaise r line k s).NoFault := by
  cases r <;> exact nofun

theorem noFault_sequence (body : List Stmt) : (sequence body k s).NoFault := by
  cases body <;> exact nofun

theorem noFault_getProperty (v : Value) (name : Name) : (getProperty v name k s).NoFault := by
  unfold getProperty
  repeat' split
  all_goals exact nofun

theorem noFault_callValue (callee : Value) (args : List Value) (line : Nat) :
    (callValue callee args line k s).NoFault := by
  unfold callValue
  split
  · exact nofun
  · split
    · exact nofun
    · split
      · exact nofun
      · split
        · exact nofun
        · exact noFault_sequence _
        · unfold construct
          split
          · exact nofun
          · exact noFault_sequence _
        · exact nofun

theorem noFault_callWith (line : Nat) (callee : Value) (done : List Value) (rest : List Expr) :
    (callWith line callee done rest k s).NoFault := by
  cases rest with
  | nil => exact noFault_callValue _ _ _
  | cons e es => exact nofun

end NoFault

theorem panics_of_getAt {c : Config} {scope : ScopeId} {d : Nat} {name : String} {f : Fault}
    (hr : c.Reads scope d name) (h : c.state.store.getAt scope d name = .error f) : c.Panics := by
  unfold Store.getAt at h
  split at h
  · next hn => exact .readBeyondChain hr hn
  · next owner ho =>
    split at h
    · cases h
    · next hn => exact .missingName hr ho hn

theorem noFault_readName {site : Site} {name : String} {line : Nat} {e : Expr} {k : List Frame}
    {s : State} (hr : ∀ d, s.table.hops? site = some d → Config.Reads ⟨.eval e, k, s⟩ s.scope d name)
    (hp : ¬ Config.Panics ⟨.eval e, k, s⟩) : (readName site name line k s).NoFault := by
  unfold readName
  split
  · next d hd =>
    split
    · exact nofun
    · next f hf => exact absurd (panics_of_getAt (hr d hd) hf) hp
  · exact noFault_giveOrRaise _ _

/-- Without a panic, both look-ups for `super` succeed. -/
theorem exists_superAndThis {site : Site} {line : Nat} {method : Name} {k : List Frame} {s : State}
    {hops : Nat} (hd : s.table.hops? site = some hops)
    (hp : ¬ Config.Panics ⟨.eval (.super site line method), k, s⟩) :
    ∃ c receiver, superAndThis hops s = .ok (c, receiver) := by
  cases hops with
  | zero => exact absurd (.superTooNear hd) hp
  | succ d =>
    have hsuper : Config.Reads ⟨.eval (.super site line method), k, s⟩ s.scope (d + 1)
        Keyword.super.spelling := .super hd
    have hthis : Config.Reads ⟨.eval (.super site line method), k, s⟩ s.scope d
        Keyword.this.spelling := .receiver hd
    cases hv : s.store.getAt s.scope (d + 1) Keyword.super.spelling with
    | error f => exact absurd (panics_of_getAt hsuper hv) hp
    | ok v => cases hw : s.store.getAt s.scope d Keyword.this.spelling with
      | error f => exact absurd (panics_of_getAt hthis hw) hp
      | ok w =>
        by_cases hc : ∃ parent, v = .class_ parent
        · by_cases ho : ∃ id own, w = .object id own
          · obtain ⟨parent, rfl⟩ := hc
            obtain ⟨id, own, rfl⟩ := ho
            exact ⟨parent, _, superAndThis_eq_ok.mpr ⟨d, id, own, rfl, hv, hw, rfl⟩⟩
          · exact absurd (.thisNotObject hthis hw (by simpa using ho)) hp
        · exact absurd (.superNotClass hsuper hv (by simpa using hc)) hp

theorem noFault_getSuper {site : Site} {line : Nat} {method : Name} {k : List Frame} {s : State}
    (hp : ¬ Config.Panics ⟨.eval (.super site line method), k, s⟩) :
    (getSuper site line method k s).NoFault := by
  unfold getSuper
  split
  · exact nofun
  · next hops hd =>
    obtain ⟨c, receiver, hfound⟩ := exists_superAndThis hd hp
    simp only [hfound]
    split <;> exact nofun

theorem noFault_finishCall {outer : ScopeId} {result : CallResult} {v : Value} {control : Control}
    {k : List Frame} {s : State}
    (hr : ∀ scope, result.scope? = some scope →
      Config.Reads ⟨control, .call outer result :: k, s⟩ scope 0 Keyword.this.spelling)
    (hp : ¬ Config.Panics ⟨control, .call outer result :: k, s⟩) :
    (finishCall result v k (leaveCall outer s)).NoFault := by
  unfold finishCall
  split
  · exact nofun
  · next f hf =>
    obtain ⟨scope, hscope, hat⟩ := CallResult.exists_scope?_of_value_eq_error hf
    exact absurd (panics_of_getAt (hr scope hscope) hat) hp

/-- A step that is no panic makes no fault. -/
theorem Config.NoFault.step {c : Config} (h : c.NoFault) (hp : ¬ c.Panics) :
    (Machine.step c).NoFault := by
  obtain ⟨control, frames, s⟩ := c
  cases control with
  | eval e =>
    cases e with
    | «variable» site name => exact noFault_readName (fun d hd => .variable hd) hp
    | this site line => exact noFault_readName (fun d hd => .this hd) hp
    | super site line method => exact noFault_getSuper hp
    | _ => rintro f ⟨⟩
  | exec stmt =>
    cases stmt with
    | var name init => cases init <;> rintro f ⟨⟩
    | block body => exact noFault_sequence _
    | return_ line value => cases value <;> rintro f ⟨⟩
    | class_ name parent methods => cases parent <;> rintro f ⟨⟩
    | _ => rintro f ⟨⟩
  | value v =>
    cases frames with
    | nil => exact h
    | cons f k =>
      cases f with
      | unary op line => exact noFault_giveOrRaise _ _
      | binaryRight op line left => exact noFault_giveOrRaise _ _
      | assign site name =>
        simp only [Machine.step, resume, writeName]
        split
        · next d hd =>
          split
          · rintro f ⟨⟩
          · next f hf =>
            unfold Store.assignAt at hf
            split at hf
            · next hn => exact absurd (.writeBeyondChain hd hn) hp
            · cases hf
        · split <;> rintro f ⟨⟩
      | callee line args => exact noFault_callWith _ _ _ _
      | argument line callee done rest => exact noFault_callWith _ _ _ _
      | get name => exact noFault_getProperty _ _
      | sequence rest => exact noFault_sequence _
      | call outer result =>
        exact noFault_finishCall (fun scope hs => .ended hs) hp
      | _ =>
        simp only [Machine.step, resume]
        repeat' split
        all_goals rintro f ⟨⟩
  | returning v =>
    cases frames with
    | nil => exact h
    | cons f k =>
      cases f with
      | call outer result => exact noFault_finishCall (fun scope hs => .returned hs) hp
      | _ => rintro f ⟨⟩
  | failing e =>
    have he : ∀ f, Control.failing e ≠ .failing (.fault f) := h
    cases frames with
    | nil => exact h
    | cons f k => cases f <;> exact he

end Machine

end LoxLang
