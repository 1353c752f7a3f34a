import LoxLang.Proofs.Lexical.Operations
import LoxLang.Proofs.Machine.Safety
import LoxLang.Proofs.Machine.Table

/-!
# The two machines run in step

From configurations that belong together, a step of each machine leads to configurations that do.
Where the machine with scopes goes to the scope at a known distance, the current environment has the
cell that stands for the name in that scope; where it goes to the global scope, the environment does
not have the name.

## Main results

* `Matched.step`: one step.
* `Matched.run`: any number of steps.
-/

namespace LoxLang.Lexical

open Scoping
open Machine (Frame Control CallResult globalScope)

/-- The configurations belong together in some world. -/
def Matched (P : Occurrence → Prop) (c : Machine.Config) (c' : Config) : Prop :=
  ∃ w : World, w.Configs P c c'

namespace World

variable {w w' : World} {P : Occurrence → Prop} {scopes : Scopes} {k k' : List Frame}
  {s s' : Machine.State} {l l' : Lexical.State} {v v' : Value}

/-- Both machines have frames that wait for a value. -/
structure Waits (w : World) (P : Occurrence → Prop) (scopes : Scopes) (k k' : List Frame)
    (s : Machine.State) (l : Lexical.State) : Prop where
  states : w.States P s l
  current : w.Current scopes s.scope l.env
  frames : w.Stacks P scopes s.scope k k'

theorem Current.env_eq_topLevel {scope : ScopeId} {e : EnvId} (h : w.Current scopes scope e)
    (hs : w.States P s l) (hg : scope = globalScope) : e = topLevel := by
  cases scopes with
  | nil => exact (h.top rfl).2
  | cons names scopes =>
    obtain ⟨ρ, -, outer, -, ho, -⟩ := h.maps
    exact absurd hg (hs.inner ho).1

namespace Waits

/-- The states may change and the world may grow while the frames wait, if the current scope and
those before it get no new names. -/
theorem grow (h : w.Waits P scopes k k' s l) (hle : w.Le w')
    (hcell : ∀ a < s.store.nextScope, w'.cell a = w.cell a) (hs : w'.States P s' l')
    (hscope : s'.scope = s.scope) (henv : l'.env = l.env) : w'.Waits P scopes k k' s' l' := by
  have hlt := h.current.lt_nextScope h.states
  refine ⟨hs, ?_, ?_⟩
  · rw [hscope, henv]
    exact h.current.mono hle fun name c hc => hcell _ hlt ▸ hc
  · rw [hscope]
    exact h.frames.mono hle fun a ha name c hc => hcell a (Nat.lt_trans ha hlt) ▸ hc

theorem update (h : w.Waits P scopes k k' s l) (hs : w.States P s' l')
    (hscope : s'.scope = s.scope) (henv : l'.env = l.env) : w.Waits P scopes k k' s' l' :=
  h.grow (.refl w) (fun _ _ => rfl) hs hscope henv

/-- A statement declares its name while the frames wait for what comes after it. -/
theorem declare {name : String} (hs : w.States P s l) (hc : w.Current scopes s.scope l.env)
    (hk : w.Stacks P (scopes.declare name) s.scope k k')
    (hn : ∀ names ∈ scopes.head?, name ∉ names) :
    ∃ w' : World, w'.Waits P (scopes.declare name) k k' s (l.declare name) := by
  obtain ⟨w', hle, hcell, hstates, hcurrent⟩ := hs.declare hc hn
  refine ⟨w', hstates, hcurrent, hk.mono hle fun a ha name c h => ?_⟩
  exact hcell a (Nat.ne_of_lt ha) ▸ h

theorem top (h : w.Waits P scopes k k' s l) : s.scope = globalScope → l.env = topLevel :=
  h.current.env_eq_topLevel h.states

end Waits

/-! ## Outcomes of a step -/

theorem matched_give (hv : w.Values P v v') (h : w.Waits P scopes k k' s l) :
    Matched P (Machine.give v k s) (give v' k' l) :=
  ⟨w, .value h.states hv h.current h.frames⟩

theorem matched_failing (f : Failure) (h : w.Waits P scopes k k' s l) :
    Matched P ⟨.failing f, k, s⟩ ⟨.failing f, k', l⟩ :=
  ⟨w, .failing h.states h.top h.frames⟩

theorem matched_raise (e : RuntimeError) (line : Nat) (h : w.Waits P scopes k k' s l) :
    Matched P (Machine.raise e line k s) (raise e line k' l) :=
  matched_failing _ h

theorem matched_giveOrRaise {r r' : Except RuntimeError Value} (hr : w.Results P r r') (line : Nat)
    (h : w.Waits P scopes k k' s l) :
    Matched P (Machine.giveOrRaise r line k s) (giveOrRaise r' line k' l) := by
  cases hr with
  | ok hv => exact matched_give hv h
  | error e => exact matched_raise e line h

theorem matched_sequence {body : List Stmt} (hb : Stmt.EachValid P scopes body)
    (hs : w.States P s l) (hc : w.Current scopes s.scope l.env)
    (hk : w.Stacks P (scopes.afterAll body) s.scope k k') :
    Matched P (Machine.sequence body k s) (sequence body k' l) := by
  cases body with
  | nil => exact matched_give .nil ⟨hs, hc, hk⟩
  | cons first rest =>
    obtain ⟨hfirst, hrest⟩ := Stmt.eachValid_cons hb
    exact ⟨w, .exec hs hfirst hc (.sequence hrest hk)⟩

/-! ## Names -/

/-- A name with a cell has the value of its cell. -/
theorem States.local?_eq (h : w.States P s l) {a : ScopeId} {e : EnvId} {ρ : Env} {name : String}
    {c : Cell} (hc : w.cell a name = some c) (hρ : w.env e = some ρ) (hget : ρ.get? name = some c)
    (hv : s.store.lookup? a name = some v) : ∃ v', l.local? e name = some v' ∧ w.Values P v v' := by
  obtain ⟨d, v', hd, hcell, hvalues⟩ := h.locals (h.scopes hc).1 hv
  obtain rfl := Option.some.inj (hc.symm.trans hd)
  refine ⟨v', ?_, hvalues⟩
  rw [State.local?, h.cell?_eq hρ, hget]
  exact hcell

namespace Waits

/-- What is read at the distance of a name is the value of its cell. -/
theorem local?_eq (h : w.Waits P scopes k k' s l) {name : String} {d : Nat}
    (hd : scopes.hops? name = some d) (hv : s.store.getAt s.scope d name = .ok v) :
    ∃ v', l.local? l.env name = some v' ∧ w.Values P v v' := by
  obtain ⟨ρ, hρ, hmaps⟩ := h.current.maps
  obtain ⟨owner, c, ho, hc, hget⟩ := hmaps.ancestor h.states.outer hd
  obtain ⟨owner', ho', hl⟩ := Store.getAt_eq_ok.mp hv
  obtain rfl := Option.some.inj (ho.symm.trans ho')
  exact h.states.local?_eq hc hρ hget hl

theorem cell?_eq_none (h : w.Waits P scopes k k' s l) {name : String}
    (hd : scopes.hops? name = none) : l.cell? l.env name = none := by
  obtain ⟨ρ, hρ, hmaps⟩ := h.current.maps
  rw [h.states.cell?_eq hρ]
  exact hmaps.get?_eq_none hd

end Waits

theorem matched_readName {site : Site} {name : String} (line : Nat)
    (h : w.Waits P scopes k k' s l) (hsite : s.table.hops? site = scopes.hops? name)
    (hread : ∀ d f, s.table.hops? site = some d → s.store.getAt s.scope d name ≠ .error f) :
    Matched P (Machine.readName site name line k s) (readName name line k' l) := by
  unfold Machine.readName readName
  cases hd : s.table.hops? site with
  | some d =>
    dsimp only
    cases hv : s.store.getAt s.scope d name with
    | error f => exact absurd hv (hread d f hd)
    | ok v =>
      obtain ⟨v', hl, hvalues⟩ := h.local?_eq (hsite.symm.trans hd) hv
      rw [hl]
      exact matched_give hvalues h
  | none =>
    have hl : l.local? l.env name = none := by
      rw [State.local?, h.cell?_eq_none (hsite.symm.trans hd)]
      rfl
    rw [hl, Store.get_global h.states.global.1 h.states.global.2]
    rcases rel_cases (h.states.globals name) with ⟨hu, hu'⟩ | ⟨u, u', hu, hu', hv⟩
    · rw [hu, hu']
      exact matched_raise _ line h
    · rw [hu, hu']
      exact matched_give hv h

theorem matched_writeName {site : Site} {name : Name} (h : w.Waits P scopes k k' s l)
    (hsite : s.table.hops? site = scopes.hops? name.text) (hv : w.Values P v v') :
    Matched P (Machine.writeName site name v k s) (writeName name v' k' l) := by
  unfold Machine.writeName writeName
  cases hd : s.table.hops? site with
  | some d =>
    obtain ⟨ρ, hρ, hmaps⟩ := h.current.maps
    obtain ⟨owner, c, ho, hc, hget⟩ := hmaps.ancestor h.states.outer (hsite.symm.trans hd)
    dsimp only
    rw [Store.assignAt_eq_ok.mpr ⟨owner, ho, rfl⟩, h.states.cell?_eq hρ, hget]
    exact matched_give hv (h.update (h.states.write hc hv) rfl rfl)
  | none =>
    rw [h.cell?_eq_none (hsite.symm.trans hd),
      Store.assign_global h.states.global.1 h.states.global.2]
    rcases rel_cases (h.states.globals name.text) with ⟨hu, hu'⟩ | ⟨u, u', hu, hu', -⟩
    · rw [hu, hu']
      exact matched_raise _ _ h
    · rw [hu, hu']
      exact matched_give hv (h.update (h.states.writeGlobal _ hv) rfl rfl)

/-! ## Methods and properties -/

/-- A method bound to an object. -/
theorem States.bindMethod {m m' : Closure} {receiver receiver' : Value} (h : w.States P s l)
    (hm : w.Methods P m m') (hr : w.Values P receiver receiver') :
    ∃ w', w.Le w' ∧ (∀ a < s.store.nextScope, w'.cell a = w.cell a) ∧
      w'.States P (Machine.bindMethod m receiver s).2 (bindMethod m' receiver' l).2 ∧
      w'.Closures P (Machine.bindMethod m receiver s).1 (bindMethod m' receiver' l).1 := by
  obtain ⟨scopes, hcode, hscoped⟩ := hm.code
  obtain ⟨w', hle, hcell, hstates, hinner⟩ := h.bind hscoped Keyword.this.spelling hr
  exact ⟨w', hle, hcell, hstates, hm.routine, hm.isInitializer, ⟨_, hcode, hinner⟩,
    fun _ => hinner.cell List.mem_cons_self⟩

theorem matched_giveMethod {m m' : Closure} {receiver receiver' : Value} (hm : w.Methods P m m')
    (hr : w.Values P receiver receiver') (h : w.Waits P scopes k k' s l) :
    Matched P (Machine.giveMethod m receiver k s) (giveMethod m' receiver' k' l) := by
  obtain ⟨w', hle, hcell, hstates, hclosures⟩ := h.states.bindMethod hm hr
  unfold Machine.giveMethod giveMethod
  dsimp only
  rw [hstates.identity]
  exact matched_give (.function _ hclosures)
    (h.grow hle hcell hstates.takeIdentity rfl rfl)

theorem matched_getProperty (name : Name) (hv : w.Values P v v')
    (h : w.Waits P scopes k k' s l) :
    Matched P (Machine.getProperty v name k s) (getProperty v' name k' l) := by
  cases hv with
  | @object c d id hc =>
    simp only [Machine.getProperty, getProperty]
    rcases rel_cases (h.states.fields id name.text) with ⟨hu, hu'⟩ | ⟨u, u', hu, hu', hv⟩
    · rw [hu, hu']
      rcases hc.method? name.text with ⟨hf, hg⟩ | ⟨f, g, hf, hg, hm⟩
      · rw [hf, hg]
        exact matched_raise _ _ h
      · rw [hf, hg]
        exact matched_giveMethod hm (.object id hc) h
    · rw [hu, hu']
      exact matched_give hv h
  | _ => exact matched_raise _ _ h

theorem matched_getSuper {site : Site} {line : Nat} {method : Name}
    (h : w.Waits P scopes k k' s l)
    (hsite : s.table.hops? site = scopes.hops? Keyword.super.spelling)
    (hsuper : ∃ d, scopes.hops? Keyword.this.spelling = some d ∧
      scopes.hops? Keyword.super.spelling = some (d + 1))
    (hp : ¬ Machine.Config.Panics ⟨.eval (.super site line method), k, s⟩) :
    Matched P (Machine.getSuper site line method k s) (getSuper line method k' l) := by
  obtain ⟨d, hthis, hclass⟩ := hsuper
  have hd := hsite.trans hclass
  obtain ⟨c, receiver, hfound⟩ := Machine.exists_superAndThis hd hp
  unfold Machine.getSuper getSuper
  simp only [hd, hfound]
  obtain ⟨_, id, own, he, hc, ho, rfl⟩ := Machine.superAndThis_eq_ok.mp hfound
  obtain rfl := Nat.succ.inj he
  obtain ⟨u, hu, hvalues⟩ := h.local?_eq hclass hc
  obtain ⟨r, hr, hreceiver⟩ := h.local?_eq hthis ho
  cases hvalues with
  | class_ hclasses =>
    simp only [hu, hr]
    rcases hclasses.method? method.text with ⟨hf, hg⟩ | ⟨f, g, hf, hg, hm⟩
    · rw [hf, hg]
      exact matched_raise _ _ h
    · rw [hf, hg]
      exact matched_giveMethod hm hreceiver h

/-! ## Calls -/

theorem matched_enter {f g : Closure} {args args' : List Value} {result result' : CallResult}
    (hf : w.Closures P f g) (hargs : List.Forall₂ (w.Values P) args args')
    (hlen : args.length = f.routine.params.length) (hr : w.CallResults P result result')
    (h : w.Waits P scopes k k' s l) :
    Matched P (Machine.enter f args result k s) (enterRoutine g args' result' k' l) := by
  obtain ⟨inner, hcode, hscoped⟩ := hf.code
  obtain ⟨hnodup, hbody⟩ := hcode.body
  obtain ⟨w₁, hle₁, hcell₁, hstates₁, hcurrent₁⟩ := h.states.enter hscoped
  have hargs₁ : List.Forall₂ (w₁.Values P) args args' := hargs.imp fun _ _ hv => hv.grow hle₁
  obtain ⟨w₂, hle₂, hcell₂, hstates₂, hcurrent₂⟩ := hstates₁.params rfl rfl hcurrent₁ hargs₁ hlen
    (by simpa using hnodup)
  -- The scope of the call is a new one, so the scopes of the frames below keep their names.
  have hle := hle₁.trans hle₂
  have hlt := h.current.lt_nextScope h.states
  have hcell : ∀ a < s.store.nextScope, w₂.cell a = w.cell a := fun a ha =>
    (hcell₂ a (Nat.ne_of_lt ha)).trans (congrFun hcell₁ a)
  have hcurrent : w₂.Current scopes s.scope l.env :=
    h.current.mono hle fun name c hc => hcell _ hlt ▸ hc
  have hstacks : w₂.Stacks P scopes s.scope k k' :=
    h.frames.mono hle fun a ha name c hc => hcell a (Nat.lt_trans ha hlt) ▸ hc
  unfold Machine.enter enterRoutine
  rw [hf.routine, h.states.depth]
  rw [Scopes.withParams_eq] at hbody
  rw [List.append_nil] at hcurrent₂
  exact matched_sequence hbody (hstates₂.withDepth _) hcurrent₂
    (.call hcurrent hlt (hr.mono hle) hstacks)

/-- The object of an initializer is the value of a cell. -/
theorem Closures.callResults {f g : Closure} (hf : w.Closures P f g) :
    w.CallResults P (Machine.resultOf f) (Machine.resultOf g) := by
  unfold Machine.resultOf
  rw [hf.isInitializer]
  split
  · next hi =>
    obtain ⟨c, ρ, hcell, hρ, hthis⟩ := hf.this hi
    exact .receiver hcell hρ hthis
  · exact .returned

theorem matched_construct {c d : Class} {args args' : List Value} (hc : w.Classes P c d)
    (hargs : List.Forall₂ (w.Values P) args args')
    (hlen : ∀ m, c.method? Routine.initName = some m → args.length = m.routine.params.length)
    (h : w.Waits P scopes k k' s l) :
    Matched P (Machine.construct c args k s) (construct d args' k' l) := by
  have hobject : w.Values P (.object s.store.nextObject c) (.object l.objects.size d) := by
    rw [h.states.objects]
    exact .object _ hc
  have hmade := h.update h.states.addObject rfl rfl
  unfold Machine.construct construct
  rcases hc.method? Routine.initName with ⟨hf, hg⟩ | ⟨f, g, hf, hg, hm⟩
  · rw [hf, hg]
    exact matched_give hobject hmade
  · rw [hf, hg]
    obtain ⟨w', hle, hcell, hstates, hclosures⟩ := hmade.states.bindMethod hm hobject
    exact matched_enter hclosures (hargs.imp fun _ _ hv => hv.grow hle) (hlen f hf)
      (.given hclosures.callResults (hobject.grow hle)) (hmade.grow hle hcell hstates rfl rfl)

theorem matched_readClock (h : w.Waits P scopes k k' s l) :
    Matched P (Machine.readClock k s) (readClock k' l) := by
  unfold Machine.readClock readClock
  rw [show l.clock.now = s.clock.now from congrArg Clock.now h.states.clock]
  exact matched_give (.number _) (h.update h.states.readClock rfl rfl)

theorem matched_callValue {callee callee' : Value} {args args' : List Value} (line : Nat)
    (hc : w.Values P callee callee') (hargs : List.Forall₂ (w.Values P) args args')
    (h : w.Waits P scopes k k' s l) :
    Matched P (Machine.callValue callee args line k s) (callValue callee' args' line k' l) := by
  unfold Machine.callValue callValue
  rw [← hc.arity?_eq, ← hargs.length_eq, h.states.depth]
  cases hn : Machine.arity? callee with
  | none => exact matched_raise _ line h
  | some n =>
    dsimp only
    by_cases hlen : args.length = n
    · rw [if_neg (not_not.mpr hlen), if_neg (not_not.mpr hlen)]
      by_cases hdepth : Machine.maxDepth ≤ s.depth
      · rw [if_pos hdepth, if_pos hdepth]
        exact matched_raise _ line h
      · rw [if_neg hdepth, if_neg hdepth]
        cases hc with
        | native f =>
          cases f
          exact matched_readClock h
        | function i hf =>
          exact matched_enter hf hargs (hlen.trans (Option.some.inj hn).symm) hf.callResults h
        | class_ hclass =>
          refine matched_construct hclass hargs (fun m hm => ?_) h
          simp only [Machine.arity?, hm, Option.some.injEq] at hn
          exact hlen.trans hn.symm
        | _ => exact matched_raise _ line h
    · rw [if_pos hlen, if_pos hlen]
      exact matched_raise _ line h

theorem matched_callWith {callee callee' : Value} {done done' : List Value} {rest : List Expr}
    (line : Nat) (hc : w.Values P callee callee') (hd : List.Forall₂ (w.Values P) done done')
    (he : UsesFit P scopes none (Expr.argsUses rest)) (h : w.Waits P scopes k k' s l) :
    Matched P (Machine.callWith line callee done rest k s)
      (callWith line callee' done' rest k' l) := by
  cases rest with
  | nil => exact matched_callValue line hc (List.rel_reverse hd) h
  | cons e es =>
    obtain ⟨hfirst, hrest⟩ := usesFit_append.mp he
    exact ⟨w, .eval h.states hfirst h.current (.argument hc hd hrest h.frames)⟩

theorem States.leaveCall (h : w.States P s l) (a : ScopeId) (e : EnvId) :
    w.States P (Machine.leaveCall a s) (leaveCall e l) := by
  unfold Machine.leaveCall Lexical.leaveCall
  rw [h.depth]
  exact (h.move a e).withDepth _

/-- The end of a call, whose frame has the scope around it. -/
theorem matched_finishCall {outside : Scopes} {a : ScopeId} {e : EnvId}
    {result result' : CallResult} (hs : w.States P s l) (hv : w.Values P v v')
    (hc : w.Current outside a e) (hr : w.CallResults P result result')
    (hk : w.Stacks P outside a k k')
    (hread : ∀ f, result.value s.store v ≠ .error f) :
    Matched P (Machine.finishCall result v k (Machine.leaveCall a s))
      (finishCall result' v' k' (leaveCall e l)) := by
  have hleft := hs.leaveCall a e
  have h : w.Waits P outside k k' (Machine.leaveCall a s) (leaveCall e l) := ⟨hleft, hc, hk⟩
  obtain ⟨u, hu⟩ : ∃ u, result.value (Machine.leaveCall a s).store v = .ok u := by
    cases hu : result.value s.store v with
    | error f => exact absurd hu (hread f)
    | ok u => exact ⟨u, hu⟩
  rw [Machine.finishCall, hu]
  cases hr with
  | returned =>
    cases hu
    exact matched_give hv h
  | given hd hw =>
    obtain rfl := CallResult.eq_of_value_given hu
    exact matched_give hw h
  | @receiver scope c env ρ hcell hρ hthis =>
    obtain ⟨owner, ho, hl⟩ := Store.getAt_eq_ok.mp hu
    obtain rfl := Option.some.inj ho
    obtain ⟨u', hu', hvalues⟩ := hleft.local?_eq hcell hρ hthis hl
    rw [finishCall, hu']
    exact matched_give hvalues h

/-! ## Classes -/

theorem MethodTables.put {b b' : Bindings Closure} (h : w.MethodTables P b b') (name : String)
    {f g : Closure} (hm : w.Methods P f g) : w.MethodTables P (b.put name f) (b'.put name g) := by
  induction h with
  | nil => exact .cons ⟨rfl, hm⟩ .nil
  | @cons entry entry' b b' he hrest ih =>
    simp only [Bindings.put, ← he.1]
    split
    · exact .cons ⟨rfl, hm⟩ hrest
    · exact .cons ⟨rfl, he.2⟩ ih

/-- The methods of a class, declared in a scope and an environment that belong together. -/
theorem methodTables_methodTable {methods : List Routine} {a : ScopeId} {e : EnvId}
    (hm : ∀ r ∈ methods, r.Valid P ([Keyword.this.spelling] :: scopes))
    (hs : w.Scoped scopes a e) :
    w.MethodTables P (Machine.methodTable methods a) (Machine.methodTable methods e) := by
  have h : ∀ b b', w.MethodTables P b b' →
      w.MethodTables P
        (methods.foldl (fun b r => b.put r.name.text ⟨r, a, r.isInit⟩) b)
        (methods.foldl (fun b r => b.put r.name.text ⟨r, e, r.isInit⟩) b') := by
    induction methods with
    | nil => exact fun b b' hb => hb
    | cons r rs ih =>
      obtain ⟨hr, hrs⟩ := List.forall_mem_cons.mp hm
      exact fun b b' hb => ih hrs _ _ (hb.put _ ⟨rfl, rfl, scopes, hr, hs⟩)
  exact h [] [] .nil

theorem matched_defineClass_none {name : Name} {methods : List Routine}
    (hn : ∀ names ∈ scopes.head?, name.text ∈ names)
    (hm : ∀ r ∈ methods, r.Valid P ([Keyword.this.spelling] :: scopes))
    (h : w.Waits P scopes k k' s l) :
    Matched P (Machine.give .nil k (Machine.declareClass name none methods s))
      (give .nil k' (defineClass name none methods l)) := by
  have hmethods := methodTables_methodTable hm h.current.maps
  have hclass : w.Values P
      (.class_ (.mk s.store.nextIdentity name.text none (Machine.methodTable methods s.scope)))
      (.class_ (.mk l.nextIdentity name.text none (Machine.methodTable methods l.env))) := by
    rw [h.states.identity]
    exact .class_ (.root hmethods)
  have hstates := h.states.takeIdentity.define h.current hn hclass
  exact matched_give .nil (h.update hstates rfl (State.env_define _ _ _))

theorem matched_defineClass_some {name : Name} {methods : List Routine} {c d : Class}
    (hn : ∀ names ∈ scopes.head?, name.text ∈ names)
    (hm : ∀ r ∈ methods, r.Valid P ([Keyword.this.spelling] :: [Keyword.super.spelling] :: scopes))
    (hc : w.Classes P c d) (h : w.Waits P scopes k k' s l) :
    Matched P (Machine.give .nil k (Machine.declareClass name (some c) methods s))
      (give .nil k' (defineClass name (some d) methods l)) := by
  obtain ⟨w', hle, hcell, hstates, hinner⟩ :=
    h.states.bind h.current.maps Keyword.super.spelling (.class_ hc)
  have hwaits := h.grow hle hcell hstates rfl rfl
  have hmethods := methodTables_methodTable hm hinner
  have hclass : w'.Values P
      (.class_ (.mk s.store.nextIdentity name.text (some c)
        (Machine.methodTable methods s.store.nextScope)))
      (.class_ (.mk l.nextIdentity name.text (some d)
        (Machine.methodTable methods l.nextEnv))) := by
    rw [h.states.identity]
    exact .class_ (.derived (hc.mono (fun _ ho => ho) hle) hmethods)
  have hdefined := hstates.takeIdentity.define hwaits.current hn hclass
  exact matched_give .nil (hwaits.update hdefined rfl (State.env_define _ _ _))

/-! ## Steps -/

section Steps

variable {t : BindingTable} {n : Nat}

theorem matched_evalStep {e : Expr} (ht : s.table = t)
    (he : UsesFit (Occurrence.Linked t n) scopes none e.uses)
    (h : w.Waits (Occurrence.Linked t n) scopes k k' s l)
    (hp : ¬ Machine.Config.Panics ⟨.eval e, k, s⟩) :
    Matched (Occurrence.Linked t n) (Machine.evalStep e k s) (evalStep e k' l) := by
  cases e with
  | literal x => exact matched_give (.literal x) h
  | group inner => exact ⟨w, .eval h.states he h.current h.frames⟩
  | unary op line operand => exact ⟨w, .eval h.states he h.current (.unary h.frames)⟩
  | binary op line left right =>
    obtain ⟨hleft, hright⟩ := usesFit_append.mp he
    exact ⟨w, .eval h.states hleft h.current (.binaryLeft hright h.frames)⟩
  | logical op line left right =>
    obtain ⟨hleft, hright⟩ := usesFit_append.mp he
    exact ⟨w, .eval h.states hleft h.current (.logical hright h.frames)⟩
  | «variable» site name =>
    obtain ⟨-, hsite, -⟩ := he _ List.mem_cons_self
    exact matched_readName _ h (ht ▸ hsite) fun d f hd hf =>
      hp (Machine.panics_of_getAt (.variable hd) hf)
  | assign site name value =>
    obtain ⟨huse, hvalue⟩ := usesFit_cons.mp he
    exact ⟨w, .eval h.states hvalue h.current (.assign huse h.frames)⟩
  | call callee line args =>
    obtain ⟨hcallee, hargs⟩ := usesFit_append.mp he
    exact ⟨w, .eval h.states hcallee h.current (.callee hargs h.frames)⟩
  | get object name => exact ⟨w, .eval h.states he h.current (.get h.frames)⟩
  | set object name value =>
    obtain ⟨hobject, hvalue⟩ := usesFit_append.mp he
    exact ⟨w, .eval h.states hobject h.current (.setObject hvalue h.frames)⟩
  | this site line =>
    obtain ⟨-, hsite, -⟩ := he _ List.mem_cons_self
    exact matched_readName line h (ht ▸ hsite) fun d f hd hf =>
      hp (Machine.panics_of_getAt (.this hd) hf)
  | super site line method =>
    obtain ⟨-, hsite, hsuper⟩ := he _ List.mem_cons_self
    exact matched_getSuper h (ht ▸ hsite) (hsuper rfl) hp

theorem matched_execStep {stmt : Stmt} (hv : stmt.Valid (Occurrence.Linked t n) scopes)
    (hs : w.States (Occurrence.Linked t n) s l) (hc : w.Current scopes s.scope l.env)
    (hk : w.Stacks (Occurrence.Linked t n) (scopes.after stmt) s.scope k k') :
    Matched (Occurrence.Linked t n) (Machine.execStep stmt k s) (execStep stmt k' l) := by
  obtain ⟨⟨hregular, hcode⟩, ctx, ha⟩ := hv
  cases stmt with
  | expression e => exact ⟨w, .eval hs (usesFit_of_within hcode) hc hk⟩
  | print e => exact ⟨w, .eval hs (usesFit_of_within hcode) hc (.print hk)⟩
  | var name init =>
    simp only [walkStmt, faults_append, List.append_eq_nil_iff] at ha
    obtain ⟨w', h⟩ := Waits.declare hs hc hk (not_mem_of_redeclared ha.1)
    have hn := mem_head_declare scopes name.text
    cases init with
    | none =>
      exact matched_give .nil
        (h.update (h.states.define h.current hn .nil) rfl (State.env_define _ _ _))
    | some e =>
      have he : UsesFit (Occurrence.Linked t n) (scopes.declare name.text)
          (scopes.pending name.text) e.uses := usesFit_of_within hcode
      exact ⟨w', .eval h.states he.linked h.current (.var hn h.frames)⟩
  | block body =>
    obtain ⟨w', hle, hcell, hstates, hcurrent⟩ := hs.enter hc.maps
    have hlt := hc.lt_nextScope hs
    have houter : w'.Current scopes s.scope l.env := hc.mono hle fun name c h => hcell ▸ h
    have hstacks : w'.Stacks (Occurrence.Linked t n) scopes s.scope k k' :=
      hk.mono hle fun a _ name c h => hcell ▸ h
    exact matched_sequence ⟨⟨hregular, hcode⟩, ctx, ha⟩ hstates hcurrent
      (.block houter hlt hstacks)
  | if_ condition then_ else_ =>
    cases else_ with
    | none =>
      simp only [Stmt.occurrences, List.mem_append, or_imp, forall_and] at hcode
      simp only [walkStmt, faults_append, List.append_eq_nil_iff] at ha
      exact ⟨w, .eval hs (usesFit_of_within hcode.1) hc
        (.if_ hregular.1 ⟨⟨hregular.2, hcode.2⟩, ctx, ha.2⟩ (by simp) hk)⟩
    | some else_ =>
      obtain ⟨⟨hd, hr⟩, hd', hr'⟩ := hregular
      simp only [Stmt.occurrences, List.mem_append, or_imp, forall_and] at hcode
      obtain ⟨⟨hcondition, hthen⟩, helse⟩ := hcode
      simp only [walkStmt, walkStmt_fst ctx scopes hr, Scopes.after_eq_self hd, faults_append,
        List.append_eq_nil_iff] at ha
      refine ⟨w, .eval hs (usesFit_of_within hcondition) hc
        (.if_ hd ⟨⟨hr, hthen⟩, ctx, ha.1.2⟩ ?_ hk)⟩
      simpa using ⟨hd', ⟨⟨hr', helse⟩, ctx, ha.2⟩⟩
  | while_ condition body =>
    simp only [Stmt.occurrences, List.mem_append, or_imp, forall_and] at hcode
    simp only [walkStmt, faults_append, List.append_eq_nil_iff] at ha
    have hcondition := usesFit_of_within hcode.1
    exact ⟨w, .eval hs hcondition hc
      (.whileCondition hcondition hregular.1 ⟨⟨hregular.2, hcode.2⟩, ctx, ha.2⟩ hk)⟩
  | function routine =>
    simp only [walkStmt, faults_append, List.append_eq_nil_iff] at ha
    obtain ⟨w', h⟩ := Waits.declare hs hc hk (not_mem_of_redeclared ha.1)
    have hclosure : w'.Closures (Occurrence.Linked t n) ⟨routine, s.scope, false⟩
        ⟨routine, (l.declare routine.name.text).env, false⟩ :=
      ⟨rfl, rfl, ⟨_, ⟨⟨hregular.2, hcode⟩, _, ha.2⟩, h.current.maps⟩, by simp⟩
    have hstates := h.states.takeIdentity.define h.current
      (mem_head_declare scopes routine.name.text) (.function s.store.nextIdentity hclosure)
    unfold Machine.execStep execStep
    dsimp only
    rw [h.states.identity]
    exact matched_give .nil (h.update hstates rfl (State.env_define _ _ _))
  | return_ line value =>
    cases value with
    | none => exact ⟨w, .returning hs .nil (hc.env_eq_topLevel hs) hk⟩
    | some e => exact ⟨w, .eval hs (usesFit_of_within hcode) hc (.return_ hk)⟩
  | class_ name parent methods =>
    obtain ⟨hordinary, hmethods⟩ := hregular
    simp only [Stmt.occurrences, List.mem_append, or_imp, forall_and] at hcode
    simp only [walkStmt, faults_append, List.append_eq_nil_iff] at ha
    obtain ⟨w', h⟩ := Waits.declare hs hc hk (not_mem_of_redeclared ha.1.1)
    have hn := mem_head_declare scopes name.text
    have hm := fun r hr => Routine.valid_of_mem hmethods hcode.2 ha.2 (r := r) hr
    cases parent with
    | none => exact matched_defineClass_none hn hm h
    | some parent =>
      have huse : UsesFit (Occurrence.Linked t n) (scopes.declare name.text)
          (scopes.pending name.text) [parent.use] := usesFit_of_within hcode.1
      exact ⟨w', .eval h.states huse.linked h.current (.superclass hn hm h.frames)⟩

theorem matched_exec_inside {stmt : Stmt} (hd : stmt.declared? = none) (hv : stmt.Valid P scopes)
    (h : w.Waits P scopes k k' s l) : Matched P ⟨.exec stmt, k, s⟩ ⟨.exec stmt, k', l⟩ := by
  refine ⟨w, .exec h.states hv h.current ?_⟩
  rw [Scopes.after_eq_self hd]
  exact h.frames

theorem matched_resume {f f' : Frame} (ht : s.table = t)
    (hv : w.Values (Occurrence.Linked t n) v v') (hs : w.States (Occurrence.Linked t n) s l)
    (hc : w.Current scopes s.scope l.env)
    (hk : w.Stacks (Occurrence.Linked t n) scopes s.scope (f :: k) (f' :: k'))
    (hp : ¬ Machine.Config.Panics ⟨.value v, f :: k, s⟩) :
    Matched (Occurrence.Linked t n) (Machine.resume v f k s) (resume v' f' k' l) := by
  cases hk with
  | unary hk => exact matched_giveOrRaise (results_unary hv _) _ ⟨hs, hc, hk⟩
  | binaryLeft he hk => exact ⟨w, .eval hs he hc (.binaryRight hv hk)⟩
  | binaryRight hleft hk => exact matched_giveOrRaise (results_binary hleft hv _) _ ⟨hs, hc, hk⟩
  | @logical _ _ _ _ _ op he hk =>
    have hdecides : op.decides v = op.decides v' := by
      cases op <;> simp [LogicalOp.decides, hv.isTruthy_eq]
    simp only [Machine.resume, resume, ← hdecides]
    split
    · exact matched_give hv ⟨hs, hc, hk⟩
    · exact ⟨w, .eval hs he hc hk⟩
  | assign hu hk =>
    obtain ⟨-, hsite, -⟩ := hu
    exact matched_writeName ⟨hs, hc, hk⟩ (ht ▸ hsite) hv
  | callee he hk => exact matched_callWith _ hv .nil he ⟨hs, hc, hk⟩
  | argument hcallee hd he hk => exact matched_callWith _ hcallee (.cons hv hd) he ⟨hs, hc, hk⟩
  | get hk => exact matched_getProperty _ hv ⟨hs, hc, hk⟩
  | setObject he hk =>
    cases hv with
    | object id hclass => exact ⟨w, .eval hs he hc (.setValue hk)⟩
    | _ => exact matched_raise _ _ ⟨hs, hc, hk⟩
  | setValue hk => exact matched_give hv ⟨hs.setField _ _ hv, hc, hk⟩
  | print hk =>
    simp only [Machine.resume, resume, hs.output, ← hv.text_eq]
    cases s.output.print? v.text with
    | some output => exact matched_give .nil ⟨hs.withOutput output, hc, hk⟩
    | none => exact matched_failing _ ⟨hs, hc, hk⟩
  | var hn hk =>
    have h : w.Waits (Occurrence.Linked t n) scopes k k' s l := ⟨hs, hc, hk⟩
    exact matched_give .nil (h.update (hs.define hc hn hv) rfl (State.env_define _ _ _))
  | if_ hd hthen helse hk =>
    unfold Machine.resume resume
    simp only [← hv.isTruthy_eq]
    split
    · exact matched_exec_inside hd hthen ⟨hs, hc, hk⟩
    · split
      · next stmt =>
        obtain ⟨hd', helse⟩ := helse stmt rfl
        exact matched_exec_inside hd' helse ⟨hs, hc, hk⟩
      · exact matched_give .nil ⟨hs, hc, hk⟩
  | whileCondition he hd hbody hk =>
    simp only [Machine.resume, resume, ← hv.isTruthy_eq]
    split
    · exact matched_exec_inside hd hbody ⟨hs, hc, .whileBody he hd hbody hk⟩
    · exact matched_give .nil ⟨hs, hc, hk⟩
  | whileBody he hd hbody hk => exact ⟨w, .eval hs he hc (.whileCondition he hd hbody hk)⟩
  | superclass hn hm hk =>
    cases hv with
    | class_ hclass => exact matched_defineClass_some hn hm hclass ⟨hs, hc, hk⟩
    | _ => exact matched_raise _ _ ⟨hs, hc, hk⟩
  | return_ hk => exact ⟨w, .returning hs hv (hc.env_eq_topLevel hs) hk⟩
  | sequence hrest hk => exact matched_sequence hrest hs hc hk
  | block houter hlt hk => exact matched_give .nil ⟨hs.move _ _, houter, hk⟩
  | call houter hlt hr hk =>
    refine matched_finishCall hs .nil houter hr hk fun f hf => ?_
    obtain ⟨scope, hscope, hat⟩ := CallResult.exists_scope?_of_value_eq_error hf
    exact hp (Machine.panics_of_getAt (.ended hscope) hat)
  | @program _ rest _ _ hg hrest hk =>
    cases rest with
    | nil => exact matched_give .nil ⟨hs, hc, hk⟩
    | cons stmt rest =>
      obtain ⟨hfirst, hrest⟩ := Stmt.eachValid_cons hrest
      refine ⟨w, .exec hs hfirst hc ?_⟩
      rw [Scopes.after_nil] at hrest ⊢
      exact .program hg hrest hk

theorem matched_returnThrough {f f' : Frame} (hv : w.Values P v v') (hs : w.States P s l)
    (hg : s.scope = globalScope → l.env = topLevel)
    (hk : w.Stacks P scopes s.scope (f :: k) (f' :: k'))
    (hp : ¬ Machine.Config.Panics ⟨.returning v, f :: k, s⟩) :
    Matched P (Machine.returnThrough v f k s) (returnThrough v' f' k' l) := by
  cases hk with
  | block houter hlt hk =>
    exact ⟨w, .returning (hs.move _ _) hv (houter.env_eq_topLevel hs) hk⟩
  | call houter hlt hr hk =>
    refine matched_finishCall hs hv houter hr hk fun f hf => ?_
    obtain ⟨scope, hscope, hat⟩ := CallResult.exists_scope?_of_value_eq_error hf
    exact hp (Machine.panics_of_getAt (.returned hscope) hat)
  | program hglobal hrest hk =>
    exact ⟨w, .value hs .nil (hs.current_topLevel hglobal (hg hglobal))
      (.program hglobal hrest hk)⟩
  | _ => exact ⟨w, .returning hs hv hg (by assumption)⟩

theorem matched_failThrough {f f' : Frame} {e : Failure} (hs : w.States P s l)
    (hg : s.scope = globalScope → l.env = topLevel)
    (hk : w.Stacks P scopes s.scope (f :: k) (f' :: k')) :
    Matched P (Machine.failThrough e f k s) (failThrough e f' k' l) := by
  cases hk with
  | block houter hlt hk => exact ⟨w, .failing (hs.move _ _) (houter.env_eq_topLevel hs) hk⟩
  | call houter hlt hr hk =>
    refine ⟨w, .failing ?_ (houter.env_eq_topLevel hs) hk⟩
    exact hs.leaveCall _ _
  | _ => exact ⟨w, .failing hs hg (by assumption)⟩

end Steps

end World

theorem World.Stacks.exists_cons {w : World} {P : Occurrence → Prop} {scopes : Scopes}
    {scope : ScopeId} {f : Frame} {k k' : List Frame} (h : w.Stacks P scopes scope (f :: k) k') :
    ∃ f' rest, k' = f' :: rest := by
  cases h <;> exact ⟨_, _, rfl⟩

/-- A step that is no panic leads to configurations that belong together. -/
theorem Matched.step {n : Nat} {c : Machine.Config} {c' : Config}
    (h : Matched (Occurrence.Linked c.state.table n) c c') (hp : ¬ c.Panics) :
    Matched (Occurrence.Linked c.state.table n) (Machine.step c) (Lexical.step c') := by
  obtain ⟨w, h⟩ := h
  cases h with
  | eval hs he hc hk => exact World.matched_evalStep rfl he ⟨hs, hc, hk⟩ hp
  | exec hs hv hc hk => exact World.matched_execStep hv hs hc hk
  | @value _ _ _ _ _ k k' hs hv hc hk =>
    cases k with
    | nil =>
      cases hk with
      | nil hg => exact ⟨w, .value hs hv hc (.nil hg)⟩
    | cons f k =>
      obtain ⟨f', k', rfl⟩ := hk.exists_cons
      exact World.matched_resume rfl hv hs hc hk hp
  | @returning _ _ _ _ _ k k' hs hv hg hk =>
    cases k with
    | nil =>
      cases hk with
      | nil hglobal => exact ⟨w, .returning hs hv hg (.nil hglobal)⟩
    | cons f k =>
      obtain ⟨f', k', rfl⟩ := hk.exists_cons
      exact World.matched_returnThrough hv hs hg hk hp
  | @failing _ _ _ k k' e hs hg hk =>
    cases k with
    | nil =>
      cases hk with
      | nil hglobal => exact ⟨w, .failing hs hg (.nil hglobal)⟩
    | cons f k =>
      obtain ⟨f', k', rfl⟩ := hk.exists_cons
      exact World.matched_failThrough hs hg hk

/-- Runs without panics stay in step. -/
theorem Matched.run {t : BindingTable} {n : Nat} {c : Machine.Config} {c' : Config}
    (h : Matched (Occurrence.Linked t n) c c') (ht : c.state.table = t)
    (hp : ∀ m, ¬ (Machine.run m c).Panics) (m : Nat) :
    Matched (Occurrence.Linked t n) (Machine.run m c) (Lexical.run m c') := by
  subst ht
  induction m generalizing c c' with
  | zero => exact h
  | succ m ih =>
    rw [Machine.run_succ, Lexical.run]
    have htable := Machine.table_step c
    have hstep := h.step (hp 0)
    rw [← htable] at hstep ⊢
    refine ih (fun m => ?_) hstep
    rw [← Machine.run_succ]
    exact hp (m + 1)

end LoxLang.Lexical
