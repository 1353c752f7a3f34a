import LoxLang.Proofs.Machine.Extent
import LoxLang.Proofs.Scoping.Returns

/-!
# Where a `return` leads

The frames above the innermost call belong to the body of the routine that is called: the statements
they keep stand in that body. So a `return` that is executed stands in the body of the routine whose
call is the innermost one, and it leaves the frames of that body and no others. At the top level there
are no such frames, and if no `return` stands there, none is ever executed there.

## Main definitions

* `Stacked`: frames of which each belongs to the body of the innermost call below it.
* `Config.RunsIn`: what a machine does belongs to the body of the innermost call too.
* `Config.Innermost`: the innermost call, with the moment at which it was made.
* `Config.Unwinds`: frames are left one after the other, up to the end of a call.

## Main results

* `Config.RunsIn.step`: a step keeps to the body of the innermost call.
* `runsIn_run`: each frame of a call was put there by a call that has not ended since.
* `unwinds_returning`: a `return` leaves all frames up to the end of the innermost call.
-/

namespace LoxLang.Machine

/-! ## Code in its body -/

/-- The body of a routine, or the statements of the top level. -/
def bodyOf (p : Program) : Option Routine → List Stmt
  | none => p
  | some r => r.body

/-- A `return` stands in the body. -/
def HasReturn (p : Program) (home : Option Routine) : Prop :=
  ∃ line value, (Stmt.return_ line value).StandsIn (bodyOf p home)

/-- The statements that a frame keeps stand in the body. No frame of a call does. -/
def Frame.RunsIn (p : Program) (home : Option Routine) : Frame → Prop
  | .if_ then_ else_ => then_.StandsIn (bodyOf p home) ∧ ∀ s ∈ else_, s.StandsIn (bodyOf p home)
  | .whileCondition _ body | .whileBody _ body => body.StandsIn (bodyOf p home)
  | .sequence rest => ∀ s ∈ rest, s.StandsIn (bodyOf p home)
  | .program rest => home = none ∧ ∀ s ∈ rest, s.StandsIn (bodyOf p home)
  | .return_ => HasReturn p home
  | .call _ _ => False
  | _ => True

theorem Frame.isCall_of_runsIn {p : Program} {home : Option Routine} {f : Frame}
    (h : f.RunsIn p home) : f.isCall = false := by
  cases f with
  | call outer result => exact h.elim
  | _ => rfl

/-- What is to be executed stands in the body. -/
def Control.RunsIn (p : Program) (home : Option Routine) : Control → Prop
  | .exec s => s.StandsIn (bodyOf p home)
  | .returning _ => HasReturn p home
  | _ => True

/-- Each frame belongs to the body of the innermost call below it, or to the top level if there is
none. `E` says what is known about the calls and their routines. -/
inductive Stacked (E : ScopeId → CallResult → List Frame → Routine → Prop) (p : Program) :
    Option Routine → List Frame → Prop where
  | nil : Stacked E p none []
  | frame (hf : Frame.RunsIn p home f) (hk : Stacked E p home k) : Stacked E p home (f :: k)
  | call (he : E outer result k r) (hk : Stacked E p home k) :
      Stacked E p (some r) (.call outer result :: k)

/-- What a machine does belongs to the body of the innermost call. -/
def Config.RunsIn (E : ScopeId → CallResult → List Frame → Routine → Prop) (p : Program)
    (c : Config) : Prop :=
  ∃ home, Stacked E p home c.frames ∧ c.control.RunsIn p home

section Steps

variable {E : ScopeId → CallResult → List Frame → Routine → Prop} {p : Program}
  {home : Option Routine} {k : List Frame} {s : State}

namespace Stacked

/-- What is known about calls may change, as long as it is known of those among the frames. -/
theorem mono {E' : ScopeId → CallResult → List Frame → Routine → Prop} (h : Stacked E p home k)
    (hE : ∀ outer result below r, E outer result below r → .call outer result :: below <:+ k →
      E' outer result below r) : Stacked E' p home k := by
  induction h with
  | nil => exact .nil
  | frame hf _ ih =>
    exact .frame hf (ih fun _ _ _ _ he hs => hE _ _ _ _ he (hs.trans (List.suffix_cons _ _)))
  | call he _ ih =>
    exact .call (hE _ _ _ _ he List.suffix_rfl)
      (ih fun _ _ _ _ he hs => hE _ _ _ _ he (hs.trans (List.suffix_cons _ _)))

theorem pop {f : Frame} (h : Stacked E p home (f :: k)) (hf : f.isCall = false) :
    f.RunsIn p home ∧ Stacked E p home k := by
  cases h with
  | frame hf hk => exact ⟨hf, hk⟩
  | call => cases hf

theorem leave {outer : ScopeId} {result : CallResult} (h : Stacked E p home (.call outer result :: k)) :
    ∃ below, Stacked E p below k := by
  cases h with
  | frame hf _ => exact hf.elim
  | call _ hk => exact ⟨_, hk⟩

/-- The frames above the innermost call belong to the body of its routine. -/
theorem exists_call {r : Routine} (h : Stacked E p (some r) k) :
    ∃ inner outer result below, k = inner ++ .call outer result :: below ∧
      (∀ f ∈ inner, f.RunsIn p (some r)) ∧ E outer result below r := by
  generalize hhome : some r = home at h
  induction h with
  | nil => cases hhome
  | @frame home f k hf _ ih =>
    subst hhome
    obtain ⟨inner, outer, result, below, rfl, hinner, he⟩ := ih rfl
    exact ⟨f :: inner, outer, result, below, rfl, List.forall_mem_cons.mpr ⟨hf, hinner⟩, he⟩
  | @call outer result k r' home he _ _ =>
    cases hhome
    exact ⟨[], outer, result, k, rfl, fun f hf => (List.not_mem_nil hf).elim, he⟩

end Stacked

/-! ## Steps -/

/-- A value or a failure does not need a place in the body. -/
theorem Config.Settles.runsIn {c : Config} (h : c.Settles k) (hk : Stacked E p home k) :
    c.RunsIn E p := by
  obtain ⟨control, frames, s⟩ := c
  obtain ⟨rfl, ⟨v, rfl⟩ | ⟨e, rfl⟩⟩ := h
  · exact ⟨home, hk, trivial⟩
  · exact ⟨home, hk, trivial⟩

theorem runsIn_eval {e : Expr} (hk : Stacked E p home k) : Config.RunsIn E p ⟨.eval e, k, s⟩ :=
  ⟨home, hk, trivial⟩

theorem runsIn_sequence {body : List Stmt} (hk : Stacked E p home k)
    (hb : ∀ t ∈ body, t.StandsIn (bodyOf p home)) : (sequence body k s).RunsIn E p := by
  cases body with
  | nil => exact (settles_give _).runsIn hk
  | cons first rest =>
    obtain ⟨hfirst, hrest⟩ := List.forall_mem_cons.mp hb
    exact ⟨home, .frame hrest hk, hfirst⟩

/-- The body that is entered is that of the innermost call from then on. -/
theorem runsIn_enter {f : Closure} {args : List Value} {result : CallResult}
    (hk : Stacked E p home k) (he : E s.scope result k f.routine) :
    (enter f args result k s).RunsIn E p :=
  runsIn_sequence (.call he hk) fun _ ht => .of_mem ht

theorem runsIn_callValue (hk : Stacked E p home k) {callee : Value} {args : List Value} {line : Nat}
    (hE : ∀ {f given result s'}, callValue callee args line k s = enter f given result k s' →
      E s'.scope result k f.routine) : (callValue callee args line k s).RunsIn E p := by
  obtain ⟨e, he⟩ | ⟨-, he⟩ | ⟨i, f, rfl, he⟩ | ⟨own, rfl, he⟩ :=
    callValue_cases callee args line k s
  · rw [he]
    exact (settles_failing _).runsIn hk
  · rw [he]
    exact (settles_give _).runsIn hk
  · have hknown := hE he
    rw [he]
    exact runsIn_enter hk hknown
  · cases hm : own.method? Routine.initName with
    | none =>
      rw [he, construct_of_eq_none hm]
      exact (settles_give _).runsIn hk
    | some m =>
      rw [construct_of_eq_some hm] at he
      have hknown := hE he
      rw [he]
      exact runsIn_enter hk hknown

theorem runsIn_callWith (hk : Stacked E p home k) {line : Nat} {callee : Value} {done : List Value}
    {rest : List Expr}
    (hE : ∀ {f given result s'}, callWith line callee done rest k s = enter f given result k s' →
      E s'.scope result k f.routine) : (callWith line callee done rest k s).RunsIn E p := by
  cases rest with
  | nil => exact runsIn_callValue hk hE
  | cons e es => exact runsIn_eval (.frame trivial hk)

theorem runsIn_evalStep (hk : Stacked E p home k) (e : Expr) : (evalStep e k s).RunsIn E p := by
  cases e with
  | literal l => exact (settles_give _).runsIn hk
  | group inner => exact runsIn_eval hk
  | «variable» site name => exact (settles_readName _ _ _).runsIn hk
  | this site line => exact (settles_readName _ _ _).runsIn hk
  | super site line method => exact (settles_getSuper _ _ _).runsIn hk
  | _ => exact runsIn_eval (.frame trivial hk)

theorem runsIn_execStep (hk : Stacked E p home k) {stmt : Stmt}
    (hs : stmt.StandsIn (bodyOf p home)) : (execStep stmt k s).RunsIn E p := by
  cases stmt with
  | expression e => exact runsIn_eval hk
  | print e => exact runsIn_eval (.frame trivial hk)
  | var name init =>
    cases init with
    | none => exact (settles_give _).runsIn hk
    | some e => exact runsIn_eval (.frame trivial hk)
  | block body =>
    exact runsIn_sequence (.frame trivial hk) fun t ht => hs.part (.block .self ht)
  | if_ condition then_ else_ =>
    have helse : ∀ t ∈ else_, t.StandsIn (bodyOf p home) := by
      rintro t rfl
      exact hs.part (.else_ .self)
    exact runsIn_eval (.frame ⟨hs.part (.then_ .self), helse⟩ hk)
  | while_ condition body =>
    exact runsIn_eval (.frame (hs.part (.while_ .self)) hk)
  | function routine => exact (settles_give _).runsIn hk
  | return_ line value =>
    cases value with
    | none => exact ⟨home, hk, line, none, hs⟩
    | some e => exact runsIn_eval (.frame ⟨line, some e, hs⟩ hk)
  | class_ name parent methods =>
    cases parent with
    | none => exact (settles_give _).runsIn hk
    | some parent => exact runsIn_eval (.frame trivial hk)

theorem runsIn_resume {f : Frame} (h : Stacked E p home (f :: k)) {v : Value}
    (hE : ∀ {f' args result k' s'}, resume v f k s = enter f' args result k' s' →
      E s'.scope result k' f'.routine) : (resume v f k s).RunsIn E p := by
  cases f with
  | call outer result =>
    obtain ⟨below, hk⟩ := h.leave
    exact (settles_finishCall _ _).runsIn hk
  | unary op line => exact (settles_giveOrRaise _ _).runsIn (h.pop rfl).2
  | binaryLeft op line right => exact runsIn_eval (.frame trivial (h.pop rfl).2)
  | binaryRight op line left => exact (settles_giveOrRaise _ _).runsIn (h.pop rfl).2
  | logical op right =>
    simp only [resume]
    split
    · exact (settles_give v).runsIn (h.pop rfl).2
    · exact runsIn_eval (h.pop rfl).2
  | assign site name => exact (settles_writeName _ _ _).runsIn (h.pop rfl).2
  | callee line args => exact runsIn_callWith (h.pop rfl).2 hE
  | argument line callee done rest => exact runsIn_callWith (h.pop rfl).2 hE
  | get name => exact (settles_getProperty _ _).runsIn (h.pop rfl).2
  | setObject name value =>
    cases v with
    | object id c => exact runsIn_eval (.frame trivial (h.pop rfl).2)
    | _ => exact (settles_failing _).runsIn (h.pop rfl).2
  | setValue name object => exact (settles_give v).runsIn (h.pop rfl).2
  | print =>
    simp only [resume]
    split
    · exact (settles_give _).runsIn (h.pop rfl).2
    · exact (settles_failing _).runsIn (h.pop rfl).2
  | var name => exact (settles_give _).runsIn (h.pop rfl).2
  | if_ then_ else_ =>
    obtain ⟨⟨hthen, helse⟩, hk⟩ := h.pop rfl
    simp only [resume]
    split
    · exact ⟨home, hk, hthen⟩
    · cases else_ with
      | none => exact (settles_give _).runsIn hk
      | some stmt => exact ⟨home, hk, helse stmt rfl⟩
  | whileCondition condition body =>
    obtain ⟨hbody, hk⟩ := h.pop rfl
    simp only [resume]
    split
    · exact ⟨home, .frame hbody hk, hbody⟩
    · exact (settles_give _).runsIn hk
  | whileBody condition body =>
    obtain ⟨hbody, hk⟩ := h.pop rfl
    exact runsIn_eval (.frame hbody hk)
  | superclass name line methods =>
    cases v with
    | class_ c => exact (settles_give _).runsIn (h.pop rfl).2
    | _ => exact (settles_failing _).runsIn (h.pop rfl).2
  | return_ =>
    obtain ⟨hreturn, hk⟩ := h.pop rfl
    exact ⟨home, hk, hreturn⟩
  | sequence rest =>
    obtain ⟨hrest, hk⟩ := h.pop rfl
    exact runsIn_sequence hk hrest
  | block outer => exact (settles_give _).runsIn (h.pop rfl).2
  | program rest =>
    obtain ⟨⟨hhome, hrest⟩, hk⟩ := h.pop rfl
    cases rest with
    | nil => exact (settles_give _).runsIn hk
    | cons stmt rest =>
      obtain ⟨hstmt, hrest⟩ := List.forall_mem_cons.mp hrest
      exact ⟨home, .frame ⟨hhome, hrest⟩ hk, hstmt⟩

theorem runsIn_returnThrough {f : Frame} (h : Stacked E p home (f :: k)) (hr : HasReturn p home)
    (v : Value) : (returnThrough v f k s).RunsIn E p := by
  cases f with
  | call outer result =>
    obtain ⟨below, hk⟩ := h.leave
    exact (settles_finishCall _ _).runsIn hk
  | program rest => exact (settles_give _).runsIn h
  | _ => exact ⟨home, (h.pop rfl).2, hr⟩

theorem runsIn_failThrough {f : Frame} (h : Stacked E p home (f :: k)) (e : Failure) :
    (failThrough e f k s).RunsIn E p := by
  cases f with
  | call outer result =>
    obtain ⟨below, hk⟩ := h.leave
    exact (settles_failing e).runsIn hk
  | _ => exact (settles_failing e).runsIn (h.pop rfl).2

/-- A step keeps to the body of the innermost call, which may be one that it makes. -/
theorem Config.RunsIn.step {c : Config} (h : c.RunsIn E p)
    (hE : ∀ {f args result k s}, Machine.step c = enter f args result k s →
      E s.scope result k f.routine) : (Machine.step c).RunsIn E p := by
  obtain ⟨control, frames, s⟩ := c
  obtain ⟨home, hk, hc⟩ := h
  cases control with
  | eval e => exact runsIn_evalStep hk e
  | exec stmt => exact runsIn_execStep hk hc
  | value v =>
    cases frames with
    | nil => exact (settles_give v).runsIn hk
    | cons f k => exact runsIn_resume hk hE
  | returning v =>
    cases frames with
    | nil => exact ⟨home, hk, hc⟩
    | cons f k => exact runsIn_returnThrough hk hc v
  | failing e =>
    cases frames with
    | nil => exact (settles_failing e).runsIn hk
    | cons f k => exact runsIn_failThrough hk e

end Steps

/-! ## Runs -/

/-- Before step `i` a call of `r` was made above the frames `below`, and its frame is there since. -/
def Config.Entered (c : Config) (i : Nat) (outer : ScopeId) (result : CallResult)
    (below : List Frame) (r : Routine) : Prop :=
  ∃ j < i, (∃ f args s, f.routine = r ∧ s.scope = outer ∧
      step (run j c) = enter f args result below s) ∧
    ∀ l, j < l → l ≤ i → .call outer result :: below <:+ (run l c).frames

variable {p : Program} {c : Config}

/-- A call that has been made is not forgotten as long as its frame is there. -/
theorem Config.Entered.succ {i : Nat} {outer : ScopeId} {result : CallResult} {below : List Frame}
    {r : Routine} (h : c.Entered i outer result below r)
    (hf : .call outer result :: below <:+ (run (i + 1) c).frames) :
    c.Entered (i + 1) outer result below r := by
  obtain ⟨j, hj, hentered, hsince⟩ := h
  refine ⟨j, Nat.lt_succ_of_lt hj, hentered, fun l hl hle => ?_⟩
  rcases Nat.lt_or_eq_of_le hle with hlt | rfl
  · exact hsince l hl (Nat.le_of_lt_succ hlt)
  · exact hf

/-- All along a run, each call among the frames was made before and has not ended since. -/
theorem runsIn_run (h : c.RunsIn (c.Entered 0) p) (i : Nat) : (run i c).RunsIn (c.Entered i) p := by
  induction i with
  | zero => exact h
  | succ i ih =>
    -- The calls made before, and the one that this step may make.
    let known := fun outer result below r => c.Entered i outer result below r ∨
      ∃ f args s, f.routine = r ∧ s.scope = outer ∧ step (run i c) = enter f args result below s
    obtain ⟨home, hk, hc⟩ := ih
    have hnow : (run i c).RunsIn known p := ⟨home, hk.mono fun _ _ _ _ he _ => .inl he, hc⟩
    obtain ⟨home, hk, hc⟩ := hnow.step fun hstep => .inr ⟨_, _, _, rfl, rfl, hstep⟩
    rw [← run_succ'] at hk hc
    refine ⟨home, hk.mono fun outer result below r he hf => ?_, hc⟩
    rcases he with he | he
    · exact he.succ hf
    · refine ⟨i, Nat.lt_succ_self i, he, fun l hl hle => ?_⟩
      obtain rfl : l = i + 1 := by omega
      exact hf

/-! ## Leaving frames -/

/-- Frames are left one after the other because of a `return`, up to the end of a call. -/
structure Config.Unwinds (c : Config) (v : Value) (inner : List Frame) (outer : ScopeId)
    (result : CallResult) (below : List Frame) : Prop where
  leaves : ∀ l ≤ inner.length, (run l c).control = .returning v ∧
    (run l c).frames = inner.drop l ++ .call outer result :: below ∧
    (run l c).state.store = c.state.store
  ends : run (inner.length + 1) c = finishCall result v below (leaveCall outer c.state)

section Unwinding

variable {r : Routine} {inner : List Frame} {s : State} {v : Value}

theorem exists_returnThrough {f : Frame} (hf : f.RunsIn p (some r)) (k : List Frame) :
    ∃ scope, returnThrough v f k s = ⟨.returning v, k, { s with scope := scope }⟩ := by
  cases f with
  | call outer result => exact hf.elim
  | program rest => cases hf.1
  | block outer => exact ⟨outer, rfl⟩
  | _ => exact ⟨s.scope, rfl⟩

/-- The frames of the body of a routine are left without any effect but on the current scope. -/
theorem exists_run_returning (h : ∀ f ∈ inner, f.RunsIn p (some r)) (k : List Frame) :
    ∃ scope, run inner.length ⟨.returning v, inner ++ k, s⟩ =
      ⟨.returning v, k, { s with scope := scope }⟩ := by
  induction inner generalizing s with
  | nil => exact ⟨s.scope, rfl⟩
  | cons f inner ih =>
    obtain ⟨hf, hinner⟩ := List.forall_mem_cons.mp h
    obtain ⟨scope, hstep⟩ := exists_returnThrough (s := s) (v := v) hf (inner ++ k)
    obtain ⟨scope', hrun⟩ := ih (s := { s with scope := scope }) hinner
    refine ⟨scope', ?_⟩
    rw [List.length_cons, run_succ]
    exact (congrArg (run inner.length) hstep).trans hrun

/-- A `return` leaves all frames up to the end of the innermost call, which gets its value. -/
theorem unwinds_returning (h : ∀ f ∈ inner, f.RunsIn p (some r)) (outer : ScopeId)
    (result : CallResult) (below : List Frame) :
    Config.Unwinds ⟨.returning v, inner ++ .call outer result :: below, s⟩ v inner outer result
      below := by
  constructor
  · intro l hl
    have htake : ∀ f ∈ inner.take l, f.RunsIn p (some r) := fun f hf => h f (List.mem_of_mem_take hf)
    obtain ⟨scope, hrun⟩ := exists_run_returning (s := s) (v := v) htake
      (inner.drop l ++ .call outer result :: below)
    rw [← List.append_assoc, List.take_append_drop, List.length_take_of_le hl] at hrun
    rw [hrun]
    exact ⟨rfl, rfl, rfl⟩
  · obtain ⟨scope, hrun⟩ := exists_run_returning (s := s) (v := v) h (.call outer result :: below)
    rw [run_succ', hrun]
    rfl

end Unwinding

theorem Config.control_of_returned {v : Value} (h : c.outcome? = some (.returned v)) :
    c.control = .returning v := by
  obtain ⟨control, frames, s⟩ := c
  cases control <;> cases frames <;> cases h
  rfl

/-! ## `return` statements -/

/-- After `i` steps the innermost call that has not ended is one of the routine `r`. Above its frame
there are the frames `inner`, and it was made above the frames `below`. -/
structure Config.Innermost (c : Config) (i : Nat) (r : Routine) (inner : List Frame)
    (outer : ScopeId) (result : CallResult) (below : List Frame) : Prop where
  frames : (run i c).frames = inner ++ .call outer result :: below
  innermost : ∀ f ∈ inner, f.isCall = false
  entered : c.Entered i outer result below r

/-- What a `return` yields, and the state that its expression leaves. -/
inductive State.Yields (s : State) : Option Expr → Value → State → Prop where
  | bare : Yields s none .nil s
  | value (h : run n (s.evaluating e) = ⟨.value v, [], s'⟩) : Yields s (some e) v s'

/-- When the value of a `return` is known, the frames are those at which it was executed. -/
theorem State.Yields.exists_run {s s' : State} {value : Option Expr} {v : Value}
    (h : s.Yields value v s') (line : Nat) (k : List Frame) :
    ∃ n, run n ⟨.exec (.return_ line value), k, s⟩ = ⟨.returning v, k, s'⟩ := by
  cases h with
  | bare => exact ⟨1, rfl⟩
  | @value n e v s' h =>
    have hfinal : (run n (s.evaluating e)).isFinal := by
      rw [h]
      rfl
    obtain ⟨d, -, hrun⟩ := exists_run_above hfinal (.return_ :: k)
    refine ⟨d + 1 + 1, ?_⟩
    rw [run_succ, run_succ']
    calc step (run d (step ⟨.exec (.return_ line (some e)), k, s⟩))
      _ = step ((run n (s.evaluating e)).above (.return_ :: k)) := congrArg step hrun
      _ = ⟨.returning v, k, s'⟩ := by
        rw [h]
        rfl

section TopLevel

variable {ties : List (Site × Nat)} {m : State}

/-- The configurations at which the statements of a program are executed. -/
inductive State.Runs (m : State) (p : Program) : Config → Prop where
  | interpret : Runs m p (m.interpreting p)
  | execute (h : stmt ∈ p) : Runs m p (m.executing stmt)

theorem State.Runs.runsIn (h : m.Runs p c) : c.RunsIn (c.Entered 0) p := by
  cases h with
  | interpret =>
    have hprogram : Frame.RunsIn p none (.program p) := ⟨rfl, fun _ ht => .of_mem ht⟩
    exact (settles_give _).runsIn (.frame hprogram .nil)
  | execute h => exact ⟨none, .nil, .of_mem h⟩

/-- If what a machine does does not belong to the top level, it belongs to the innermost call. -/
theorem State.Runs.exists_innermost (hc : m.Runs p c) {i : Nat}
    (hnone : ¬ (run i c).control.RunsIn p none) : ∃ r inner outer result below,
      c.Innermost i r inner outer result below ∧ (∀ f ∈ inner, f.RunsIn p (some r)) ∧
      (run i c).control.RunsIn p (some r) := by
  obtain ⟨home, hk, hcontrol⟩ := runsIn_run hc.runsIn i
  cases home with
  | none => exact absurd hcontrol hnone
  | some r =>
    obtain ⟨inner, outer, result, below, hframes, hinner, hentered⟩ := hk.exists_call
    have hcall : ∀ f ∈ inner, f.isCall = false := fun f hf =>
      Frame.isCall_of_runsIn (hinner f hf)
    exact ⟨r, inner, outer, result, below, ⟨hframes, hcall, hentered⟩, hinner, hcontrol⟩

/-- In a program that the analysis accepts no `return` escapes to the top level, from whatever state
its statements are executed. While frames are left because of a `return`, there is a call, and they
are left up to its end. A `return` that is executed stands in the body of the routine whose call is
the innermost one, and it is this call that ends with its value. -/
theorem return_ends_innermost_call (hp : Scoping.analyse p = .ok ties) (hc : m.Runs p c) :
    (∀ i v, (run i c).outcome? ≠ some (.returned v)) ∧
    (∀ i v, (run i c).control = .returning v → ∃ r inner outer result below,
      c.Innermost i r inner outer result below ∧
      (run i c).Unwinds v inner outer result below) ∧
    ∀ i line value, (run i c).control = .exec (.return_ line value) →
      ∃ r inner outer result below, c.Innermost i r inner outer result below ∧
        (Stmt.return_ line value).StandsIn r.body ∧
        ∀ v s, (run i c).state.Yields value v s → ∃ n,
          run (i + n) c = ⟨.returning v, (run i c).frames, s⟩ ∧
          (run (i + n) c).Unwinds v inner outer result below := by
  have hnone := Scoping.not_standsIn_of_analyse hp
  have hreturning : ∀ i v, (run i c).control = .returning v → ∃ r inner outer result below,
      c.Innermost i r inner outer result below ∧
      (run i c).Unwinds v inner outer result below := by
    intro i v hcontrol
    obtain ⟨r, inner, outer, result, below, hcall, hinner, -⟩ := hc.exists_innermost (i := i) (by
      rw [hcontrol]
      rintro ⟨line, value, hstands⟩
      exact hnone line value hstands)
    refine ⟨r, inner, outer, result, below, hcall, ?_⟩
    have hframes := hcall.frames
    generalize run i c = d at hcontrol hframes
    obtain ⟨control, frames, s⟩ := d
    subst hcontrol hframes
    exact unwinds_returning hinner outer result below
  refine ⟨fun i v hout => ?_, hreturning, fun i line value hcontrol => ?_⟩
  · have hnil := Config.frames_eq_nil_of_isFinal (Config.isFinal_of_outcome? hout)
    obtain ⟨r, inner, outer, result, below, hcall, -⟩ :=
      hreturning i v (Config.control_of_returned hout)
    rw [hcall.frames] at hnil
    simp at hnil
  · obtain ⟨r, inner, outer, result, below, hcall, hinner, hstands⟩ := hc.exists_innermost (i := i) (by
      rw [hcontrol]
      exact hnone line value)
    rw [hcontrol] at hstands
    refine ⟨r, inner, outer, result, below, hcall, hstands, fun v s hyields => ?_⟩
    obtain ⟨n, hn⟩ := hyields.exists_run line (run i c).frames
    have hrun : run (i + n) c = ⟨.returning v, (run i c).frames, s⟩ := by
      rw [run_add, ← hn, ← hcontrol]
    refine ⟨n, hrun, ?_⟩
    rw [hrun, hcall.frames]
    exact unwinds_returning hinner outer result below

end TopLevel

/-- A function returns from within a loop and blocks, and its call is the argument of another. -/
def returningProgram : Program :=
  [.function (.mk ⟨"f", 1⟩ [⟨"x", 1⟩] [.while_ (.literal (.bool true))
    (.block [.block [.if_ (.variable 0 ⟨"x", 1⟩) (.return_ 1 (some (.variable 1 ⟨"x", 1⟩))) none]])]),
   .print (.call (.variable 2 ⟨"f", 2⟩) 2 [.call (.variable 3 ⟨"f", 2⟩) 2 [.literal (.string "a")]])]

def returningConfig : Config :=
  ((State.initial (.steady 0) none).addBindings [(0, 2), (1, 2)]).interpreting returningProgram

/-- The `return` of the inner call ends that call and not the outer one. -/
theorem return_ends_innermost_call_argument :
    (run 20 returningConfig).control = .exec (.return_ 1 (some (.variable 1 ⟨"x", 1⟩))) ∧
    ∃ r inner outer result below, returningConfig.Innermost 20 r inner outer result below ∧
      (Stmt.return_ 1 (some (.variable 1 ⟨"x", 1⟩))).StandsIn r.body ∧
      ∃ n, run (20 + n) returningConfig =
          ⟨.returning (.string "a"), (run 20 returningConfig).frames,
            (run 20 returningConfig).state⟩ ∧
        (run (20 + n) returningConfig).Unwinds (.string "a") inner outer result below := by
  have hcontrol : (run 20 returningConfig).control =
      .exec (.return_ 1 (some (.variable 1 ⟨"x", 1⟩))) := rfl
  have hyields : (run 20 returningConfig).state.Yields (some (.variable 1 ⟨"x", 1⟩)) (.string "a")
      (run 20 returningConfig).state := .value (n := 1) rfl
  have hp : Scoping.analyse returningProgram = .ok [(0, 2), (1, 2)] := rfl
  obtain ⟨r, inner, outer, result, below, hcall, hstands, hends⟩ :=
    (return_ends_innermost_call hp .interpret).2.2 20 1 _ hcontrol
  exact ⟨hcontrol, r, inner, outer, result, below, hcall, hstands, hends _ _ hyields⟩

end LoxLang.Machine
