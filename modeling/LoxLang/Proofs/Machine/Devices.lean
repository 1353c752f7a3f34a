import LoxLang.Proofs.Machine.Extent

/-!
# Output and clock

Only a step that prints looks at the output, and only a step that reads the clock looks at it. All
other steps do the same whatever these two are.

## Main definitions

* `State.mapDevices`: a state with another output and another clock.
* `Config.prints?`: the line that the next step prints.
* `Config.ReadsClock`: the next step reads the clock.

## Main results

* `step_mapDevices`: a step commutes with a change of the devices that it does not use.
* `step_mapDevices_of_agrees`: it also does when the devices are used in the same way.
-/

namespace LoxLang.Machine

/-- The state with another output and another clock. -/
def State.mapDevices (f : Output → Output) (g : Clock → Clock) (s : State) : State :=
  { s with output := f s.output, clock := g s.clock }

def Config.mapDevices (f : Output → Output) (g : Clock → Clock) (c : Config) : Config :=
  { c with state := c.state.mapDevices f g }

/-- The line that the next step prints. -/
def Config.prints? : Config → Option String
  | ⟨.value v, .print :: _, _⟩ => some v.text
  | _ => none

theorem Config.exists_eq_of_prints? {c : Config} {line : String} (h : c.prints? = some line) :
    ∃ v k s, c = ⟨.value v, .print :: k, s⟩ ∧ v.text = line := by
  unfold prints? at h
  split at h
  · cases h
    exact ⟨_, _, _, rfl, rfl⟩
  · cases h

/-- The next step calls the clock, and not with wrong arguments or too deep. -/
def Config.ReadsClock (c : Config) : Prop :=
  ∃ args line k, c.Calls (.native .clock) args line k ∧ step c = readClock k c.state

/-! ## Steps that use no device -/

section Steps

variable {k : List Frame} {s : State} (f : Output → Output) (g : Clock → Clock)

theorem giveOrRaise_mapDevices (r : Except RuntimeError Value) (line : Nat) :
    giveOrRaise r line k (s.mapDevices f g) = (giveOrRaise r line k s).mapDevices f g := by
  cases r <;> rfl

theorem sequence_mapDevices (body : List Stmt) :
    Machine.sequence body k (s.mapDevices f g) = (Machine.sequence body k s).mapDevices f g := by
  cases body <;> rfl

theorem readName_mapDevices (site : Site) (name : String) (line : Nat) :
    readName site name line k (s.mapDevices f g) = (readName site name line k s).mapDevices f g := by
  simp only [readName, State.mapDevices]
  split
  · split <;> rfl
  · exact giveOrRaise_mapDevices f g _ _

theorem writeName_mapDevices (site : Site) (name : Name) (v : Value) :
    writeName site name v k (s.mapDevices f g) = (writeName site name v k s).mapDevices f g := by
  simp only [writeName, State.mapDevices]
  repeat' split
  all_goals rfl

theorem getProperty_mapDevices (v : Value) (name : Name) :
    getProperty v name k (s.mapDevices f g) = (getProperty v name k s).mapDevices f g := by
  simp only [getProperty, State.mapDevices]
  repeat' split
  all_goals rfl

theorem getSuper_mapDevices (site : Site) (line : Nat) (method : Name) :
    getSuper site line method k (s.mapDevices f g) =
      (getSuper site line method k s).mapDevices f g := by
  have hthis : ∀ hops, superAndThis hops (s.mapDevices f g) = superAndThis hops s := fun _ => rfl
  simp only [getSuper, hthis]
  simp only [State.mapDevices]
  repeat' split
  all_goals rfl

theorem enter_mapDevices (closure : Closure) (args : List Value) (result : CallResult) :
    enter closure args result k (s.mapDevices f g) =
      (enter closure args result k s).mapDevices f g := by
  let entered : State :=
    { s with
      store := s.store.addScope (some closure.scope) (bindParams closure.routine.params args)
      scope := s.store.nextScope
      depth := s.depth + 1 }
  exact sequence_mapDevices (s := entered) f g closure.routine.body

theorem construct_mapDevices (own : Class) (args : List Value) :
    construct own args k (s.mapDevices f g) = (construct own args k s).mapDevices f g := by
  cases hm : own.method? Routine.initName with
  | none =>
    rw [construct_of_eq_none hm, construct_of_eq_none hm]
    rfl
  | some m =>
    let made : State :=
      { s with
        store := s.store.addObject.addScope (some m.scope)
          [(Keyword.this.spelling, .object s.store.nextObject own)] }
    rw [construct_of_eq_some hm, construct_of_eq_some hm]
    exact enter_mapDevices (s := made) f g _ _ _

/-- Of what can be called only the clock is a device. -/
theorem callValue_mapDevices {callee : Value} {args : List Value} {line : Nat}
    (h : callee = .native .clock → callValue callee args line k s ≠ readClock k s) :
    callValue callee args line k (s.mapDevices f g) =
      (callValue callee args line k s).mapDevices f g := by
  unfold callValue at h ⊢
  split
  · rfl
  · next n hn =>
    simp only [hn] at h
    by_cases hargs : args.length ≠ n
    · rw [if_pos hargs, if_pos hargs]
      rfl
    rw [if_neg hargs] at h ⊢
    rw [if_neg hargs]
    by_cases hmax : maxDepth ≤ s.depth
    · rw [if_pos hmax]
      exact if_pos hmax
    rw [if_neg hmax] at h ⊢
    refine (if_neg hmax).trans ?_
    split
    · exact absurd rfl (h rfl)
    · exact enter_mapDevices f g _ _ _
    · exact construct_mapDevices f g _ _
    · rfl

/-- The clock is read without arguments, as long as calls are not nested too deeply. -/
theorem callValue_clock_eq_iff {args : List Value} {line : Nat} :
    callValue (.native .clock) args line k s = readClock k s ↔ args = [] ∧ s.depth < maxDepth := by
  refine ⟨fun h => ?_, fun ⟨hargs, hdepth⟩ => ?_⟩
  · simp only [callValue, arity?] at h
    split at h
    · cases h
    · next hargs =>
      split at h
      · cases h
      · next hdepth => exact ⟨List.eq_nil_of_length_eq_zero (not_not.mp hargs), by omega⟩
  · subst hargs
    have hdepth : ¬ maxDepth ≤ s.depth := by omega
    simp [callValue, arity?, hdepth]

theorem callWith_mapDevices {line : Nat} {callee : Value} {done : List Value} {rest : List Expr}
    (h : rest = [] → callee = .native .clock →
      callValue callee done.reverse line k s ≠ readClock k s) :
    callWith line callee done rest k (s.mapDevices f g) =
      (callWith line callee done rest k s).mapDevices f g := by
  cases rest with
  | nil => exact callValue_mapDevices f g (h rfl)
  | cons e es => rfl

theorem finishCall_mapDevices (result : CallResult) (v : Value) :
    finishCall result v k (s.mapDevices f g) = (finishCall result v k s).mapDevices f g := by
  simp only [finishCall, State.mapDevices]
  split <;> rfl

theorem evalStep_mapDevices (e : Expr) :
    evalStep e k (s.mapDevices f g) = (evalStep e k s).mapDevices f g := by
  cases e with
  | «variable» site name => exact readName_mapDevices f g _ _ _
  | this site line => exact readName_mapDevices f g _ _ _
  | super site line method => exact getSuper_mapDevices f g _ _ _
  | _ => rfl

theorem execStep_mapDevices (stmt : Stmt) :
    execStep stmt k (s.mapDevices f g) = (execStep stmt k s).mapDevices f g := by
  cases stmt with
  | var name init => cases init <;> rfl
  | block body =>
    let inner : State :=
      { s with store := s.store.addScope (some s.scope) [], scope := s.store.nextScope }
    exact sequence_mapDevices (s := inner) f g body
  | return_ line value => cases value <;> rfl
  | class_ name parent methods => cases parent <;> rfl
  | _ => rfl

theorem resume_mapDevices {v : Value} {frame : Frame}
    (hprint : Config.prints? ⟨.value v, frame :: k, s⟩ = none)
    (hclock : ¬ Config.ReadsClock ⟨.value v, frame :: k, s⟩) :
    resume v frame k (s.mapDevices f g) = (resume v frame k s).mapDevices f g := by
  cases frame with
  | print => cases hprint
  | callee line args =>
    refine callWith_mapDevices f g fun hargs hv hread => hclock ?_
    subst hargs hv
    exact ⟨[], line, k, .bare, hread⟩
  | argument line callee done rest =>
    refine callWith_mapDevices f g fun hrest hv hread => hclock ?_
    subst hrest hv
    exact ⟨_, line, k, .given, hread⟩
  | unary op line => exact giveOrRaise_mapDevices f g _ _
  | binaryRight op line left => exact giveOrRaise_mapDevices f g _ _
  | assign site name => exact writeName_mapDevices f g _ _ _
  | get name => exact getProperty_mapDevices f g _ _
  | sequence rest => exact sequence_mapDevices f g _
  | call outer result => exact finishCall_mapDevices (s := leaveCall outer s) f g _ _
  | logical op right =>
    simp only [resume]
    split <;> rfl
  | setObject name value => cases v <;> rfl
  | if_ then_ else_ =>
    simp only [resume]
    split
    · rfl
    · cases else_ <;> rfl
  | whileCondition condition body =>
    simp only [resume]
    split <;> rfl
  | superclass name line methods => cases v <;> rfl
  | program rest => cases rest <;> rfl
  | _ => rfl

theorem returnThrough_mapDevices (v : Value) (frame : Frame) :
    returnThrough v frame k (s.mapDevices f g) = (returnThrough v frame k s).mapDevices f g := by
  cases frame with
  | call outer result => exact finishCall_mapDevices (s := leaveCall outer s) f g _ _
  | _ => rfl

theorem failThrough_mapDevices (e : Failure) (frame : Frame) :
    failThrough e frame k (s.mapDevices f g) = (failThrough e frame k s).mapDevices f g := by
  cases frame <;> rfl

end Steps

/-- A step that reads the clock does so with any output and any clock. -/
theorem Config.ReadsClock.exists_step_eq {c : Config} (h : c.ReadsClock) (f : Output → Output)
    (g : Clock → Clock) : ∃ k, step c = readClock k c.state ∧
      step (c.mapDevices f g) = readClock k (c.state.mapDevices f g) := by
  obtain ⟨args, line, k, hcalls, hstep⟩ := h
  have hcalls' : (c.mapDevices f g).Calls (.native .clock) args line k := by
    cases hcalls
    · exact .bare
    · exact .given
  have hread := callValue_clock_eq_iff.mp (hcalls.step_eq.symm.trans hstep)
  exact ⟨k, hstep, hcalls'.step_eq.trans (callValue_clock_eq_iff.mpr hread)⟩

/-- A step that neither prints nor reads the clock does the same with any output and any clock. -/
theorem step_mapDevices {c : Config} (hprint : c.prints? = none) (hclock : ¬ c.ReadsClock)
    (f : Output → Output) (g : Clock → Clock) :
    step (c.mapDevices f g) = (step c).mapDevices f g := by
  obtain ⟨control, frames, s⟩ := c
  cases control with
  | eval e => exact evalStep_mapDevices f g e
  | exec stmt => exact execStep_mapDevices f g stmt
  | value v =>
    cases frames with
    | nil => rfl
    | cons frame k => exact resume_mapDevices f g hprint hclock
  | returning v =>
    cases frames with
    | nil => rfl
    | cons frame k => exact returnThrough_mapDevices f g v frame
  | failing e =>
    cases frames with
    | nil => rfl
    | cons frame k => exact failThrough_mapDevices f g e frame

/-- Every step does the same with devices that take the same lines and give the same readings. -/
theorem step_mapDevices_of_agrees {c : Config} {f : Output → Output} {g : Clock → Clock}
    (hf : ∀ line, (f c.state.output).print? line = (c.state.output.print? line).map f)
    (hg : c.ReadsClock → (g c.state.clock).now = c.state.clock.now ∧
      (g c.state.clock).next = g c.state.clock.next) :
    step (c.mapDevices f g) = (step c).mapDevices f g := by
  cases hp : c.prints? with
  | some line =>
    obtain ⟨v, k, s, rfl, rfl⟩ := Config.exists_eq_of_prints? hp
    simp only [step, resume, Config.mapDevices, State.mapDevices, hf]
    cases s.output.print? v.text <;> rfl
  | none =>
    by_cases hread : c.ReadsClock
    · obtain ⟨k, hstep, hother⟩ := hread.exists_step_eq f g
      obtain ⟨hnow, hnext⟩ := hg hread
      rw [hstep, hother]
      simp only [readClock, State.mapDevices, hnow, hnext]
      rfl
    · exact step_mapDevices hp hread f g

end LoxLang.Machine
