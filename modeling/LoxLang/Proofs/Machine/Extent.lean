import LoxLang.Proofs.Machine.Effects
import LoxLang.Proofs.Machine.Restoration
import LoxLang.Proofs.Machine.Sequencing

/-!
# Calls while they run

A call that is made above some frames runs as it would above none, until it gives its value to them.
So what a call gives can be read off its run on its own: a body ends in one of three ways, and the
frame of the call says what becomes of it.

## Main definitions

* `Config.StaysAbove`: some frames are not touched for a number of steps.
* `Config.Gives`: an evaluation above some frames ends with a value.

## Main results

* `Config.Calls.run_eq`: a call runs above other frames as it does alone.
* `exists_finishCall`: the value of a call is what the frame of the call makes of its body's end.
-/

namespace LoxLang.Machine

/-! ## Above other frames -/

/-- For `n` steps there are always frames above `k`. -/
def Config.StaysAbove (k : List Frame) (n : Nat) (c : Config) : Prop :=
  ∀ j < n, k.length < (run j c).frames.length

/-- After `n` steps the frames `k` are reached for the first time, with a value for them. -/
structure Config.Gives (k : List Frame) (n : Nat) (v : Value) (c : Config) : Prop where
  above : c.StaysAbove k n
  frames : (run n c).frames = k
  control : (run n c).control = .value v

variable {c : Config} {k : List Frame} {n : Nat}

theorem run_succ' (n : Nat) (c : Config) : run (n + 1) c = step (run n c) := by
  rw [run_add]
  exact run_succ 0 _

theorem Config.above_above (c : Config) (l l' : List Frame) :
    (c.above l).above l' = c.above (l ++ l') := by
  simp [Config.above]

theorem Config.above_injective {c c' : Config} {l : List Frame} (h : c.above l = c'.above l) :
    c = c' := by
  obtain ⟨control, frames, s⟩ := c
  obtain ⟨control', frames', s'⟩ := c'
  simpa [Config.above] using h

theorem Config.StaysAbove.tail (h : c.StaysAbove k (n + 1)) : (step c).StaysAbove k n := by
  intro j hj
  rw [← run_succ]
  exact h (j + 1) (Nat.succ_lt_succ hj)

theorem Config.isFinal_eq_false_of_above (h : k.length < (c.above k).frames.length) :
    c.isFinal = false := by
  cases hf : c.isFinal with
  | false => rfl
  | true => simp [Config.above, Config.frames_eq_nil_of_isFinal hf] at h

theorem run_above (h : (c.above k).StaysAbove k n) : run n (c.above k) = (run n c).above k := by
  induction n with
  | zero => rfl
  | succ n ih =>
    have ih := ih fun j hj => h j (Nat.lt_succ_of_lt hj)
    have hn := h n (Nat.lt_succ_self n)
    rw [ih] at hn
    rw [run_succ', run_succ', ih, step_above (Config.isFinal_eq_false_of_above hn)]

/-- An evaluation that ends does so above other frames too. -/
theorem exists_run_above (h : (run n c).isFinal) (l : List Frame) :
    ∃ d ≤ n, run d (c.above l) = (run n c).above l := by
  induction n generalizing c with
  | zero => exact ⟨0, Nat.le_refl 0, rfl⟩
  | succ n ih =>
    cases hf : c.isFinal with
    | true =>
      rw [run_of_isFinal hf]
      exact ⟨0, Nat.zero_le _, rfl⟩
    | false =>
      rw [run_succ] at h ⊢
      obtain ⟨d, hd, hrun⟩ := ih h
      refine ⟨d + 1, Nat.succ_le_succ hd, ?_⟩
      rw [run_succ, step_above hf, hrun]

/-- One that has not ended yet goes on above other frames as it does alone. -/
theorem run_above_of_not_isFinal (h : (run n c).isFinal = false) (l : List Frame) :
    run n (c.above l) = (run n c).above l := by
  induction n generalizing c with
  | zero => rfl
  | succ n ih =>
    have hf : c.isFinal = false := by
      by_contra hf
      rw [run_of_isFinal (by simpa using hf)] at h
      exact hf h
    rw [run_succ] at h
    rw [run_succ, run_succ, step_above hf, ih h]

/-! ## Calls -/

section Calls

variable {callee : Value} {args : List Value} {line : Nat}

theorem Config.Calls.run_eq (hc : c.Calls callee args line k) (h : c.StaysAbove k (n + 1)) :
    run (n + 1) c = (run n (callValue callee args line [] c.state)).above k := by
  have hstep : step c = (callValue callee args line [] c.state).above k :=
    hc.step_eq.trans (callValue_above (k := []) callee args line)
  have htail := h.tail
  rw [hstep] at htail
  rw [run_succ, hstep, run_above htail]

theorem Config.Calls.frames_ne (hc : c.Calls callee args line k) : c.frames ≠ k := by
  cases hc with
  | bare => exact List.cons_ne_self _ _
  | given => exact List.cons_ne_self _ _

/-- What a call gives above other frames is its outcome alone, and its state is the same. -/
theorem Config.Calls.outcome?_of_gives (hc : c.Calls callee args line k) {v : Value}
    (h : c.Gives k n v) : ∃ m, (run m (callValue callee args line [] c.state)).outcome? =
      some (.value v) ∧ (run m (callValue callee args line [] c.state)).state = (run n c).state := by
  cases n with
  | zero => exact absurd h.frames hc.frames_ne
  | succ m =>
    have hrun := hc.run_eq h.above
    have hframes := h.frames
    have hcontrol := h.control
    refine ⟨m, ?_, by rw [hrun]; rfl⟩
    rw [hrun] at hframes hcontrol
    generalize run m (callValue callee args line [] c.state) = d at hframes hcontrol
    obtain ⟨control, frames, s⟩ := d
    obtain rfl : frames = [] := by simpa [Config.above] using hframes
    obtain rfl : control = .value v := hcontrol
    rfl

theorem Config.eq_of_outcome? {v : Value} (h : c.outcome? = some (.value v)) :
    c = ⟨.value v, [], c.state⟩ := by
  obtain ⟨control, frames, s⟩ := c
  cases frames <;> cases control <;> cases h
  rfl

/-- A call that has ended gives its value, or fails, at once. -/
theorem isFinal_finishCall (result : CallResult) (w : Value) (s : State) :
    (finishCall result w [] s).isFinal ∧ (finishCall result w [] s).state = s := by
  unfold finishCall
  split <;> exact ⟨rfl, rfl⟩

theorem finishCall_eq_of_outcome? {result : CallResult} {w v : Value} {s : State}
    (h : (run n (finishCall result w [] s)).outcome? = some (.value v)) :
    finishCall result w [] (run n (finishCall result w [] s)).state =
      ⟨.value v, [], (run n (finishCall result w [] s)).state⟩ := by
  obtain ⟨hfinal, hstate⟩ := isFinal_finishCall result w s
  rw [run_of_isFinal hfinal] at h ⊢
  rw [hstate, Config.eq_of_outcome? h, hstate]

/-- If a call gives a value, its body has come to its end, and the value is what the frame of the call
makes of that. -/
theorem exists_finishCall {outer : ScopeId} {result : CallResult} {v : Value}
    (h : (run n (c.above [.call outer result])).outcome? = some (.value v)) :
    ∃ w, finishCall result w [] (run n (c.above [.call outer result])).state =
      ⟨.value v, [], (run n (c.above [.call outer result])).state⟩ := by
  induction n generalizing c with
  | zero =>
    obtain ⟨control, frames, s⟩ := c
    cases frames <;> cases control <;> cases h
  | succ n ih =>
    rw [run_succ] at h ⊢
    cases hf : c.isFinal with
    | false =>
      rw [step_above hf] at h ⊢
      exact ih h
    | true =>
      obtain ⟨control, frames, s⟩ := c
      obtain rfl : frames = [] := Config.frames_eq_nil_of_isFinal hf
      cases control with
      | eval e => cases hf
      | exec stmt => cases hf
      | value w => exact ⟨.nil, finishCall_eq_of_outcome? h⟩
      | returning w => exact ⟨w, finishCall_eq_of_outcome? h⟩
      | failing e =>
        have hfail : (run n ⟨.failing e, [], leaveCall outer s⟩).outcome? = some (.value v) := h
        rw [run_of_isFinal rfl] at hfail
        cases hfail

/-- A body that is entered runs above the frame of its call, and the call has a value when it ends. -/
theorem exists_value_of_enter {f : Closure} {result : CallResult} {s : State} {v : Value}
    (h : (run n (enter f args result [] s)).outcome? = some (.value v)) :
    ∃ w, result.value (run n (enter f args result [] s)).state.store w = .ok v := by
  obtain ⟨c, hc⟩ : ∃ c : Config, enter f args result [] s = c.above [.call s.scope result] :=
    ⟨_, sequence_above (k := []) (l := [.call s.scope result]) f.routine.body⟩
  rw [hc] at h ⊢
  obtain ⟨w, hw⟩ := exists_finishCall h
  unfold finishCall at hw
  split at hw
  · next u hu =>
    cases hw
    exact ⟨w, hu⟩
  · cases hw

theorem construct_of_eq_none {own : Class} (h : own.method? Routine.initName = none)
    (args : List Value) (k : List Frame) (s : State) : construct own args k s =
      give (.object s.store.nextObject own) k { s with store := s.store.addObject } := by
  simp [construct, h]

/-- The frame of a call that initializes an object knows the object. -/
theorem construct_of_eq_some {own : Class} {m : Closure} (h : own.method? Routine.initName = some m)
    (args : List Value) (k : List Frame) (s : State) : construct own args k s =
      enter { m with scope := s.store.nextScope } args
        (.given (resultOf { m with scope := s.store.nextScope }) (.object s.store.nextObject own)) k
        { s with store := s.store.addObject.addScope (some m.scope)
                   [(Keyword.this.spelling, .object s.store.nextObject own)] } := by
  simp only [construct, h]
  rfl

end Calls

/-! ## Calls, computed -/

/-- The call that the next step makes: what is called, the arguments, the line, the frames below. -/
def Config.call? : Config → Option (Value × List Value × Nat × List Frame)
  | ⟨.value callee, .callee line [] :: k, _⟩ => some (callee, [], line, k)
  | ⟨.value v, .argument line callee done [] :: k, _⟩ => some (callee, (v :: done).reverse, line, k)
  | _ => none

theorem Config.calls_of_call? {callee : Value} {args : List Value} {line : Nat}
    (h : c.call? = some (callee, args, line, k)) : c.Calls callee args line k := by
  unfold call? at h
  split at h
  · cases h
    exact .bare
  · cases h
    exact .given
  · cases h

def Control.value? : Control → Option Value
  | .value v => some v
  | _ => none

/-- The value that the frame on top is replaced by after `n` steps. -/
def Config.given? (n : Nat) (c : Config) : Option Value :=
  if (∀ j < n, c.frames.length ≤ (run j c).frames.length) ∧
      (run n c).frames.length + 1 = c.frames.length then (run n c).control.value?
  else none

theorem Config.Calls.gives_of_given? {callee : Value} {args : List Value} {line : Nat}
    (hc : c.Calls callee args line k) {v : Value} (h : c.given? n = some v) : c.Gives k n v := by
  have hlength : c.frames.length = k.length + 1 := by cases hc <;> rfl
  unfold given? at h
  split at h
  · next hn =>
    have habove : c.StaysAbove k n := fun j hj => by
      have := hn.1 j hj
      omega
    refine ⟨habove, ?_, ?_⟩
    · cases n with
      | zero => exact absurd hn.2 (by simp [run])
      | succ n =>
        have hnil : (run n (callValue callee args line [] c.state)).frames = [] := by
          have hframes := hn.2
          rw [hc.run_eq habove, hlength] at hframes
          simp only [Config.above, List.length_append] at hframes
          exact List.eq_nil_of_length_eq_zero (by omega)
        simp [hc.run_eq habove, Config.above, hnil]
    · generalize (run n c).control = control at h
      cases control <;> cases h
      rfl
  · cases h

end LoxLang.Machine
