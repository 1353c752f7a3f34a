import LoxLang.Machine.Run

/-!
# Programs one after the other

A step looks at the frame on top and at no frame below it. So a machine that runs a program does the
same while more statements wait behind the last one, and comes to them if it does not fail.

## Main definitions

* `Config.above`: a configuration with more frames below its own.
* `Config.Settles`: there is a value or a failure for given frames.
* `Config.Ahead`: the same configuration, with more statements behind those of the program.

## Main results

* `step_above`: frames below do not matter to a step.
* `Config.Ahead.run`: the statements behind a program are reached.
-/

namespace LoxLang.Machine

/-! ## Frames below -/

/-- The frames `l` lie below all frames. -/
def Config.above (l : List Frame) (c : Config) : Config := { c with frames := c.frames ++ l }

section Steps

variable {k l : List Frame} {s : State}

theorem giveOrRaise_above (r : Except RuntimeError Value) (line : Nat) :
    giveOrRaise r line (k ++ l) s = (giveOrRaise r line k s).above l := by
  cases r <;> rfl

theorem sequence_above (body : List Stmt) : sequence body (k ++ l) s = (sequence body k s).above l := by
  cases body <;> rfl

theorem readName_above (site : Site) (name : String) (line : Nat) :
    readName site name line (k ++ l) s = (readName site name line k s).above l := by
  unfold readName
  repeat' split
  all_goals first | rfl | exact giveOrRaise_above _ _

theorem writeName_above (site : Site) (name : Name) (v : Value) :
    writeName site name v (k ++ l) s = (writeName site name v k s).above l := by
  unfold writeName
  repeat' split
  all_goals rfl

theorem getProperty_above (v : Value) (name : Name) :
    getProperty v name (k ++ l) s = (getProperty v name k s).above l := by
  unfold getProperty
  repeat' split
  all_goals rfl

theorem getSuper_above (site : Site) (line : Nat) (method : Name) :
    getSuper site line method (k ++ l) s = (getSuper site line method k s).above l := by
  unfold getSuper
  repeat' split
  all_goals rfl

theorem callValue_above (callee : Value) (args : List Value) (line : Nat) :
    callValue callee args line (k ++ l) s = (callValue callee args line k s).above l := by
  unfold callValue construct
  repeat' split
  all_goals first | rfl | exact sequence_above (k := _ :: k) _

theorem callWith_above (line : Nat) (callee : Value) (done : List Value) (rest : List Expr) :
    callWith line callee done rest (k ++ l) s = (callWith line callee done rest k s).above l := by
  cases rest with
  | nil => exact callValue_above _ _ _
  | cons e es => rfl

theorem finishCall_above (result : CallResult) (v : Value) :
    finishCall result v (k ++ l) s = (finishCall result v k s).above l := by
  unfold finishCall
  repeat' split
  all_goals rfl

theorem evalStep_above (e : Expr) : evalStep e (k ++ l) s = (evalStep e k s).above l := by
  cases e with
  | «variable» site name => exact readName_above _ _ _
  | this site line => exact readName_above _ _ _
  | super site line method => exact getSuper_above _ _ _
  | _ => rfl

theorem execStep_above (stmt : Stmt) : execStep stmt (k ++ l) s = (execStep stmt k s).above l := by
  cases stmt with
  | var name init => cases init <;> rfl
  | block body => exact sequence_above (k := .block s.scope :: k) body
  | return_ line value => cases value <;> rfl
  | class_ name parent methods => cases parent <;> rfl
  | _ => rfl

theorem resume_above (v : Value) (f : Frame) : resume v f (k ++ l) s = (resume v f k s).above l := by
  cases f with
  | unary op line => exact giveOrRaise_above _ _
  | binaryRight op line left => exact giveOrRaise_above _ _
  | assign site name => exact writeName_above _ _ _
  | callee line args => exact callWith_above _ _ _ _
  | argument line callee done rest => exact callWith_above _ _ _ _
  | get name => exact getProperty_above _ _
  | sequence rest => exact sequence_above _
  | call outer result => exact finishCall_above _ _
  | logical op right =>
    simp only [resume]
    split <;> rfl
  | setObject name value => cases v <;> rfl
  | print =>
    simp only [resume]
    split <;> rfl
  | if_ then_ else_ =>
    simp only [resume]
    split
    · rfl
    · cases else_ <;> rfl
  | whileCondition condition body =>
    simp only [resume]
    split <;> rfl
  | superclass name line methods => cases v <;> rfl
  | program rest => cases rest <;> rfl
  | _ => rfl

theorem returnThrough_above (v : Value) (f : Frame) :
    returnThrough v f (k ++ l) s = (returnThrough v f k s).above l := by
  cases f with
  | call outer result => exact finishCall_above _ _
  | _ => rfl

theorem failThrough_above (e : Failure) (f : Frame) :
    failThrough e f (k ++ l) s = (failThrough e f k s).above l := by
  cases f <;> rfl

end Steps

/-- Frames below do not matter to a step, unless the machine has ended and comes to them. -/
theorem step_above {c : Config} (h : c.isFinal = false) (l : List Frame) :
    step (c.above l) = (step c).above l := by
  obtain ⟨control, frames, s⟩ := c
  cases control with
  | eval e => exact evalStep_above e
  | exec stmt => exact execStep_above stmt
  | value v =>
    cases frames with
    | nil => cases h
    | cons f k => exact resume_above v f
  | returning v =>
    cases frames with
    | nil => cases h
    | cons f k => exact returnThrough_above v f
  | failing e =>
    cases frames with
    | nil => cases h
    | cons f k => exact failThrough_above e f

/-! ## Operations that are done at once -/

/-- There is a value or a failure for the frames `k`. -/
structure Config.Settles (k : List Frame) (c : Config) : Prop where
  frames : c.frames = k
  control : (∃ v, c.control = .value v) ∨ ∃ e, c.control = .failing e

section Settling

variable {k : List Frame} {s : State}

theorem settles_give (v : Value) : (give v k s).Settles k := ⟨rfl, .inl ⟨v, rfl⟩⟩

theorem settles_failing (e : Failure) : Config.Settles k ⟨.failing e, k, s⟩ := ⟨rfl, .inr ⟨e, rfl⟩⟩

theorem settles_giveOrRaise (r : Except RuntimeError Value) (line : Nat) :
    (giveOrRaise r line k s).Settles k := by
  cases r with
  | ok v => exact settles_give v
  | error e => exact settles_failing _

theorem settles_readName (site : Site) (name : String) (line : Nat) :
    (readName site name line k s).Settles k := by
  unfold readName
  split
  · split
    · exact settles_give _
    · exact settles_failing _
  · exact settles_giveOrRaise _ _

theorem settles_writeName (site : Site) (name : Name) (v : Value) :
    (writeName site name v k s).Settles k := by
  unfold writeName
  split <;> split
  · exact settles_give _
  · exact settles_failing _
  · exact settles_give _
  · exact settles_failing _

theorem settles_getProperty (v : Value) (name : Name) : (getProperty v name k s).Settles k := by
  unfold getProperty
  split
  · split
    · exact settles_give _
    · split
      · exact settles_give _
      · exact settles_failing _
  · exact settles_failing _

theorem settles_getSuper (site : Site) (line : Nat) (method : Name) :
    (getSuper site line method k s).Settles k := by
  unfold getSuper
  split
  · exact settles_failing _
  · split
    · exact settles_failing _
    · split
      · exact settles_give _
      · exact settles_failing _

theorem settles_finishCall (result : CallResult) (v : Value) :
    (finishCall result v k s).Settles k := by
  unfold finishCall
  split
  · exact settles_give _
  · exact settles_failing _

end Settling

/-! ## More statements -/

/-- The machine runs a program, and in the second configuration `q` waits behind its statements. -/
inductive Config.Ahead (q : Program) : Config → Config → Prop where
  | intro (c : Config) (r : Program) :
      Ahead q (c.above [.program r]) (c.above [.program (r ++ q)])

/-- What becomes of both in one step: they go on together, or the program has ended or failed. -/
theorem Config.Ahead.step {q : Program} {c c' : Config} (h : Ahead q c c') :
    Ahead q (step c) (step c') ∨
      (∃ v s, c = ⟨.value v, [.program []], s⟩ ∧ c' = ⟨.value v, [.program q], s⟩) ∨
        ∃ e r s, c = ⟨.failing e, [.program r], s⟩ := by
  obtain ⟨c, r⟩ := h
  cases hf : c.isFinal with
  | false =>
    rw [step_above hf, step_above hf]
    exact .inl (.intro _ r)
  | true =>
    obtain ⟨control, frames, s⟩ := c
    cases frames with
    | cons f k => cases control <;> cases hf
    | nil =>
      cases control with
      | eval e => cases hf
      | exec stmt => cases hf
      | failing e => exact .inr (.inr ⟨e, r, s, rfl⟩)
      | returning v => exact .inl (.intro ⟨.value .nil, [], s⟩ r)
      | value v =>
        cases r with
        | nil => exact .inr (.inl ⟨v, s, rfl, rfl⟩)
        | cons stmt r => exact .inl (.intro ⟨.exec stmt, [], s⟩ r)

/-- When the program ends without a failure, the statements behind it are next. -/
theorem Config.Ahead.run {q : Program} {c c' : Config} (h : Ahead q c c') {n : Nat}
    (ho : ∃ o, (run n c).outcome? = some o ∧ ∀ e, o ≠ .failed e) :
    ∃ d v, Machine.run d c' = ⟨.value v, [.program q], (Machine.run n c).state⟩ := by
  induction n generalizing c c' with
  | zero =>
    obtain ⟨⟨control, frames, s⟩, r⟩ := h
    obtain ⟨o, ho, -⟩ := ho
    cases control <;> cases frames <;> cases ho
  | succ n ih =>
    rw [run_succ] at ho ⊢
    obtain hstep | ⟨v, s, rfl, rfl⟩ | ⟨e, r, s, rfl⟩ := h.step
    · obtain ⟨d, v, hd⟩ := ih hstep ho
      exact ⟨d + 1, v, by rw [run_succ, hd]⟩
    · refine ⟨0, v, ?_⟩
      rw [run_of_isFinal (c := Machine.step ⟨.value v, [.program []], s⟩) rfl]
      rfl
    · obtain ⟨o, ho, hne⟩ := ho
      rw [run_of_isFinal (c := Machine.step ⟨.failing e, [.program r], s⟩) rfl] at ho
      cases ho
      exact absurd rfl (hne e)

end LoxLang.Machine
