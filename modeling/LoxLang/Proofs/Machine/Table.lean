import LoxLang.Machine.Run

/-!
# The table during a run

A running machine reads its table of bindings and never changes it.
-/

namespace LoxLang.Machine

@[simp] theorem table_giveOrRaise (r : Except RuntimeError Value) (line : Nat) (k : List Frame)
    (s : State) : (giveOrRaise r line k s).state.table = s.table := by
  cases r <;> rfl

@[simp] theorem table_sequence (body : List Stmt) (k : List Frame) (s : State) :
    (sequence body k s).state.table = s.table := by
  cases body <;> rfl

@[simp] theorem table_readName (site : Site) (name : String) (line : Nat) (k : List Frame)
    (s : State) : (readName site name line k s).state.table = s.table := by
  unfold readName
  repeat' split
  all_goals first | rfl | exact table_giveOrRaise _ _ _ _

@[simp] theorem table_writeName (site : Site) (name : Name) (v : Value) (k : List Frame)
    (s : State) : (writeName site name v k s).state.table = s.table := by
  unfold writeName
  repeat' split
  all_goals rfl

@[simp] theorem table_getProperty (v : Value) (name : Name) (k : List Frame) (s : State) :
    (getProperty v name k s).state.table = s.table := by
  unfold getProperty
  repeat' split
  all_goals rfl

@[simp] theorem table_getSuper (site : Site) (line : Nat) (method : Name) (k : List Frame)
    (s : State) : (getSuper site line method k s).state.table = s.table := by
  unfold getSuper
  repeat' split
  all_goals rfl

@[simp] theorem table_callValue (callee : Value) (args : List Value) (line : Nat) (k : List Frame)
    (s : State) : (callValue callee args line k s).state.table = s.table := by
  unfold callValue construct
  repeat' split
  all_goals first | rfl | exact table_sequence _ _ _

@[simp] theorem table_callWith (line : Nat) (callee : Value) (done : List Value) (rest : List Expr)
    (k : List Frame) (s : State) : (callWith line callee done rest k s).state.table = s.table := by
  cases rest with
  | nil => exact table_callValue _ _ _ _ _
  | cons e es => rfl

@[simp] theorem table_finishCall (result : CallResult) (v : Value) (k : List Frame) (s : State) :
    (finishCall result v k s).state.table = s.table := by
  unfold finishCall
  repeat' split
  all_goals rfl

@[simp] theorem table_declareClass (name : Name) (parent : Option Class) (methods : List Routine)
    (s : State) : (declareClass name parent methods s).table = s.table := by
  cases parent <;> rfl

theorem table_evalStep (e : Expr) (k : List Frame) (s : State) :
    (evalStep e k s).state.table = s.table := by
  cases e <;> simp [evalStep, give]

theorem table_execStep (stmt : Stmt) (k : List Frame) (s : State) :
    (execStep stmt k s).state.table = s.table := by
  unfold execStep
  split <;> simp [give, State.define]

theorem table_resume (v : Value) (f : Frame) (k : List Frame) (s : State) :
    (resume v f k s).state.table = s.table := by
  unfold resume
  repeat' split
  all_goals simp [give, raise, State.define, leaveCall]

/-- The table stays the same while a machine runs. -/
theorem table_step (c : Config) : (step c).state.table = c.state.table := by
  obtain ⟨control, frames, s⟩ := c
  cases control with
  | eval e => exact table_evalStep e frames s
  | exec stmt => exact table_execStep stmt frames s
  | value v =>
    cases frames with
    | nil => rfl
    | cons f k => exact table_resume v f k s
  | returning v =>
    cases frames with
    | nil => rfl
    | cons f k => cases f <;> simp [step, returnThrough, leaveCall]
  | failing e =>
    cases frames with
    | nil => rfl
    | cons f k => cases f <;> rfl

theorem table_run (n : Nat) (c : Config) : (run n c).state.table = c.state.table := by
  induction n generalizing c with
  | zero => rfl
  | succ n ih => rw [run_succ, ih, table_step]

end LoxLang.Machine
