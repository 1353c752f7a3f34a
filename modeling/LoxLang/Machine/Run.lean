import LoxLang.Machine.Step

/-!
# Runs

A run takes steps until the machine has ended or a given number of steps is used up. A run that is
not finished can go on from where it stopped, with another clock and after what it has printed was
taken away.
-/

namespace LoxLang.Machine

/-- How a machine has ended. -/
inductive Outcome where
  | value (v : Value)
  | returned (v : Value)
  | failed (f : Failure)

namespace Config

/-- Whether the machine has ended. -/
def isFinal : Config → Bool
  | ⟨.value _, [], _⟩ => true
  | ⟨.returning _, [], _⟩ => true
  | ⟨.failing _, [], _⟩ => true
  | _ => false

/-- The outcome, if the machine has ended. -/
def outcome? : Config → Option Outcome
  | ⟨.value v, [], _⟩ => some (.value v)
  | ⟨.returning v, [], _⟩ => some (.returned v)
  | ⟨.failing f, [], _⟩ => some (.failed f)
  | _ => none

end Config

/-- Takes `n` steps, or fewer if the machine has ended before. -/
def run : Nat → Config → Config
  | 0, c => c
  | n + 1, c => if c.isFinal then c else run n (step c)

theorem Config.isFinal_eq_isSome_outcome? (c : Config) : c.isFinal = c.outcome?.isSome := by
  rcases c with ⟨control, frames, state⟩
  cases control <;> cases frames <;> rfl

theorem step_of_isFinal {c : Config} (h : c.isFinal) : step c = c := by
  rcases c with ⟨control, frames, state⟩
  cases control <;> cases frames <;> simp_all [Config.isFinal, step]

theorem run_of_isFinal {c : Config} (h : c.isFinal) (n : Nat) : run n c = c := by
  cases n <;> simp [run, h]

/-- A run takes all its steps: those after the end change nothing. -/
theorem run_succ (n : Nat) (c : Config) : run (n + 1) c = run n (step c) := by
  rw [run]
  split
  · next h => rw [step_of_isFinal h, run_of_isFinal h]
  · rfl

/-- A run can be cut into two. -/
theorem run_add (m n : Nat) (c : Config) : run (m + n) c = run n (run m c) := by
  induction m generalizing c with
  | zero => simp [run]
  | succ m ih => rw [Nat.succ_add, run_succ, run_succ, ih]

/-- Forgets the text printed so far and sets the clock. -/
def Config.renew (reading : Nat → Float) (c : Config) : Config :=
  { c with state := { c.state.setClock reading with output := c.state.output.clear } }

/-- A stretch of a run that is watched: before it takes its steps, the machine is renewed. -/
def stretch (n : Nat) (reading : Nat → Float) (c : Config) : Config := run n (c.renew reading)

namespace State

/-- Ready to evaluate an expression. -/
def evaluating (s : State) (e : Expr) : Config := ⟨.eval e, [], s⟩

/-- Ready to execute a statement. -/
def executing (s : State) (stmt : Stmt) : Config := ⟨.exec stmt, [], s⟩

/-- Ready to execute the statements of a program. A `return` at the top level ends its statement. -/
def interpreting (s : State) (p : Program) : Config := ⟨.value .nil, [.program p], s⟩

end State

end LoxLang.Machine
