import LoxLang.Session

/-!
# Histories of sessions

Sources that are run one after the other, and what can be seen of each run.
-/

namespace LoxLang.Session

def Report.isFinished : Report → Bool
  | .unfinished => false
  | _ => true

/-- A source is read and analysed; if both succeed, its ties are added and the program is run. -/
theorem run_eq (steps : Nat) (s : Session) (source : String) : s.run steps source =
    match readSource Grammar.readProgram source s.nextSite with
    | (.error r, next) => (.rejected r, { s with nextSite := next })
    | (.ok p, next) =>
      match Scoping.analyse p with
      | .error ds => (.rejected (.illScoped ds), { s with nextSite := next })
      | .ok ties =>
        let machine := s.machine.addBindings ties
        continueWith ⟨machine, next⟩ (Machine.run steps (machine.interpreting p)) := by
  unfold run interpret readProgram
  cases readSource Grammar.readProgram source s.nextSite with
  | mk result next =>
    cases result with
    | error r => rfl
    | ok p => cases h : Scoping.analyse p <;> simp [h]

/-- Reading a program changes nothing in the machine but its table. -/
theorem exists_machine_readProgram (s : Session) (source : String) (tied : Bool) :
    ∃ table, (s.readProgram source tied).2.machine = { s.machine with table := table } := by
  unfold readProgram
  dsimp only
  split
  · exact ⟨s.machine.table, rfl⟩
  · split
    · split
      · exact ⟨s.machine.table, rfl⟩
      · next ties _ => exact ⟨s.machine.table.insertAll ties, rfl⟩
    · exact ⟨s.machine.table, rfl⟩

theorem readSource_of_readProgram {s : Session} {source : String} {tied : Bool} {p : Program}
    (h : (s.readProgram source tied).1 = .ok p) :
    (readSource Grammar.readProgram source s.nextSite).1 = .ok p := by
  unfold readProgram at h
  dsimp only at h
  split at h
  · cases h
  · next q hq =>
    rw [hq]
    split at h
    · split at h
      · cases h
      · exact h
    · exact h

theorem exists_outcome?_of_isFinished {s : Session} {c : Machine.Config}
    (h : (s.continueWith c).1.isFinished) : ∃ o, c.outcome? = some o := by
  unfold continueWith at h
  cases ho : c.outcome? with
  | none => simp [ho, Report.isFinished] at h
  | some o => exact ⟨o, rfl⟩

/-- What can be seen of a run, beside its output: nobody looks at the value of a program. -/
inductive Verdict where
  | rejected (r : Rejection)
  | ok
  | failed (f : Failure)
  | unfinished
  deriving DecidableEq, Repr

def Report.verdict : Report → Verdict
  | .rejected r => .rejected r
  | .ended (.failed f) => .failed f
  | .ended _ => .ok
  | .unfinished => .unfinished

/-- Runs sources one after the other, each with its own number of steps. -/
def runEach {σ : Type} (run : Nat → σ → String → Report × σ) (s : σ) :
    List (Nat × String) → List Report × σ
  | [] => ([], s)
  | (steps, source) :: rest =>
    let (report, s) := run steps s source
    let (reports, s) := runEach run s rest
    (report :: reports, s)

theorem runEach_append {σ : Type} (run : Nat → σ → String → Report × σ) (s : σ)
    (first rest : List (Nat × String)) :
    (runEach run s (first ++ rest)).2 = (runEach run (runEach run s first).2 rest).2 := by
  induction first generalizing s with
  | nil => rfl
  | cons entry first ih => exact ih _

end LoxLang.Session
