import LoxLang.Proofs.Machine.Restoration
import LoxLang.Proofs.Session.Safety

/-!
# Between statements

Whatever a statement ended with, the next one of a session starts in the global scope and outside of
all calls. It would make no difference to go back there explicitly after a failure.

## Main definitions

* `Machine.Config.AtTopLevel`: no statement is under way.
* `Session.interpretResetting`: a run that goes back to the global scope after a failure.
-/

namespace LoxLang

open Machine

namespace Machine

/-- No statement is under way: at most the statements of the top level that follow are waiting. -/
def Config.AtTopLevel (c : Config) : Prop := c.frames = [] ∨ ∃ rest, c.frames = [.program rest]

theorem Config.AtTopLevel.isScoped_eq_false {c : Config} (h : c.AtTopLevel) :
    ∀ f ∈ c.frames, f.isScoped = false := by
  obtain h | ⟨rest, h⟩ := h <;> simp [h, Frame.isScoped]

/-- The global scope becomes current and no call is counted. -/
def State.reset (s : State) : State := { s with scope := globalScope, depth := 0 }

theorem State.reset_eq_self {s : State} (hs : s.scope = globalScope) (hd : s.depth = 0) :
    s.reset = s := by
  rw [reset, ← hs, ← hd]

end Machine

namespace Session

/-- The machine is in the global scope and outside of all calls. -/
structure AtHome (s : Session) : Prop where
  scope : s.machine.scope = globalScope
  depth : s.machine.depth = 0

theorem Reachable.atHome {s : Session} (h : s.Reachable) : s.AtHome :=
  ⟨h.sound.scope, h.sound.depth⟩

namespace AtHome

variable {s : Session}

theorem readProgram (h : s.AtHome) (source : String) (tied : Bool) :
    (s.readProgram source tied).2.AtHome := by
  obtain ⟨table, hm⟩ := s.exists_machine_readProgram source tied
  exact ⟨hm ▸ h.scope, hm ▸ h.depth⟩

/-- Frames that are put on an empty stack lead back to the global scope. -/
theorem rests (h : s.AtHome) : s.machine.Rests globalScope 0 [] := by
  have hself := s.machine.rests_self
  rwa [h.scope, h.depth] at hself

theorem rests_interpreting (h : s.AtHome) (p : Program) :
    (s.machine.interpreting p).Rests globalScope 0 :=
  h.rests.push rfl

theorem of_outcome? {c : Config} (hc : c.Rests globalScope 0) {o : Outcome}
    (ho : c.outcome? = some o) : AtHome { s with machine := c.state } := by
  obtain ⟨hscope, hdepth⟩ := hc.eq_of_isFinal (Config.isFinal_of_outcome? ho)
  exact ⟨hscope, hdepth⟩

theorem rests_of_mem_statementStarts {steps : Nat} {p : Program} (h : s.AtHome) {c : Config}
    (hc : c ∈ s.statementStarts steps p) : c.Rests globalScope 0 := by
  induction p generalizing s with
  | nil => cases hc
  | cons stmt rest ih =>
    have hfirst : (s.machine.executing stmt).Rests globalScope 0 := h.rests
    rw [statementStarts] at hc
    rcases List.mem_cons.mp hc with rfl | hc
    · exact hfirst
    · -- The statements that follow are started when this one has ended.
      unfold continueWith at hc
      cases ho : (Machine.run steps (s.machine.executing stmt)).outcome? with
      | none => simp [ho] at hc
      | some o =>
        have hnext := of_outcome? (s := s) (hfirst.run steps) ho
        cases o with
        | value v =>
          simp only [ho] at hc
          exact ih hnext hc
        | returned v =>
          simp only [ho] at hc
          exact ih hnext hc
        | failed f => simp [ho] at hc

theorem rests_of_mem_starts {steps : Nat} {r : Request} (h : s.AtHome) {c : Config}
    (hc : c ∈ s.starts steps r) : c.Rests globalScope 0 := by
  cases r with
  | evaluate source =>
    unfold starts at hc
    cases hread : s.readExpression source with
    | mk result s' =>
      have hs' : s'.machine = s.machine := (congrArg (·.2.machine) hread).symm
      cases result with
      | error r => simp [hread] at hc
      | ok e =>
        obtain rfl : c = s'.machine.evaluating e := by simpa [hread] using hc
        rw [hs']
        exact h.rests
  | interpret source tied =>
    have hhome := h.readProgram source tied
    unfold starts at hc
    cases hread : s.readProgram source tied with
    | mk result s' =>
      rw [hread] at hhome
      cases result with
      | error r => simp [hread] at hc
      | ok p =>
        obtain rfl : c = s'.machine.interpreting p := by simpa [hread] using hc
        exact hhome.rests_interpreting p
  | execute source tied =>
    have hhome := h.readProgram source tied
    unfold starts at hc
    cases hread : s.readProgram source tied with
    | mk result s' =>
      rw [hread] at hhome
      cases result with
      | error r => simp [hread] at hc
      | ok p =>
        simp only [hread] at hc
        exact hhome.rests_of_mem_statementStarts hc

end AtHome

/-! ## Going back after a failure -/

/-- Runs a source as a program. After a failure the global scope is made current explicitly. -/
def interpretResetting (steps : Nat) (s : Session) (source : String) (tied : Bool) :
    Report × Session :=
  match s.readProgram source tied with
  | (.error r, s) => (.rejected r, s)
  | (.ok p, s) =>
    let c := Machine.run steps (s.machine.interpreting p)
    match c.outcome? with
    | some (.failed _) => s.continueWith { c with state := c.state.reset }
    | _ => s.continueWith c

/-- A machine that failed is back in the global scope already. -/
theorem reset_of_failed {c : Config} (hc : c.Rests globalScope 0) {f : Failure}
    (h : c.outcome? = some (.failed f)) : c.state.reset = c.state := by
  obtain ⟨hscope, hdepth⟩ := hc.eq_of_isFinal (Config.isFinal_of_outcome? h)
  exact State.reset_eq_self hscope hdepth

theorem AtHome.interpretResetting_eq {s : Session} (h : s.AtHome) (steps : Nat) (source : String)
    (tied : Bool) : s.interpretResetting steps source tied = s.interpret steps source tied := by
  have hhome := h.readProgram source tied
  unfold interpretResetting interpret
  cases hread : s.readProgram source tied with
  | mk result s' =>
    rw [hread] at hhome
    cases result with
    | error r => rfl
    | ok p =>
      have hrun := (hhome.rests_interpreting p).run steps
      dsimp only
      split
      · next f ho => rw [reset_of_failed hrun ho]
      · rfl

/-- An evaluation, however it ends, leaves the current scope, the depth and the table as they were,
and calls never nest deeper than `maxDepth`. So between the statements of the top level a session is
in the global scope and outside of all calls, also after failures, and going back explicitly changes
nothing. -/
theorem evaluation_restores_machine :
    (∀ (m : State) (c : Config), m.Starts c → ∀ n,
      (Machine.run n c).state.depth ≤ max m.depth maxDepth ∧
        ((Machine.run n c).isFinal → (Machine.run n c).state.scope = m.scope ∧
          (Machine.run n c).state.depth = m.depth ∧ (Machine.run n c).state.table = m.table)) ∧
    ∀ s : Session, s.Reachable → ∀ steps,
      (∀ r, ∀ c ∈ s.starts steps r, ∀ n, (Machine.run n c).state.depth ≤ maxDepth ∧
        ((Machine.run n c).AtTopLevel →
          (Machine.run n c).state.scope = globalScope ∧ (Machine.run n c).state.depth = 0)) ∧
      ∀ source tied, s.interpretResetting steps source tied = s.interpret steps source tied := by
  refine ⟨fun m c hc n => ?_, fun s hs steps => ⟨fun r c hc n => ?_, fun source tied => ?_⟩⟩
  · have hrun := hc.rests.run n
    refine ⟨hrun.bound, fun hfinal => ?_⟩
    obtain ⟨hscope, hdepth⟩ := hrun.eq_of_isFinal hfinal
    exact ⟨hscope, hdepth, (table_run n c).trans hc.table⟩
  · have hrun := (hs.atHome.rests_of_mem_starts hc).run n
    refine ⟨by simpa using hrun.bound, fun htop => ?_⟩
    exact hrun.eq_of_forall htop.isScoped_eq_false
  · exact hs.atHome.interpretResetting_eq steps source tied

/-- A function fails within a block; it is called again, by itself and in a later source. -/
theorem evaluation_restores_machine_failed :
    let failed := ((Session.start (.steady 0) none).perform 80
      (.interpret "fun f(a){{var b=a;b.c;}}f(nil);" true)).2
    let again := failed.machine.executing
      (.expression (.call (.variable 9 ⟨"f", 1⟩) 1 [.literal .nil]))
    let source := "{f(nil);}"
    ((Machine.run 40 again).isFinal ∧ (Machine.run 40 again).state.scope = failed.machine.scope ∧
      (Machine.run 40 again).state.depth = failed.machine.depth ∧
        (Machine.run 40 again).state.table = failed.machine.table) ∧
    (failed.starts 80 (.interpret source true)).length = 1 ∧
      (∀ c ∈ failed.starts 80 (.interpret source true), ∀ n,
        (Machine.run n c).state.depth ≤ maxDepth) ∧
      (failed.interpret 80 source true).1.verdict = .failed (.error .noProperties 1) ∧
        failed.interpretResetting 80 source true = failed.interpret 80 source true := by
  intro failed again source
  have hreachable : failed.Reachable := .perform (.start (.steady 0) none) (by decide +kernel)
  have hfinal : (Machine.run 40 again).isFinal := by decide +kernel
  obtain ⟨hevaluation, hsession⟩ := evaluation_restores_machine
  obtain ⟨hstarts, hreset⟩ := hsession failed hreachable 80
  exact ⟨⟨hfinal, (hevaluation failed.machine again (.execute _) 40).2 hfinal⟩, by decide +kernel,
    fun c hc n => (hstarts _ c hc n).1, by decide +kernel, hreset source true⟩

end Session

end LoxLang
