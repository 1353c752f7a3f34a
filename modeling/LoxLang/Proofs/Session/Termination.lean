import LoxLang.Proofs.Grammar.Acceptance
import LoxLang.Proofs.Machine.Termination
import LoxLang.Proofs.Session.Restoration
import LoxLang.Proofs.Session.Split

/-!
# Sources without loops

All routines that a session holds come from the sources that were run in it. When none of these has
a loop, neither has a routine, so that a further source without loops always ends.

## Main definitions

* `Session.ReachableBy`: the sessions that finished requests for sources of some kind lead to.
-/

namespace LoxLang

open Machine

namespace Session

/-- The sessions that requests lead to when every run of the machine ends and every source has a
property. -/
inductive ReachableBy (P : String → Prop) : Session → Prop where
  | start (clock : Clock) (room : Option Room) : ReachableBy P (.start clock room)
  | clearOutput : ReachableBy P s → ReachableBy P s.clearOutput
  | setClock (reading : Nat → Float) : ReachableBy P s → ReachableBy P (s.setClock reading)
  | perform : ReachableBy P s → P r.source →
      (∀ report ∈ (s.perform steps r).1, report.isFinished) → ReachableBy P (s.perform steps r).2

theorem ReachableBy.reachable {P : String → Prop} {s : Session} (h : s.ReachableBy P) :
    s.Reachable := by
  induction h with
  | start clock room => exact .start clock room
  | clearOutput _ ih => exact .clearOutput ih
  | setClock reading _ ih => exact .setClock reading ih
  | perform _ _ hf ih => exact .perform ih hf

/-! ## Routines of a session -/

theorem Compiles.exists_readProgram {s : Session} {source : String} (h : s.Compiles source) :
    ∃ p s', s.readProgram source true = (.ok p, s') := by
  unfold Compiles at h
  cases hread : s.readProgram source true with
  | mk result s' =>
    rw [hread] at h
    cases result with
    | error r => cases h
    | ok p => exact ⟨p, s', rfl⟩

theorem allRoutines_start {P : Routine → Prop} (clock : Clock) (room : Option Room) :
    (start clock room).machine.store.AllRoutines P := by
  have hempty : Store.empty.AllRoutines P := by
    constructor
    · intro scope name v hv
      simp [Store.lookup?, Store.empty] at hv
    · intro id name v hv
      simp [Store.field?, Store.empty] at hv
  exact hempty.addScope_single none "clock" (v := .native .clock) trivial

/-- Without a fault of the machine there is no failure, a runtime error or no room for the output. -/
theorem Report.verdict_ended {o : Outcome} (h : ∀ f, Report.ended o ≠ .ended (.failed (.fault f))) :
    (Report.ended o).verdict = .ok ∨
      (∃ e line, (Report.ended o).verdict = .failed (.error e line)) ∨ o = .failed .outputFull := by
  cases o with
  | value v => exact .inl rfl
  | returned v => exact .inl rfl
  | failed f =>
    cases f with
    | error e line => exact .inr (.inl ⟨e, line, rfl⟩)
    | fault f => exact absurd rfl (h f)
    | outputFull => exact .inr (.inr rfl)

section Requests

variable {s : Session} {bound : Nat}

/-- There is a bound for what a session holds and what is read from a source without loops. -/
theorem exists_within_readProgram (hs : s.machine.store.AllRoutines (Routine.Within bound))
    {source : String} (hsource : LoopFree source) (tied : Bool) :
    ∃ bound, (s.readProgram source tied).2.machine.store.AllRoutines (Routine.Within bound) ∧
      ∀ p, (s.readProgram source tied).1 = .ok p → ∀ stmt ∈ p, stmt.Within bound := by
  obtain ⟨table, hm⟩ := s.exists_machine_readProgram source tied
  have hstore : (s.readProgram source tied).2.machine.store = s.machine.store := by rw [hm]
  cases hp : (s.readProgram source tied).1 with
  | error r => exact ⟨bound, hstore ▸ hs, nofun⟩
  | ok p =>
    have hread := Grammar.composes_of_readProgram (readSource_eq_ok (readSource_of_readProgram hp))
    refine ⟨max bound (Stmt.eachSize p), ?_, ?_⟩
    · rw [hstore]
      exact hs.mono fun r hr => hr.mono (Nat.le_max_left _ _)
    · rintro _ ⟨⟩
      exact Stmt.within_of_mem (hread.loopFree hsource) (Nat.le_max_right _ _)

theorem within_evaluating (hs : s.machine.store.AllRoutines (Routine.Within bound)) (e : Expr) :
    (s.machine.evaluating e).Within bound s.machine.output.room.isSome :=
  ⟨trivial, List.forall_mem_nil _, hs, rfl⟩

theorem within_executing (hs : s.machine.store.AllRoutines (Routine.Within bound)) {stmt : Stmt}
    (hstmt : stmt.Within bound) :
    (s.machine.executing stmt).Within bound s.machine.output.room.isSome :=
  ⟨hstmt, List.forall_mem_nil _, hs, rfl⟩

theorem within_interpreting (hs : s.machine.store.AllRoutines (Routine.Within bound))
    {p : Program} (hp : ∀ stmt ∈ p, stmt.Within bound) :
    (s.machine.interpreting p).Within bound s.machine.output.room.isSome := by
  refine ⟨trivial, ?_, hs, rfl⟩
  intro f hf
  obtain rfl := List.mem_singleton.mp hf
  exact hp

theorem AtHome.allRoutines_executeEach {steps : Nat} {p : Program} (h : s.AtHome)
    (hs : s.machine.store.AllRoutines (Routine.Within bound))
    (hp : ∀ stmt ∈ p, stmt.Within bound) :
    (s.executeEach steps p).2.machine.store.AllRoutines (Routine.Within bound) := by
  induction p generalizing s with
  | nil => exact hs
  | cons stmt rest ih =>
    obtain ⟨hstmt, hrest⟩ := List.forall_mem_cons.mp hp
    have hfirst : (s.machine.executing stmt).Rests globalScope 0 := h.rests
    have hrun := ((within_executing hs hstmt).run hfirst steps).state.store
    unfold executeEach continueWith
    cases ho : (Machine.run steps (s.machine.executing stmt)).outcome? with
    | none => exact hrun
    | some o =>
      have hnext := AtHome.of_outcome? (s := s) (hfirst.run steps) ho
      cases o with
      | value v => exact ih hnext hrun hrest
      | returned v => exact ih hnext hrun hrest
      | failed f => exact hrun

/-- A request for a source without loops brings in routines without loops. -/
theorem exists_allRoutines_perform {steps : Nat} {r : Request} (h : s.AtHome)
    (hs : s.machine.store.AllRoutines (Routine.Within bound)) (hsource : LoopFree r.source) :
    ∃ bound, (s.perform steps r).2.machine.store.AllRoutines (Routine.Within bound) := by
  cases r with
  | evaluate source =>
    refine ⟨bound, ?_⟩
    cases hread : s.readExpression source with
    | mk result s' =>
      unfold perform Session.evaluate
      simp only [hread]
      have hs' : s'.machine = s.machine := (congrArg (·.2.machine) hread).symm
      have hstore : s'.machine.store.AllRoutines (Routine.Within bound) := hs' ▸ hs
      have hhome : s'.AtHome := ⟨hs' ▸ h.scope, hs' ▸ h.depth⟩
      cases result with
      | error r => exact hstore
      | ok e => exact ((within_evaluating hstore e).run hhome.rests steps).state.store
  | interpret source tied =>
    have hsource : LoopFree source := hsource
    obtain ⟨bound', hstore, hp⟩ := exists_within_readProgram hs hsource tied
    have hhome := h.readProgram source tied
    refine ⟨bound', ?_⟩
    cases hread : s.readProgram source tied with
    | mk result s' =>
      unfold perform Session.interpret
      simp only [hread]
      rw [hread] at hstore hp hhome
      cases result with
      | error r => exact hstore
      | ok p =>
        have hrests := hhome.rests_interpreting p
        exact ((within_interpreting hstore (hp p rfl)).run hrests steps).state.store
  | execute source tied =>
    have hsource : LoopFree source := hsource
    obtain ⟨bound', hstore, hp⟩ := exists_within_readProgram hs hsource tied
    have hhome := h.readProgram source tied
    refine ⟨bound', ?_⟩
    cases hread : s.readProgram source tied with
    | mk result s' =>
      unfold perform Session.execute
      simp only [hread]
      rw [hread] at hstore hp hhome
      cases result with
      | error r => exact hstore
      | ok p => exact hhome.allRoutines_executeEach hstore (hp p rfl)

end Requests

namespace ReachableBy

variable {s : Session}

theorem exists_allRoutines (h : s.ReachableBy LoopFree) :
    ∃ bound, s.machine.store.AllRoutines (Routine.Within bound) := by
  induction h with
  | start clock room => exact ⟨0, allRoutines_start clock room⟩
  | clearOutput _ ih => exact ih
  | setClock _ _ ih => exact ih
  | perform hs hsource hf ih =>
    obtain ⟨bound, hstore⟩ := ih
    exact exists_allRoutines_perform hs.reachable.atHome hstore hsource

/-- When no source so far had a loop, a further one without a loop ends after finitely many steps,
without a failure, with a runtime error or because the output is full, which it never is without a
limit. The session can then go on. -/
theorem run_ends (h : s.ReachableBy LoopFree) {source : String} (hsource : LoopFree source)
    (hc : s.Compiles source) :
    ∃ n, ∀ steps ≥ n,
      s.run steps source = s.run n source ∧ (s.run steps source).2.ReachableBy LoopFree ∧
        ((s.run steps source).1.verdict = .ok ∨
          (∃ e line, (s.run steps source).1.verdict = .failed (.error e line)) ∨
          (s.run steps source).1.verdict = .failed .outputFull ∧
            s.machine.output.room ≠ none) := by
  obtain ⟨_, hroutines⟩ := h.exists_allRoutines
  obtain ⟨bound, hstore, hp⟩ := exists_within_readProgram hroutines hsource true
  obtain ⟨table, hm⟩ := s.exists_machine_readProgram source true
  have hhome := h.reachable.atHome.readProgram source true
  obtain ⟨p, s', hread⟩ := hc.exists_readProgram
  rw [hread] at hstore hp hm hhome
  have hroom : s'.machine.output.room = s.machine.output.room := by rw [hm]
  have hwithin := within_interpreting hstore (hp p rfl)
  have hrests := hhome.rests_interpreting p
  have hrun : ∀ steps, s.run steps source =
      s'.continueWith (Machine.run steps (s'.machine.interpreting p)) := fun steps => by
    rw [Session.run, interpret, hread]
  obtain ⟨n, hfinal⟩ : ∃ n, (Machine.run n (s'.machine.interpreting p)).isFinal :=
    ⟨_, hwithin.isFinal_run hrests (Nat.le_refl _)⟩
  refine ⟨n, fun steps hsteps => ?_⟩
  have hsame : s.run steps source = s.run n source := by
    obtain ⟨d, rfl⟩ := Nat.exists_eq_add_of_le hsteps
    rw [hrun, hrun, run_add, run_of_isFinal hfinal]
  obtain ⟨o, ho⟩ := Option.isSome_iff_exists.mp (Config.isFinal_eq_isSome_outcome? _ ▸ hfinal)
  have hreport : (s.run n source).1 = .ended o := by
    rw [hrun]
    simp [continueWith, ho]
  have hfinished : ∀ report ∈ (s.perform n (.interpret source true)).1, report.isFinished := by
    intro report hmem
    obtain rfl : report = .ended o := (List.mem_singleton.mp hmem).trans hreport
    rfl
  have hnoFault := (h.reachable.sound.goesWell_perform n (.interpret source true)).noFault
    (.ended o) (List.mem_singleton.mpr hreport.symm)
  have hnext : (s.perform n (.interpret source true)).2.ReachableBy LoopFree :=
    .perform h hsource hfinished
  rw [hsame]
  refine ⟨rfl, hnext, ?_⟩
  rw [hreport]
  obtain hok | herror | rfl := Report.verdict_ended hnoFault
  · exact .inl hok
  · exact .inr (.inl herror)
  · have hlimited := (hwithin.run hrests n).limited_of_outcome? ho
    rw [hroom] at hlimited
    exact .inr (.inr ⟨rfl, Option.isSome_iff_ne_none.mp hlimited⟩)

end ReachableBy

/-- Recursion without an end, through functions, methods and initializers of an earlier source. -/
theorem ReachableBy.run_ends_runaway :
    let s := ((Session.start (.steady 0) none).perform 60 (.interpret
      "fun f(){f();}class A{init(){this.m();}m(){A();}}class B<A{m(){super.m();}}" true)).2
    s.ReachableBy LoopFree ∧ LoopFree "B();f();" ∧ s.Compiles "B();f();" ∧
      ∃ n, (s.run n "B();f();").1.verdict = .ok ∨
        ∃ e line, (s.run n "B();f();").1.verdict = .failed (.error e line) := by
  intro s
  have hs : s.ReachableBy LoopFree :=
    .perform (.start (.steady 0) none) (by decide +kernel) (by decide +kernel)
  have hsource : LoopFree "B();f();" := by decide +kernel
  have hc : s.Compiles "B();f();" := by decide +kernel
  have hroom : s.machine.output.room = none := by decide +kernel
  refine ⟨hs, hsource, hc, ?_⟩
  obtain ⟨n, hn⟩ := ReachableBy.run_ends hs hsource hc
  obtain ⟨-, -, hok | herror | hfull⟩ := hn n (Nat.le_refl n)
  · exact ⟨n, .inl hok⟩
  · exact ⟨n, .inr herror⟩
  · exact absurd hroom hfull.2

end Session

end LoxLang
