import LoxLang.Proofs.Session.Output

/-!
# Running in stretches

A program that is watched runs in stretches. After each of them what it has printed is taken away, and
before the next one the clock is set. All stretches together are one run, with a clock that gives the
readings of all of them, and a session that is watched is one of those that requests lead to.

## Main definitions

* `stretches`: stretches one after the other, and the lines printed in them.
* `Session.runWatched`: a session that runs a source in stretches.

## Main results

* `run_recast`: a run looks at no readings but those that it takes.
* `exists_run_stretches`: stretches are one run.
* `Session.exists_run_eq_runWatched`, `Session.Reachable.runWatched`: the same for sessions.
-/

namespace LoxLang

/-- The output, if other lines had been printed before. -/
def Output.after (old : List String) (o : Output) : Output := { o with lines := o.lines ++ old }

theorem Output.print?_after (old : List String) (o : Output) (line : String) :
    (o.after old).print? line = (o.print? line).map (after old) := by
  obtain ⟨lines, room⟩ := o
  cases room with
  | none => rfl
  | some room =>
    simp only [print?, after, Option.map_map]
    rfl

namespace Machine

variable {c : Config}

/-! ## Readings of the clock -/

theorem Config.ReadsClock.clock_step (h : c.ReadsClock) :
    (step c).state.clock = c.state.clock.next := by
  obtain ⟨_, _, k, -, hstep⟩ := h
  rw [hstep]
  rfl

theorem clock_step_of_not (h : ¬ c.ReadsClock) : (step c).state.clock = c.state.clock := by
  have hstep : step c = (step c).mapDevices id fun _ => c.state.clock :=
    step_mapDevices_of_agrees (f := id) (g := fun _ => c.state.clock)
      (fun line => (congrFun Option.map_id (c.state.output.print? line)).symm)
      fun hread => absurd hread h
  rw [hstep]
  rfl

theorem reading_step (c : Config) : (step c).state.clock.reading = c.state.clock.reading := by
  by_cases h : c.ReadsClock
  · rw [h.clock_step]
    rfl
  · rw [clock_step_of_not h]

theorem taken_le_step (c : Config) : c.state.clock.taken ≤ (step c).state.clock.taken := by
  by_cases h : c.ReadsClock
  · rw [h.clock_step]
    exact Nat.le_succ _
  · rw [clock_step_of_not h]

theorem reading_run (c : Config) (n : Nat) :
    (run n c).state.clock.reading = c.state.clock.reading := by
  induction n with
  | zero => rfl
  | succ n ih => rw [run_succ', reading_step, ih]

theorem taken_le_run (c : Config) (n : Nat) :
    c.state.clock.taken ≤ (run n c).state.clock.taken := by
  induction n with
  | zero => exact Nat.le_refl _
  | succ n ih =>
    rw [run_succ']
    exact ih.trans (taken_le_step _)

/-! ## Other lines before and other readings -/

def Config.setClock (reading : Nat → Float) (c : Config) : Config :=
  { c with state := c.state.setClock reading }

/-- The configuration, if other lines had been printed before and the clock had other readings. -/
def Config.recast (old : List String) (reading : Nat → Float) (c : Config) : Config :=
  c.mapDevices (Output.after old) (Clock.set reading)

theorem Config.recast_recast (old older : List String) (reading reading' : Nat → Float)
    (c : Config) :
    (c.recast old reading).recast older reading' = c.recast (old ++ older) reading' := by
  simp [recast, mapDevices, State.mapDevices, Output.after, Clock.set]

theorem Config.setClock_eq_recast (reading reading' : Nat → Float) (c : Config) :
    c.setClock reading = (c.renew reading').recast c.state.output.lines reading := rfl

theorem step_recast (old : List String) {reading : Nat → Float}
    (h : c.ReadsClock → reading c.state.clock.taken = c.state.clock.now) :
    step (c.recast old reading) = (step c).recast old reading :=
  step_mapDevices_of_agrees (Output.print?_after old c.state.output) fun hread => ⟨h hread, rfl⟩

/-- A run looks at no readings but those that it takes. -/
theorem run_recast (old : List String) {reading : Nat → Float} {n : Nat}
    (h : ∀ i, c.state.clock.taken ≤ i → i < (run n c).state.clock.taken →
      reading i = c.state.clock.reading i) :
    run n (c.recast old reading) = (run n c).recast old reading := by
  induction n with
  | zero => rfl
  | succ n ih =>
    have hlater := taken_le_step (run n c)
    rw [run_succ'] at h ⊢
    rw [run_succ', ih fun i hle hlt => h i hle (hlt.trans_le hlater)]
    refine step_recast old fun hread => ?_
    rw [Clock.now, reading_run]
    refine h _ (taken_le_run c n) ?_
    rw [hread.clock_step]
    exact Nat.lt_succ_self _

/-! ## Stretches -/

/-- Stretches one after the other, each with its readings. Beside the configuration to which they lead
it gives the lines printed in them. -/
def stretches (n : Nat) : List (Nat → Float) → Config → List String × Config
  | [], c => ([], c)
  | reading :: readings, c =>
    let c := stretch n reading c
    (c.lines ++ (stretches n readings c).1, (stretches n readings c).2)

/-- Stretches are one run, with a clock that gives the readings of all of them: it prints the same
lines and comes to the same configuration. -/
theorem exists_run_stretches (n : Nat) (readings : List (Nat → Float)) (c : Config) :
    ∃ reading, run (n * readings.length) (c.setClock reading) =
      ((stretches n readings c).2.renew reading).recast
        ((stretches n readings c).1.reverse ++ c.state.output.lines) reading := by
  induction readings generalizing c with
  | nil => exact ⟨c.state.clock.reading, rfl⟩
  | cons first readings ih =>
    let c₁ := stretch n first c
    obtain ⟨later, hlater⟩ := ih c₁
    -- The first readings are those of the first stretch, the others those of the later ones.
    let reading : Nat → Float := fun i => if i < c₁.state.clock.taken then first i else later i
    have hfirst : run n (c.setClock reading) = c₁.recast c.state.output.lines reading := by
      rw [c.setClock_eq_recast reading first]
      exact run_recast (c := c.renew first) _ fun i _ hi => if_pos hi
    have hrest : run (n * readings.length) (c₁.recast c.state.output.lines reading) =
        (run (n * readings.length) (c₁.setClock later)).recast c.state.output.lines reading :=
      run_recast (c := c₁.setClock later) _ fun i hi _ => if_neg (Nat.not_lt.mpr hi)
    refine ⟨reading, ?_⟩
    rw [List.length_cons, Nat.mul_succ, Nat.add_comm, run_add, hfirst, hrest, hlater,
      Config.recast_recast]
    simp only [stretches, Config.lines, List.reverse_append, List.reverse_reverse,
      List.append_assoc]
    rfl

end Machine

namespace Session

open Machine

variable {s : Session} {n : Nat} {readings : List (Nat → Float)} {source : String}

/-- Runs a source in stretches. Beside what becomes of it there are the lines printed. -/
def runWatched (n : Nat) (readings : List (Nat → Float)) (s : Session) (source : String) :
    List String × Report × Session :=
  match s.readProgram source true with
  | (.error r, s) => ([], .rejected r, s)
  | (.ok p, s) =>
    let (lines, c) := stretches n readings (s.machine.interpreting p)
    (lines, s.continueWith c)

/-- Reading does not look at the clock. -/
theorem readProgram_setClock (reading : Nat → Float) (s : Session) (source : String) (tied : Bool) :
    (s.setClock reading).readProgram source tied =
      ((s.readProgram source tied).1, (s.readProgram source tied).2.setClock reading) := by
  simp only [readProgram, setClock]
  repeat' split
  all_goals rfl

/-- A source that is run in stretches is run as with one clock, and prints the same lines. -/
theorem exists_run_eq_runWatched (n : Nat) (readings : List (Nat → Float)) (s : Session)
    (source : String) : ∃ reading,
      let whole := (s.setClock reading).run (n * readings.length) source
      let watched := s.runWatched n readings source
      whole.1 = watched.2.1 ∧ whole.2.lines = s.lines ++ watched.1 ∧
        whole.2.clearOutput = watched.2.2.clearOutput.setClock reading := by
  cases hread : s.readProgram source true with
  | mk result s' =>
    have hwhole : ∀ reading, (s.setClock reading).readProgram source true =
        (result, s'.setClock reading) := fun reading => by rw [readProgram_setClock, hread]
    have hlines : s'.machine.output.lines = s.machine.output.lines := by
      obtain ⟨table, hm⟩ := s.exists_machine_readProgram source true
      rw [hread] at hm
      rw [hm]
    simp only [run, interpret, runWatched, hread, hwhole]
    cases result with
    | error r =>
      refine ⟨s.machine.clock.reading, rfl, ?_, rfl⟩
      exact (congrArg List.reverse hlines).trans (List.append_nil _).symm
    | ok p =>
      obtain ⟨reading, hrun⟩ := exists_run_stretches n readings (s'.machine.interpreting p)
      have hrun : Machine.run (n * readings.length) ((s'.setClock reading).machine.interpreting p) =
        _ := hrun
      refine ⟨reading, ?_⟩
      dsimp only
      rw [hrun]
      generalize stretches n readings (s'.machine.interpreting p) = watched
      obtain ⟨lines, control, frames, state⟩ := watched
      have hprinted : (lines.reverse ++ s'.machine.output.lines).reverse = s.lines ++ lines := by
        rw [hlines, List.reverse_append, List.reverse_reverse, Session.lines]
      refine ⟨?_, hprinted, rfl⟩
      cases control <;> cases frames <;> rfl

/-- A session in which sources are run in stretches is one of those that requests lead to. -/
theorem Reachable.runWatched (h : s.Reachable)
    (hf : (s.runWatched n readings source).2.1.isFinished) :
    (s.runWatched n readings source).2.2.clearOutput.Reachable := by
  obtain ⟨reading, hreport, -, hsession⟩ := exists_run_eq_runWatched n readings s source
  have hwhole : ((s.setClock reading).run (n * readings.length) source).2.Reachable := by
    refine .perform (r := .interpret source true) (h.setClock reading) fun report hmem => ?_
    obtain rfl := List.mem_singleton.mp hmem
    rw [← hreport] at hf
    exact hf
  have hclear := hwhole.clearOutput
  rw [hsession] at hclear
  exact hclear.setClock (s.runWatched n readings source).2.2.machine.clock.reading

end Session

end LoxLang
