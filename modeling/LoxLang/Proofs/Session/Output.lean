import LoxLang.Proofs.Machine.Output
import LoxLang.Proofs.Session.Restoration
import LoxLang.Proofs.Session.Split

/-!
# When the output is full

A session prints to an output that may refuse a line. Up to that line a run is, step by step, the run
with an output that takes everything, whether that one ends or not. With that line the run is over:
nothing else is done, and the session is back at the top level.

## Main definitions

* `Session.withRoom`: a session with a new output.
* `Session.CutAt`: what becomes of a run when a line is refused.

## Main results

* `full_output_cuts_run`: a run with a limited output is cut at the first line that does not fit.
-/

namespace LoxLang

open Machine

namespace Session

/-- The session with a new output, with a limit or without one. -/
def withRoom (room : Option Room) (s : Session) : Session :=
  { s with machine := s.machine.setOutput ⟨[], room⟩ }

/-- The session, if its output had no limit. -/
def unlimited (s : Session) : Session :=
  { s with machine := s.machine.setOutput ⟨s.machine.output.lines, none⟩ }

/-- The lines printed, first to last. -/
def lines (s : Session) : List String := s.machine.output.lines.reverse

/-- The session, back in the global scope and outside of all calls. -/
def reset (s : Session) : Session := { s with machine := s.machine.reset }

/-- A run with a limited output is cut at step `i`, when it has printed the given lines. -/
structure CutAt (s : Session) (source : String) (room : Room) (i : Nat) (printed : List String) :
    Prop where
  /-- Up to there it is the run without a limit. -/
  before : ∀ n ≤ i,
    ((s.withRoom (some room)).run n source).1 = ((s.withRoom none).run n source).1 ∧
    ((s.withRoom (some room)).run n source).2.unlimited = ((s.withRoom none).run n source).2
  /-- Nothing is evaluated after it. -/
  stops : ∀ start ∈ (s.withRoom (some room)).starts 0 (.interpret source true), ∀ n > i,
    (Machine.run n start).control = .failing .outputFull
  /-- It ends with the failure, at the top level and otherwise with all as it was. -/
  ends : ∃ last, ∀ n ≥ last,
    ((s.withRoom (some room)).run n source).1 = .ended (.failed .outputFull) ∧
    ((s.withRoom (some room)).run n source).2.AtHome ∧
    ((s.withRoom (some room)).run n source).2.lines = printed ∧
    ((s.withRoom (some room)).run n source).2.unlimited = ((s.withRoom none).run i source).2.reset

/-- Reading does not look at the output. -/
theorem Compiles.exists_start {s : Session} {source : String} (h : s.Compiles source) :
    ∃ (s' : Session) (p : Program), (s.AtHome → s'.AtHome) ∧ ∀ room,
      (s.withRoom room).starts 0 (.interpret source true) =
        [(s'.machine.interpreting p).setOutput ⟨[], room⟩] ∧
      ∀ n, (s.withRoom room).run n source = (s'.withRoom room).continueWith
        (Machine.run n ((s'.machine.interpreting p).setOutput ⟨[], room⟩)) := by
  obtain ⟨p, next, ties, hread, ha⟩ := h.exists_read (Nat.le_refl _)
  let s' : Session := ⟨s.machine.addBindings ties, next⟩
  have hprogram : ∀ room, (s.withRoom room).readProgram source true =
      (.ok p, s'.withRoom room) := fun room => by
    have hread : readSource Grammar.readProgram source (s.withRoom room).nextSite = (.ok p, next) :=
      hread
    simp only [readProgram, hread, ha, if_true]
    rfl
  refine ⟨s', p, fun hs => ⟨hs.scope, hs.depth⟩, fun room => ⟨?_, fun n => ?_⟩⟩
  · simp only [starts, hprogram]
    rfl
  · simp only [run, interpret, hprogram]
    rfl

/-- As long as all lines are taken, the limit is not noticed. -/
theorem continueWith_unlimited {s : Session} {c : Config} {o o' : Output} {n : Nat}
    (hroom : c.state.output.room = none) (hlines : c.lines = []) (ho : o.lines = [])
    (h : o.printAll? (Machine.run n c).lines = some o') :
    (s.continueWith (Machine.run n (c.setOutput o))).1 = (s.continueWith (Machine.run n c)).1 ∧
      (s.continueWith (Machine.run n (c.setOutput o))).2.unlimited =
        (s.continueWith (Machine.run n c)).2 := by
  have houtput := output_run hroom ho h
  rw [run_setOutput hroom hlines h]
  generalize Machine.run n c = d at houtput
  obtain ⟨control, frames, st⟩ := d
  obtain ⟨store, scope, depth, table, output, clock⟩ := st
  cases houtput
  refine ⟨?_, rfl⟩
  cases control <;> cases frames <;> rfl

/-- From the first line that is refused on there is nothing but the failure. -/
theorem continueWith_refused {s : Session} {c : Config} {o o' : Output} {i : Nat} {line : String}
    (hroom : c.state.output.room = none) (hlines : c.lines = []) (ho : o.lines = [])
    (hrests : c.Rests globalScope 0) (h : o.printAll? (Machine.run i c).lines = some o')
    (hprints : (Machine.run i c).prints? = some line) (hrefused : o'.print? line = none) {n : Nat}
    (hn : i + (Machine.run i c).frames.length ≤ n) :
    (s.continueWith (Machine.run n (c.setOutput o))).1 = .ended (.failed .outputFull) ∧
      (s.continueWith (Machine.run n (c.setOutput o))).2.unlimited =
        (s.continueWith (Machine.run i c)).2.reset := by
  obtain ⟨v, k, st, hi, -⟩ := Config.exists_eq_of_prints? hprints
  have houtput := output_run hroom ho h
  rw [hi] at hn houtput
  obtain ⟨j, rfl⟩ : ∃ j, n = i + 1 + j := Nat.exists_eq_add_of_le (by simp at hn; omega)
  obtain ⟨scope, depth, hrun⟩ := run_refused hroom hlines h hprints hrefused j
  have hk : k.drop j = [] := List.drop_eq_nil_of_le (by simp at hn; omega)
  rw [hi, List.tail_cons, hk] at hrun
  have hcut : (c.setOutput o).Rests globalScope 0 := State.Rests.congr hrests rfl rfl
  have hhome := (hcut.run (i + 1 + j)).eq_of_isFinal (by rw [hrun]; rfl)
  rw [hrun] at hhome ⊢
  obtain ⟨hscope, hdepth⟩ : scope = globalScope ∧ depth = 0 := hhome
  rw [hi, hscope, hdepth]
  obtain ⟨store, scope, depth, table, output, clock⟩ := st
  cases houtput
  exact ⟨rfl, rfl⟩

/-- Take a run without a limit on its output, and one from the same session whose output takes `m`
lines and refuses the next: it counts lines, or its limit on newlines comes to that, and for each `m`
there is such a limit. If there are no more than `m` lines, both runs are the same at all times.
Otherwise the limited one is cut where the other prints the next line: it ends with the failure,
having printed the first `m` lines. -/
theorem full_output_cuts_run {s : Session} (hs : s.Reachable) {source : String}
    (hc : s.Compiles source) :
    (∀ m, ∃ r, ∀ n,
      Output.Takes ⟨[], some (.newlines r)⟩ m ((s.withRoom none).run n source).2.lines) ∧
    ∀ m room, (room = .prints m ∨
        ∀ n, Output.Takes ⟨[], some room⟩ m ((s.withRoom none).run n source).2.lines) →
      ((∀ n, ((s.withRoom none).run n source).2.lines.length ≤ m) → ∀ n,
        ((s.withRoom (some room)).run n source).1 = ((s.withRoom none).run n source).1 ∧
        ((s.withRoom (some room)).run n source).2.unlimited = ((s.withRoom none).run n source).2) ∧
      ∀ n, m < ((s.withRoom none).run n source).2.lines.length → ∃ i < n,
        s.CutAt source room i (((s.withRoom none).run n source).2.lines.take m) := by
  obtain ⟨s', p, hhome, hstart⟩ := hc.exists_start
  let c := (s'.machine.interpreting p).setOutput ⟨[], none⟩
  have hroom : c.state.output.room = none := rfl
  have hlines : c.lines = [] := rfl
  have hrests : c.Rests globalScope 0 :=
    State.Rests.congr ((hhome hs.atHome).rests_interpreting p) rfl rfl
  have hfree : ∀ n, (s.withRoom none).run n source = s'.continueWith (Machine.run n c) :=
    (hstart none).2
  have hcut : ∀ room n, (s.withRoom (some room)).run n source =
      s'.continueWith (Machine.run n (c.setOutput ⟨[], some room⟩)) :=
    fun room => (hstart (some room)).2
  have hprinted : ∀ n, (s'.continueWith (Machine.run n c)).2.lines = (Machine.run n c).lines :=
    fun _ => rfl
  simp only [hfree, hprinted]
  refine ⟨exists_room_takes hroom, fun m room hm => ?_⟩
  have htakes : ∀ n, Output.Takes ⟨[], some room⟩ m (Machine.run n c).lines := by
    rcases hm with rfl | htakes
    · exact fun n => .of_prints m _
    · exact htakes
  refine ⟨fun hle n => ?_, fun n hlt => ?_⟩
  · obtain ⟨o, ho⟩ := (htakes n).exists_printAll? (hle n)
    rw [hcut]
    exact continueWith_unlimited hroom hlines rfl ho
  · obtain ⟨i, hi, line, hprints, hlength, hfirst⟩ := exists_prints?_of_lt hroom hlines hlt
    obtain ⟨o, ho, hrefused⟩ := (htakes n).exists_refused hfirst hlength
    have htake : (Machine.run n c).lines.take m = (Machine.run i c).lines := by
      obtain ⟨rest, hrest⟩ := hfirst
      rw [← hrest, List.append_assoc, List.take_left' hlength]
    refine ⟨i, hi, fun j hj => ?_, fun start hmem j hj => ?_, i + (Machine.run i c).frames.length,
      fun j hj => ?_⟩
    · obtain ⟨d, rfl⟩ := Nat.exists_eq_add_of_le hj
      obtain ⟨o', ho'⟩ := Output.exists_printAll?_of_isPrefixOf (lines_run_isPrefixOf hroom j d)
        (by rw [ho]; rfl)
      rw [hcut, hfree]
      exact continueWith_unlimited hroom hlines rfl ho'
    · rw [(hstart (some room)).1] at hmem
      obtain rfl := List.mem_singleton.mp hmem
      obtain ⟨d, rfl⟩ := Nat.exists_eq_add_of_lt hj
      obtain ⟨scope, depth, hrun⟩ := run_refused hroom hlines ho hprints hrefused d
      rw [Nat.add_right_comm]
      exact congrArg (·.control) hrun
    · obtain ⟨hreport, hsession⟩ := continueWith_refused (s := s') hroom hlines rfl hrests ho
        hprints hrefused hj
      rw [hcut, hfree]
      refine ⟨hreport, ⟨?_, ?_⟩, ?_, hsession⟩
      · exact congrArg (·.machine.scope) hsession
      · exact congrArg (·.machine.depth) hsession
      · exact (congrArg (·.lines) hsession).trans htake.symm

/-- A loop that never ends calls a function that prints. With an output that takes two lines, it is
cut in the third call, and so it is with some limit on newlines. -/
theorem full_output_cuts_run_endless :
    let s := Session.start (.steady 0) none
    let source := "fun f(x){{print x;}return x;}while(true)f(f(\"a\nb\"));"
    s.Compiles source ∧ (∃ i < 80, s.CutAt source (.prints 2) i ["a\nb", "a\nb"]) ∧
      ∃ r, ∃ i < 80, s.CutAt source (.newlines r) i ["a\nb", "a\nb"] := by
  intro s source
  have hc : s.Compiles source := by decide +kernel
  have hlines : ((s.withRoom none).run 80 source).2.lines.take 2 = ["a\nb", "a\nb"] := by
    decide +kernel
  have hlt : 2 < ((s.withRoom none).run 80 source).2.lines.length := by decide +kernel
  obtain ⟨hexists, hcuts⟩ := full_output_cuts_run (.start (.steady 0) none) hc
  obtain ⟨r, hr⟩ := hexists 2
  obtain ⟨i, hi, hcut⟩ := (hcuts 2 (.prints 2) (.inl rfl)).2 80 hlt
  obtain ⟨j, hj, hcut'⟩ := (hcuts 2 (.newlines r) (.inr hr)).2 80 hlt
  exact ⟨hc, ⟨i, hi, hlines ▸ hcut⟩, r, j, hj, hlines ▸ hcut'⟩

end Session

end LoxLang
