import LoxLang.Proofs.Session.Numbering

/-!
# Rejected sources

A source that is rejected only uses up sites. A session that never saw it goes on with smaller
numbers, and apart from them nothing is different.

## Main definitions

* `Session.Shifted`: sessions that hold the same code, the newer part with other sites.
* `Session.observe`: what can be seen of sources that are run one after the other.
-/

namespace LoxLang

theorem Renaming.shift_injective (n d : Nat) : Function.Injective (Renaming.shift n d).site := by
  intro a b h
  simp only [Renaming.shift] at h
  split at h <;> split at h <;> grind

namespace Session

/-- The same code, with those sites moved by `d` that are not below `n`. -/
structure Shifted (n d : Nat) (s t : Session) : Prop where
  machine : t.machine = s.machine.rename (.shift n d) t.machine.table
  table : ∀ site, t.machine.table.hops? ((Renaming.shift n d).site site) =
    s.machine.table.hops? site
  nextSite : t.nextSite = s.nextSite + d
  le : n ≤ s.nextSite

/-- In a session without code for the sites in question, only the next site is moved. -/
theorem Numbered.shifted {s : Session} (h : s.Numbered) (d : Nat) :
    Shifted s.nextSite d s { s with nextSite := s.nextSite + d } :=
  ⟨(h.older _ (Nat.le_refl _) d).symm, BindingTable.hops?_shift h.unused d, rfl, Nat.le_refl _⟩

namespace Shifted

variable {n d : Nat} {s t : Session}

theorem output (h : Shifted n d s t) : t.machine.output = s.machine.output := by
  rw [h.machine]
  rfl

theorem mono (h : Shifted n d s t) {next : Site} (hn : s.nextSite ≤ next) :
    Shifted n d { s with nextSite := next } { t with nextSite := next + d } :=
  ⟨h.machine, h.table, rfl, Nat.le_trans h.le hn⟩

theorem addBindings (h : Shifted n d s t) (ties : List (Site × Nat)) :
    Shifted n d ⟨s.machine.addBindings ties, s.nextSite⟩
      ⟨t.machine.addBindings (ties.map fun tie => ((Renaming.shift n d).site tie.1, tie.2)),
        t.nextSite⟩ := by
  refine ⟨?_, BindingTable.hops?_insertAll_map (Renaming.shift_injective n d) h.table ties,
    h.nextSite, h.le⟩
  exact congrArg (Machine.State.addBindings · _) h.machine

theorem interpreting (h : Shifted n d s t) (p : Program) :
    t.machine.interpreting (p.map (·.rename (.shift n d))) =
      (s.machine.interpreting p).rename (.shift n d) t.machine.table := by
  have hmachine := h.machine
  generalize t.machine.table = table at *
  rw [hmachine]
  rfl

/-- Machines that hold the same code end in the same way. -/
theorem continueWith (h : Shifted n d s t) (p : Program) (steps : Nat) :
    let c := Machine.run steps (s.machine.interpreting p)
    let c' := Machine.run steps (t.machine.interpreting (p.map (·.rename (.shift n d))))
    (t.continueWith c').1.verdict = (s.continueWith c).1.verdict ∧
      Shifted n d (s.continueWith c).2 (t.continueWith c').2 := by
  intro c c'
  have hrun : c' = c.rename (.shift n d) t.machine.table := by
    have := Machine.run_rename (s.machine.interpreting p) h.table steps
    rw [← h.interpreting] at this
    exact this
  have htable : c.state.table = s.machine.table := Machine.table_run steps _
  clear_value c c'
  subst hrun
  refine ⟨?_, rfl, fun site => ?_, h.nextSite, h.le⟩
  · have hsame : ∀ v : Verdict, v.rename (.shift n d) = v := fun v => by
      cases v with
      | failed e => cases e <;> rfl
      | _ => rfl
    rw [report_continueWith_rename _ _ _ s, Report.verdict_rename, hsame]
  · have hsite := h.table site
    rw [← htable] at hsite
    exact hsite

/-- A source has the same verdict in both sessions. -/
theorem run (h : Shifted n d s t) (steps : Nat) (source : String) :
    (t.run steps source).1.verdict = (s.run steps source).1.verdict ∧
      Shifted n d (s.run steps source).2 (t.run steps source).2 := by
  rw [run_eq, run_eq, h.nextSite, readSource_add]
  cases hread : readSource Grammar.readProgram source s.nextSite with
  | mk result next =>
    obtain ⟨hle, hok⟩ := Grammar.readProgram_fresh (ordinaryTokens_scan source)
      (scan source).endLine s.nextSite
    have hnext : (Grammar.readProgram (scan source).tokens (scan source).endLine
        s.nextSite).nextSite = next := congrArg Prod.snd hread
    rw [hnext] at hle hok
    cases result with
    | error r => exact ⟨rfl, h.mono hle⟩
    | ok p =>
      obtain ⟨hfresh, -⟩ := hok p (readSource_eq_ok (congrArg Prod.fst hread))
      have hp : p.map (·.rename ⟨(· + d), id⟩) = p.map (·.rename (.shift n d)) := by
        rw [← Stmt.renameEach_eq_map, ← Stmt.renameEach_eq_map]
        refine Stmt.renameEach_congr (f := ⟨(· + d), id⟩) (g := .shift n d) rfl p fun u hu => ?_
        exact (Renaming.shift_of_le (Nat.le_trans h.le (hfresh.bounds u hu).1) d).symm
      simp only [hp, Scoping.analyse_rename]
      cases Scoping.analyse p with
      | error ds =>
        have hds : ds.map (·.rename (.shift n d)) = ds :=
          (List.map_congr_left fun e _ => Diagnostic.rename_eq_self (fun _ => rfl) e).trans
            (List.map_id' ds)
        simp only [hds]
        exact ⟨trivial, h.mono hle⟩
      | ok ties => exact ((h.mono hle).addBindings ties).continueWith p steps

end Shifted

/-! ## What can be seen -/

/-- The verdict on each source, and what is printed up to its end. -/
def observe (s : Session) : List (Nat × String) → List (Verdict × String)
  | [] => []
  | (steps, source) :: rest =>
    let (report, s) := s.run steps source
    (report.verdict, s.printed) :: s.observe rest

theorem observe_cons (s : Session) (steps : Nat) (source : String) (rest : List (Nat × String)) :
    s.observe ((steps, source) :: rest) =
      ((s.run steps source).1.verdict, (s.run steps source).2.printed) ::
        (s.run steps source).2.observe rest :=
  rfl

theorem observe_append (s : Session) (first rest : List (Nat × String)) :
    s.observe (first ++ rest) =
      s.observe first ++ (runEach run s first).2.observe rest := by
  induction first generalizing s with
  | nil => rfl
  | cons entry first ih => exact congrArg (_ :: ·) (ih _)

theorem length_observe (s : Session) (history : List (Nat × String)) :
    (s.observe history).length = history.length := by
  induction history generalizing s with
  | nil => rfl
  | cons entry rest ih => exact congrArg (· + 1) (ih _)

theorem Shifted.observe {n d : Nat} {s t : Session} (h : Shifted n d s t)
    (history : List (Nat × String)) : t.observe history = s.observe history := by
  induction history generalizing s t with
  | nil => rfl
  | cons entry rest ih =>
    obtain ⟨hverdict, hrun⟩ := h.run entry.1 entry.2
    have hprinted : (t.run entry.1 entry.2).2.printed = (s.run entry.1 entry.2).2.printed :=
      congrArg Output.text hrun.output
    rw [observe_cons, observe_cons, hverdict, hprinted, ih hrun]

/-- A source that is rejected only uses up sites. -/
theorem exists_run_eq_of_rejected {s : Session} {steps : Nat} {source : String} {r : Rejection}
    (h : (s.run steps source).1.verdict = .rejected r) :
    ∃ d, (s.run steps source).2 = { s with nextSite := s.nextSite + d } := by
  obtain ⟨hle, -⟩ := Grammar.readProgram_fresh (ordinaryTokens_scan source) (scan source).endLine
    s.nextSite
  let next := (readSource Grammar.readProgram source s.nextSite).2
  have hle : s.nextSite ≤ next := hle
  refine ⟨next - s.nextSite, ?_⟩
  rw [Nat.add_sub_cancel' hle]
  rw [run_eq] at h ⊢
  dsimp only at h ⊢
  cases hread : readSource Grammar.readProgram source s.nextSite with
  | mk result n =>
    have hn : next = n := congrArg Prod.snd hread
    simp only [hread, hn] at h ⊢
    cases result with
    | error r => rfl
    | ok p =>
      cases ha : Scoping.analyse p with
      | error ds => simp only [ha]
      | ok ties =>
        simp only [ha, continueWith] at h
        split at h
        · next o _ => cases o <;> cases h
        · cases h

/-- Wherever a source is rejected, it changes neither the machine nor what is printed, and the other
sources have the same verdicts and outputs as if it had never been there. -/
theorem Reachable.rejected_leaves_no_trace {s : Session} (h : s.Reachable)
    (before after : List (Nat × String)) (steps : Nat) (bad : String) (r : Rejection)
    (hbad : ((runEach run s before).2.run steps bad).1.verdict = .rejected r) :
    ((runEach run s before).2.run steps bad).2.machine = (runEach run s before).2.machine ∧
      s.observe (before ++ after) =
        (s.observe (before ++ (steps, bad) :: after)).eraseIdx before.length := by
  obtain ⟨d, hrun⟩ := exists_run_eq_of_rejected hbad
  refine ⟨by rw [hrun], ?_⟩
  have hshifted := (h.numbered.runEach before).shifted d
  have hobserve : (runEach run s before).2.observe ((steps, bad) :: after) =
      (.rejected r, (runEach run s before).2.printed) ::
        (runEach run s before).2.observe after := by
    rw [observe_cons, hbad, hrun, hshifted.observe]
    rfl
  rw [observe_append, observe_append, hobserve, List.eraseIdx_append_of_length_le,
    length_observe] <;> simp [length_observe]

/-- A local variable that is declared twice, between calls of a function that keeps a variable. -/
theorem Reachable.rejected_leaves_no_trace_redeclared :
    let before := [(60, "fun m(i){fun f(v){var o=i;i=v;return o;}return f;}var c=m(\"a\");")]
    let after := [(60, "print c(\"b\");"), (60, "{var y=c(nil);fun g(){print y;}g();}")]
    let bad := "{var x=c;var x=c;}"
    let r := Rejection.illScoped [.scope .alreadyDeclared (.lexeme "x" 1)]
    let s := Session.start (.steady 0) none
    s.observe (before ++ (60, bad) :: after) =
        [(.ok, ""), (.rejected r, ""), (.ok, "a\n"), (.ok, "a\nb\n")] ∧
      ((runEach run s before).2.run 60 bad).2.machine = (runEach run s before).2.machine ∧
        s.observe (before ++ after) =
          (s.observe (before ++ (60, bad) :: after)).eraseIdx before.length :=
  ⟨by decide +kernel, rejected_leaves_no_trace (.start (.steady 0) none) _ _ 60 _
    (.illScoped [.scope .alreadyDeclared (.lexeme "x" 1)]) (by decide +kernel)⟩

end Session

end LoxLang
