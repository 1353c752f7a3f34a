import LoxLang.Proofs.Lexical.Simulation
import LoxLang.Proofs.Session.Safety

/-!
# Static scoping

A session on the machine with environments reads sources in the same way, but it only looks whether
the analysis accepts them and has no use for the distances. Whatever was run before, a source gives
the same output and the same verdict in both sessions.

## Main definitions

* `Lexical.Session`: sessions on the machine with environments.
* `Lexical.Session.Matches`: sessions of the two kinds that belong together.
-/

namespace LoxLang

open Scoping

namespace Lexical

structure Session where
  machine : State
  /-- The first site not handed out yet. -/
  nextSite : Site

/-- Ready to execute the statements of a program. -/
def State.interpreting (s : State) (p : Program) : Config := ⟨.value .nil, [.program p], s⟩

namespace Session

def start (clock : Clock) (room : Option Room) : Session := ⟨.initial clock room, 0⟩

def printed (s : Session) : String := s.machine.output.text

/-- A session whose machine went on to a configuration, and what this configuration says. -/
def continueWith (s : Session) (c : Config) : LoxLang.Session.Report × Session :=
  let report := match c.outcome? with
    | some o => .ended o
    | none => .unfinished
  (report, { s with machine := c.state })

/-- Runs a source if the analysis accepts it. -/
def run (steps : Nat) (s : Session) (source : String) : LoxLang.Session.Report × Session :=
  let (result, nextSite) := readSource Grammar.readProgram source s.nextSite
  let s := { s with nextSite := nextSite }
  match result with
  | .error r => (.rejected r, s)
  | .ok p =>
    match analyse p with
    | .error ds => (.rejected (.illScoped ds), s)
    | .ok _ => s.continueWith (Lexical.run steps (s.machine.interpreting p))

/-! ## Sessions that belong together -/

/-- The two machines have ended and hold the same. -/
structure Matches (s : LoxLang.Session) (r : Session) : Prop where
  sound : s.Sound
  nextSite : r.nextSite = s.nextSite
  env : r.machine.env = topLevel
  states : ∃ w : World, w.States (Occurrence.Linked s.machine.table s.nextSite) s.machine r.machine

theorem matches_start (clock : Clock) (room : Option Room) :
    Matches (LoxLang.Session.start clock room) (start clock room) := by
  let st := Store.empty.addScope none [("clock", .native .clock)]
  let w : World := ⟨fun _ _ => none, st.enclosing?, fun e => (State.initial clock room).envs[e]?⟩
  refine ⟨LoxLang.Session.sound_start clock room, rfl, rfl, w, ⟨fun _ => rfl, fun _ => rfl, rfl, nofun,
    nofun, nofun, fun {a name v} ha hv => ?_, fun name => ?_, ⟨rfl, Nat.zero_lt_one⟩,
    fun id name => ?_, rfl, rfl, rfl, rfl, rfl⟩⟩
  · have hv : st.lookup? a name = some v := hv
    have ha : a ≠ Store.empty.nextScope := ha
    rw [Store.lookup?_addScope, if_neg ha] at hv
    simp [Store.lookup?, Store.empty] at hv
  · have hglobals : st.lookup? Machine.globalScope name = (State.initial clock room).globals.get? name :=
      (Store.lookup?_addScope _ _ _ _ _).trans (if_pos rfl)
    have hrel : Option.Rel (w.Values (Occurrence.Linked .empty 0))
        ((State.initial clock room).globals.get? name) ((State.initial clock room).globals.get? name) := by
      simp only [State.initial, Bindings.get?]
      split
      · exact .some (.native .clock)
      · exact .none
    exact hglobals ▸ hrel
  · have hnone : (start clock room).machine.field? id name = none := by
      simp [start, State.initial, State.field?]
    have hnone' : st.field? id name = none := by
      simp [st, Store.field?, Store.addScope, Store.empty]
    exact hnone ▸ hnone' ▸ .none

theorem le_of_readSource {source : String} {first next : Site} {result : Except Rejection Program}
    (h : readSource Grammar.readProgram source first = (result, next)) : first ≤ next := by
  have hnext : (Grammar.readProgram (scan source).tokens (scan source).endLine
      first).nextSite = next := congrArg Prod.snd h
  rw [← hnext]
  exact (Grammar.readProgram_fresh (LoxLang.Session.ordinaryTokens_scan source) _ _).1

/-- An accepted program is linked by its ties. -/
theorem eachValid_of_analyse {s : LoxLang.Session} (h : s.Sound) {source : String} {p : Program}
    {ties : List (Site × Nat)} {next : Site}
    (hread : readSource Grammar.readProgram source s.nextSite = (.ok p, next))
    (ha : analyse p = .ok ties) :
    (∀ site < s.nextSite, (s.machine.table.insertAll ties).hops? site =
        s.machine.table.hops? site) ∧
      Stmt.EachValid (Occurrence.Linked (s.machine.table.insertAll ties) next) [] p := by
  obtain ⟨-, hok⟩ := Grammar.readProgram_fresh (LoxLang.Session.ordinaryTokens_scan source)
    (scan source).endLine s.nextSite
  have hnext : (Grammar.readProgram (scan source).tokens (scan source).endLine
      s.nextSite).nextSite = next := congrArg Prod.snd hread
  obtain ⟨hfresh, hregular⟩ := hok p (LoxLang.Session.readSource_eq_ok (congrArg Prod.fst hread))
  rw [hnext] at hfresh
  refine ⟨fun site hs => ?_, ⟨⟨hregular, fun o ho => ?_⟩, ⟨.topLevel, .noClass⟩, ?_⟩⟩
  · refine BindingTable.hops?_insertAll_of_not_mem _ fun d hd => ?_
    exact absurd (LoxLang.Session.bounds_of_mem_ties hfresh hregular ha hd).1 (Nat.not_le.mpr hs)
  · obtain ⟨htied, hlegal⟩ := LoxLang.Session.tiedBy_of_analyse hfresh hregular ha h.unused ho
    have huse : o.use ∈ Stmt.eachUses p := by
      rw [← Stmt.map_use_eachOccurrences []]
      exact List.mem_map_of_mem ho
    exact ⟨(hfresh.bounds _ huse).2, htied, hlegal.hasSuper⟩
  · unfold analyse at ha
    dsimp only at ha
    split at ha
    · next hempty => exact List.isEmpty_iff.mp hempty
    · cases ha

/-! ## Runs -/

/-- What two configurations that belong together say. -/
theorem verdict_continueWith {P : Occurrence → Prop} {s : LoxLang.Session} {r : Session}
    {c : Machine.Config} {c' : Config} (h : Matched P c c') :
    (s.continueWith c).1.verdict = (r.continueWith c').1.verdict := by
  obtain ⟨w, h⟩ := h
  cases h with
  | eval | exec => rfl
  | value hs hv hc hk | returning hs hv hg hk | failing hs hg hk => cases hk <;> rfl

theorem output_continueWith {P : Occurrence → Prop} {s : LoxLang.Session} {r : Session}
    {c : Machine.Config} {c' : Config} (h : Matched P c c') :
    (s.continueWith c).2.machine.output = (r.continueWith c').2.machine.output := by
  obtain ⟨w, h⟩ := h
  cases h with
  | eval hs | exec hs | value hs | returning hs | failing hs => exact hs.output.symm

/-- Machines that have ended stand at the top level. -/
theorem matches_continueWith {s : LoxLang.Session} {r : Session} (hn : r.nextSite = s.nextSite)
    {c : Machine.Config} {c' : Config}
    (h : Matched (Occurrence.Linked c.state.table s.nextSite) c c')
    (hsound : (s.continueWith c).2.Sound) (hf : (s.continueWith c).1.isFinished) :
    Matches (s.continueWith c).2 (r.continueWith c').2 := by
  obtain ⟨w, h⟩ := h
  cases h with
  | eval | exec => cases hf
  | value hs hv hc hk =>
    exact ⟨hsound, hn, hc.env_eq_topLevel hs hsound.scope, w, hs⟩
  | returning hs hv hg hk => exact ⟨hsound, hn, hg hsound.scope, w, hs⟩
  | failing hs hg hk => exact ⟨hsound, hn, hg hsound.scope, w, hs⟩

/-- A source is read alike, and if it is accepted, the machines run in step. -/
theorem Matches.run {s : LoxLang.Session} {r : Session} (h : Matches s r) (steps : Nat)
    (source : String) :
    (s.run steps source).1.verdict = (r.run steps source).1.verdict ∧
      (s.run steps source).2.machine.output = (r.run steps source).2.machine.output ∧
      ((s.run steps source).1.isFinished →
        Matches (s.run steps source).2 (r.run steps source).2) := by
  obtain ⟨hsound, hfits⟩ := h.sound.readProgram source true
  obtain ⟨w, hstates⟩ := h.states
  unfold LoxLang.Session.readProgram at hsound hfits
  rw [LoxLang.Session.run_eq, Session.run, h.nextSite]
  cases hread : readSource Grammar.readProgram source s.nextSite with
  | mk result next =>
    have hnext := le_of_readSource hread
    -- A source that is rejected has taken sites, and nothing else has changed.
    have hrejected (hs : LoxLang.Session.Sound { s with nextSite := next }) :
        Matches { s with nextSite := next } { r with nextSite := next } :=
      ⟨hs, rfl, h.env, w, hstates.mono fun _ ho => ho.mono hnext fun _ _ => rfl⟩
    simp only [hread] at hsound hfits ⊢
    cases result with
    | error rejection => exact ⟨rfl, hstates.output.symm, fun _ => hrejected hsound⟩
    | ok p =>
      cases ha : analyse p with
      | error ds =>
        simp only [ha, if_true] at hsound ⊢
        exact ⟨trivial, hstates.output.symm, fun _ => hrejected hsound⟩
      | ok ties =>
        simp only [ha, if_true] at hsound hfits ⊢
        obtain ⟨htable, hvalid⟩ := eachValid_of_analyse h.sound hread ha
        have hadmits := hsound.admits_interpreting (hfits p rfl)
        have hstart : Matched (Occurrence.Linked (s.machine.table.insertAll ties) next)
            ((s.machine.addBindings ties).interpreting p) (r.machine.interpreting p) := by
          have hstates := (hstates.mono fun _ ho => ho.mono hnext htable).addBindings ties
          have hscope := h.sound.scope
          exact ⟨w, .value hstates .nil (hstates.current_topLevel hscope h.env)
            (.program hscope hvalid (.nil hscope))⟩
        have hrun := hstart.run rfl (fun m => (hadmits.run m).not_panics) steps
        refine ⟨verdict_continueWith hrun, output_continueWith hrun, fun hf => ?_⟩
        obtain ⟨o, ho⟩ := LoxLang.Session.exists_outcome?_of_isFinished hf
        have htable := (hadmits.run steps).table
        exact matches_continueWith rfl (htable ▸ hrun) ((hadmits.run steps).sound hsound ho) hf

theorem Matches.runEach {s : LoxLang.Session} {r : Session} (h : Matches s r)
    {history : List (Nat × String)}
    (hf : ∀ report ∈ (LoxLang.Session.runEach LoxLang.Session.run s history).1, report.isFinished) :
    Matches (LoxLang.Session.runEach LoxLang.Session.run s history).2
      (LoxLang.Session.runEach Session.run r history).2 := by
  induction history generalizing s r with
  | nil => exact h
  | cons entry rest ih =>
    obtain ⟨hfirst, hrest⟩ := List.forall_mem_cons.mp hf
    exact ih ((h.run entry.1 entry.2).2.2 hfirst) hrest

end Session

end Lexical

/-- Whatever a session has run before, a source prints the same and has the same verdict as in a
session of the machine with environments that has run the same sources. -/
theorem Session.run_agrees_with_lexical (clock : Clock) (room : Option Room)
    (history : List (Nat × String))
    (hf : ∀ report ∈ (runEach Session.run (.start clock room) history).1, report.isFinished)
    (steps : Nat) (source : String) :
    let s := (runEach Session.run (.start clock room) history).2
    let r := (runEach Lexical.Session.run (.start clock room) history).2
    (s.run steps source).1.verdict = (r.run steps source).1.verdict ∧
      (s.run steps source).2.printed = (r.run steps source).2.printed := by
  obtain ⟨hverdict, houtput, -⟩ :=
    ((Lexical.Session.matches_start clock room).runEach hf).run steps source
  exact ⟨hverdict, congrArg Output.text houtput⟩

/-- A function that sees the global `x` and not the local one that comes later, and calls of a
function of an earlier source that share a cell. -/
theorem Session.run_agrees_with_lexical_later :
    let history :=
      [(40, "var x=\"g\";fun m(i){fun f(v){var o=i;i=v;return o;}return f;}var c=m(x);")]
    let source := "{fun f(){print x;}var x;f();c(x);print c(f);}"
    let s := (runEach Session.run (.start (.steady 0) none) history).2
    let r := (runEach Lexical.Session.run (.start (.steady 0) none) history).2
    (s.run 100 source).2.printed = "g\nnil\n" ∧
      (s.run 100 source).1.verdict = (r.run 100 source).1.verdict ∧
        (s.run 100 source).2.printed = (r.run 100 source).2.printed :=
  ⟨by decide +kernel, run_agrees_with_lexical (.steady 0) none _ (by decide +kernel) 100 _⟩

end LoxLang
