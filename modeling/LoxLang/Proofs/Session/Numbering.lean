import LoxLang.Proofs.Grammar.Tracking
import LoxLang.Proofs.Machine.Renaming
import LoxLang.Proofs.Scoping.Renaming
import LoxLang.Proofs.Session.Safety

/-!
# The numbers of sites

All code that a session holds has sites that were handed out, and only those are in its table.

## Main definitions

* `Machine.Config.Older`: no code has a site from a number on.
* `Session.Numbered`: no code has a site that was not handed out.
-/

namespace LoxLang

open Scoping

/-! ## Sites that do not occur -/

theorem BindingTable.hops?_shift {t : BindingTable} {n : Site}
    (h : ∀ site, n ≤ site → t.hops? site = none) (d : Nat) (site : Site) :
    t.hops? ((Renaming.shift n d).site site) = t.hops? site := by
  by_cases hs : site < n
  · rw [Renaming.shift_of_lt hs]
  · have hs : n ≤ site := Nat.not_lt.mp hs
    rw [Renaming.shift_of_le hs, h _ (Nat.le_trans hs (Nat.le_add_right _ _)), h _ hs]

/-- Ties of moved sites tie the same. -/
theorem BindingTable.hops?_insertAll_map {f : Site → Site} (hf : Function.Injective f)
    {t t' : BindingTable} (h : ∀ site, t'.hops? (f site) = t.hops? site)
    (ties : List (Site × Nat)) (site : Site) :
    (t'.insertAll (ties.map fun tie => (f tie.1, tie.2))).hops? (f site) =
      (t.insertAll ties).hops? site := by
  induction ties generalizing t t' with
  | nil => exact h site
  | cons tie ties ih =>
    refine ih fun site => ?_
    rw [hops?_insert, hops?_insert, h]
    simp only [hf.eq_iff]

namespace Machine

/-- No code in the store has a site from `n` on, so moving those sites changes nothing. -/
def State.Older (n : Site) (s : State) : Prop :=
  ∀ m, n ≤ m → ∀ d, s.rename (.shift m d) s.table = s

def Config.Older (n : Site) (c : Config) : Prop :=
  ∀ m, n ≤ m → ∀ d, c.rename (.shift m d) c.state.table = c

/-- A machine makes no new sites. -/
theorem Config.Older.run {n : Site} {c : Config} (h : c.Older n)
    (hu : ∀ site, n ≤ site → c.state.table.hops? site = none) (k : Nat) :
    (Machine.run k c).Older n := by
  intro m hm d
  have hrun := run_rename (f := .shift m d) c
    (BindingTable.hops?_shift (fun site hs => hu site (Nat.le_trans hm hs)) d) k
  rw [h m hm d] at hrun
  rw [table_run]
  exact hrun.symm

/-- The same configuration with another table. -/
def Config.withTable (t : BindingTable) (c : Config) : Config :=
  { c with state := { c.state with table := t } }

/-- Entries for sites that do not occur do not matter. -/
theorem Config.Older.run_withTable {n n' : Site} {c : Config} (h : c.Older n)
    (hu : ∀ site, n ≤ site → c.state.table.hops? site = none) {t : BindingTable} (hn : n ≤ n')
    (ht : ∀ site < n, t.hops? site = c.state.table.hops? site)
    (hu' : ∀ site, n' ≤ site → t.hops? site = none) (k : Nat) :
    Machine.run k (c.withTable t) = (Machine.run k c).withTable t := by
  -- The sites of the entries are moved out of the way.
  have htable : ∀ site, t.hops? ((Renaming.shift n (n' - n)).site site) =
      c.state.table.hops? site := by
    intro site
    by_cases hs : site < n
    · rw [Renaming.shift_of_lt hs, ht site hs]
    · have hs : n ≤ site := Nat.not_lt.mp hs
      have hle : n' ≤ site + (n' - n) := by
        calc n' = n + (n' - n) := (Nat.add_sub_cancel' hn).symm
          _ ≤ site + (n' - n) := Nat.add_le_add_right hs _
      rw [Renaming.shift_of_le hs, hu' _ hle, hu site hs]
  have hrename : ∀ {c : Config}, c.Older n →
      c.rename (.shift n (n' - n)) t = c.withTable t := fun {c} h =>
    congrArg (Config.withTable t) (h n (Nat.le_refl n) (n' - n))
  have hrun := run_rename c htable k
  rwa [hrename h, hrename (h.run hu k)] at hrun

theorem Config.Older.state {n : Site} {c : Config} (h : c.Older n) : c.state.Older n :=
  fun m hm d => congrArg Config.state (h m hm d)

namespace State.Older

variable {n : Site} {s : State}

theorem mono {n' : Site} (h : s.Older n) (hn : n ≤ n') : s.Older n' :=
  fun m hm => h m (Nat.le_trans hn hm)

theorem addBindings (h : s.Older n) (ties : List (Site × Nat)) : (s.addBindings ties).Older n :=
  fun m hm d => congrArg (State.addBindings · ties) (h m hm d)

theorem evaluating (h : s.Older n) {e : Expr} (he : ∀ u ∈ e.uses, u.site < n) :
    (s.evaluating e).Older n := by
  intro m hm d
  have hexpr := Expr.rename_shift (fun u hu => Nat.lt_of_lt_of_le (he u hu) hm) d
  simpa [Config.rename, State.evaluating, Control.rename, hexpr] using h m hm d

theorem interpreting (h : s.Older n) {p : Program} (hp : ∀ u ∈ Stmt.eachUses p, u.site < n) :
    (s.interpreting p).Older n := by
  intro m hm d
  have hprogram := Stmt.map_rename_shift (fun u hu => Nat.lt_of_lt_of_le (hp u hu) hm) d
  simpa [Config.rename, State.interpreting, Control.rename, Frame.rename, Value.rename, hprogram]
    using h m hm d

theorem executing (h : s.Older n) {stmt : Stmt} (hs : ∀ u ∈ stmt.uses, u.site < n) :
    (s.executing stmt).Older n := by
  intro m hm d
  have hstmt : [stmt].map (·.rename (.shift m d)) = [stmt] := by
    refine Stmt.map_rename_shift (fun u hu => ?_) d
    rw [Stmt.eachUses, Stmt.eachUses, List.append_nil] at hu
    exact Nat.lt_of_lt_of_le (hs u hu) hm
  have hstmt : stmt.rename (.shift m d) = stmt := by simpa using hstmt
  simpa [Config.rename, State.executing, Control.rename, hstmt] using h m hm d

end State.Older

end Machine

namespace Session

/-! ## Reports -/

def Report.rename (f : Renaming) : Report → Report
  | .ended o => .ended (o.rename f)
  | r => r

def Verdict.rename (f : Renaming) : Verdict → Verdict
  | .failed e => .failed (e.rename f)
  | v => v

theorem Report.verdict_rename (f : Renaming) (r : Report) :
    (r.rename f).verdict = r.verdict.rename f := by
  cases r with
  | ended o => cases o <;> rfl
  | _ => rfl

/-- What a renamed machine reports. -/
theorem report_continueWith_rename (f : Renaming) (t : BindingTable) (c : Machine.Config)
    (s s' : Session) :
    (s'.continueWith (c.rename f t)).1 = (s.continueWith c).1.rename f := by
  simp only [continueWith, Machine.outcome?_rename]
  cases c.outcome? <;> rfl

/-! ## Sites that were handed out -/

/-- No code has a site that was not handed out, and the table has no entry for such a site. -/
structure Numbered (s : Session) : Prop where
  older : s.machine.Older s.nextSite
  unused : ∀ site, s.nextSite ≤ site → s.machine.table.hops? site = none

namespace Numbered

variable {s : Session}

theorem start (clock : Clock) (room : Option Room) : (start clock room).Numbered := by
  refine ⟨fun m _ d => ?_, fun site _ => BindingTable.hops?_empty site⟩
  simp [Session.start, Machine.State.initial, Machine.State.rename, Store.rename, Store.empty,
    Store.addScope, Scope.rename, Bindings.mapValues, Value.rename]

theorem clearOutput (h : s.Numbered) : s.clearOutput.Numbered :=
  ⟨fun m hm d => congrArg (fun s : Machine.State => { s with output := s.output.clear })
    (h.older m hm d), h.unused⟩

theorem setClock (h : s.Numbered) (reading : Nat → Float) : (s.setClock reading).Numbered :=
  ⟨fun m hm d => congrArg (fun s : Machine.State => s.setClock reading) (h.older m hm d), h.unused⟩

theorem mono (h : s.Numbered) {next : Site} (hn : s.nextSite ≤ next) :
    Numbered { s with nextSite := next } :=
  ⟨h.older.mono hn, fun site hs => h.unused site (Nat.le_trans hn hs)⟩

theorem continueWith (h : s.Numbered) {c : Machine.Config} (hc : c.Older s.nextSite)
    (ht : c.state.table = s.machine.table) (steps : Nat) :
    (s.continueWith (Machine.run steps c)).2.Numbered := by
  have htable : (Machine.run steps c).state.table = s.machine.table :=
    (Machine.table_run steps c).trans ht
  have hu : ∀ site, s.nextSite ≤ site → c.state.table.hops? site = none := ht ▸ h.unused
  refine ⟨(hc.run hu steps).state, fun site hs => ?_⟩
  exact (congrArg (·.hops? site) htable).trans (h.unused site hs)

theorem readExpression (h : s.Numbered) (source : String) :
    (s.readExpression source).2.Numbered ∧ ∀ e, (s.readExpression source).1 = .ok e →
      ∀ u ∈ e.uses, u.site < (s.readExpression source).2.nextSite := by
  obtain ⟨hle, hok⟩ := Grammar.readExpression_fresh (ordinaryTokens_scan source)
    (scan source).endLine s.nextSite
  exact ⟨h.mono hle, fun e he u hu => ((hok e (readSource_eq_ok he)).bounds u hu).2⟩

/-- The ties of a program that was read are for sites that were handed out with it. -/
theorem addBindings (h : s.Numbered) {next : Site} (hn : s.nextSite ≤ next)
    {ties : List (Site × Nat)}
    (hties : ∀ site d, (site, d) ∈ ties → s.nextSite ≤ site ∧ site < next) :
    Numbered ⟨s.machine.addBindings ties, next⟩ := by
  refine ⟨(h.older.mono hn).addBindings ties, fun site hs => ?_⟩
  refine (BindingTable.hops?_insertAll_of_not_mem _ fun d hd => ?_).trans
    (h.unused site (Nat.le_trans hn hs))
  exact absurd (hties site d hd).2 (Nat.not_lt.mpr hs)

theorem readProgram (h : s.Numbered) (source : String) (tied : Bool) :
    (s.readProgram source tied).2.Numbered ∧ ∀ p, (s.readProgram source tied).1 = .ok p →
      ∀ u ∈ Stmt.eachUses p, u.site < (s.readProgram source tied).2.nextSite := by
  obtain ⟨hle, hok⟩ := Grammar.readProgram_fresh (ordinaryTokens_scan source)
    (scan source).endLine s.nextSite
  let next := (readSource Grammar.readProgram source s.nextSite).2
  have hle : s.nextSite ≤ next := hle
  unfold Session.readProgram
  dsimp only
  split
  · exact ⟨h.mono hle, nofun⟩
  · next p hp =>
    obtain ⟨hfresh, hregular⟩ := hok p (readSource_eq_ok hp)
    have huses : ∀ q, p = q → ∀ u ∈ Stmt.eachUses q, u.site < next :=
      fun q hq u hu => (hfresh.bounds u (hq ▸ hu)).2
    split
    · split
      · exact ⟨h.mono hle, nofun⟩
      · next ties hties =>
        exact ⟨h.addBindings hle fun site d hd => bounds_of_mem_ties hfresh hregular hties hd,
          fun q hq => huses q (Except.ok.inj hq)⟩
    · exact ⟨h.mono hle, fun q hq => huses q (Except.ok.inj hq)⟩

theorem interpret (h : s.Numbered) (steps : Nat) (source : String) (tied : Bool) :
    (s.interpret steps source tied).2.Numbered := by
  obtain ⟨hs, hp⟩ := h.readProgram source tied
  unfold Session.interpret
  cases hread : s.readProgram source tied with
  | mk result s' =>
    rw [hread] at hs hp
    cases result with
    | error r => exact hs
    | ok p => exact hs.continueWith (hs.older.interpreting (hp p rfl)) rfl steps

theorem executeEach (h : s.Numbered) (steps : Nat) {p : Program}
    (hp : ∀ u ∈ Stmt.eachUses p, u.site < s.nextSite) : (s.executeEach steps p).2.Numbered := by
  induction p generalizing s with
  | nil => exact h
  | cons stmt rest ih =>
    simp only [Stmt.eachUses, List.forall_mem_append] at hp
    have hs := h.continueWith (h.older.executing hp.1) rfl steps
    rw [Session.executeEach]
    cases hr : s.continueWith (Machine.run steps (s.machine.executing stmt)) with
    | mk report s' =>
      have hnext : s'.nextSite = s.nextSite := congrArg (·.2.nextSite) hr.symm
      rw [hr] at hs
      have hrest := ih hs (hnext ▸ hp.2)
      cases report with
      | rejected r => exact hs
      | unfinished => exact hs
      | ended o => cases o <;> first | exact hrest | exact hs

theorem perform (h : s.Numbered) (steps : Nat) (r : Request) : (s.perform steps r).2.Numbered := by
  cases r with
  | evaluate source =>
    obtain ⟨hs, he⟩ := h.readExpression source
    unfold Session.perform Session.evaluate
    cases hread : s.readExpression source with
    | mk result s' =>
      simp only [hread] at hs he ⊢
      cases result with
      | error r => exact hs
      | ok e => exact hs.continueWith (hs.older.evaluating (he e rfl)) rfl steps
  | interpret source tied => exact h.interpret steps source tied
  | execute source tied =>
    obtain ⟨hs, hp⟩ := h.readProgram source tied
    unfold Session.perform Session.execute
    cases hread : s.readProgram source tied with
    | mk result s' =>
      simp only [hread] at hs hp ⊢
      cases result with
      | error r => exact hs
      | ok p => exact hs.executeEach steps (hp p rfl)

end Numbered

theorem Numbered.runEach {s : Session} (h : s.Numbered) (history : List (Nat × String)) :
    (runEach run s history).2.Numbered := by
  induction history generalizing s with
  | nil => exact h
  | cons entry rest ih => exact ih (h.interpret entry.1 entry.2 true)

theorem Reachable.numbered {s : Session} (h : s.Reachable) : s.Numbered := by
  induction h with
  | start clock room => exact .start clock room
  | clearOutput _ ih => exact ih.clearOutput
  | setClock reading _ ih => exact ih.setClock reading
  | perform _ _ ih => exact ih.perform _ _

/-- Reading a source with sites from a later number on. -/
theorem readSource_add (source : String) (first d : Site) :
    readSource Grammar.readProgram source (first + d) =
      match readSource Grammar.readProgram source first with
      | (.ok p, next) => (.ok (p.map (·.rename ⟨(· + d), id⟩)), next + d)
      | (.error r, next) => (.error r, next + d) := by
  have hread := Grammar.readProgram_rename d id (scan source).tokens (scan source).endLine first
  have htokens : (scan source).tokens.map (·.rename ⟨(· + d), id⟩) = (scan source).tokens :=
    List.map_id _
  rw [htokens] at hread
  simp only [readSource]
  rw [show (scan source).endLine = id (scan source).endLine from rfl, hread]
  simp only [Grammar.Reading.rename, id]
  cases (Grammar.readProgram (scan source).tokens (scan source).endLine first).result with
  | ok p =>
    dsimp only
    split <;> rfl
  | error ds =>
    have hds : ds.map (·.rename ⟨(· + d), id⟩) = ds :=
      (List.map_congr_left fun e _ => Diagnostic.rename_eq_self (fun _ => rfl) e).trans
        (List.map_id' ds)
    simp only [hds]

end Session

end LoxLang
