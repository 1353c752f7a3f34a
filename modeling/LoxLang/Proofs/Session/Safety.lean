import LoxLang.Proofs.Grammar.Signs
import LoxLang.Proofs.Grammar.Sites
import LoxLang.Proofs.Machine.Safety
import LoxLang.Proofs.Machine.Table
import LoxLang.Proofs.Session.History
import LoxLang.Proofs.Token.Scan

/-!
# Sessions never panic

A session keeps the invariant of its machine from one request to the next: the sites of a new source
are new, so its ties do not touch those of older code, and a machine that has ended stands in the
global scope again, whatever it ended with.

## Main definitions

* `Request`: what can be asked of a session.
* `Session.Reachable`: the sessions that finished requests lead to.
* `Session.starts`: the configurations at which a request starts the machine.
* `Session.signs`: the signs of the operators in what a request reads.

## Main results

* `Reachable.never_panics`: no step of a session panics, and its operators are those of its sources.
-/

namespace LoxLang

open Scoping Grammar Machine

/-- What can be asked of a session. -/
inductive Request where
  /-- Evaluate an expression whose names are not tied. -/
  | evaluate (source : String)
  /-- Run a program as a whole. -/
  | interpret (source : String) (tied : Bool)
  /-- Run the statements of a program one by one. -/
  | execute (source : String) (tied : Bool)
  deriving DecidableEq, Repr

def Request.source : Request → String
  | .evaluate source | .interpret source _ | .execute source _ => source

namespace Session

/-- Answers a request, with a report for each run of the machine. -/
def perform (steps : Nat) (s : Session) : Request → List Report × Session
  | .evaluate source =>
    let (report, s) := s.evaluate steps source
    ([report], s)
  | .interpret source tied =>
    let (report, s) := s.interpret steps source tied
    ([report], s)
  | .execute source tied =>
    match s.execute steps source tied with
    | (.error r, s) => ([.rejected r], s)
    | (.ok reports, s) => (reports, s)

/-- The sessions that requests lead to when every run of the machine ends. -/
inductive Reachable : Session → Prop where
  | start (clock : Clock) (room : Option Room) : Reachable (.start clock room)
  | clearOutput : Reachable s → Reachable s.clearOutput
  | setClock (reading : Nat → Float) : Reachable s → Reachable (s.setClock reading)
  | perform : Reachable s → (∀ report ∈ (s.perform steps r).1, report.isFinished) →
      Reachable (s.perform steps r).2

/-- The configurations at which the statements of a program are started one by one. -/
def statementStarts (steps : Nat) (s : Session) : Program → List Config
  | [] => []
  | stmt :: rest =>
    s.machine.executing stmt ::
      match s.continueWith (Machine.run steps (s.machine.executing stmt)) with
      | (.ended (.value _), s) => statementStarts steps s rest
      | (.ended (.returned _), s) => statementStarts steps s rest
      | _ => []

/-- The configurations at which a request starts the machine. -/
def starts (steps : Nat) (s : Session) : Request → List Config
  | .evaluate source =>
    match s.readExpression source with
    | (.error _, _) => []
    | (.ok e, s) => [s.machine.evaluating e]
  | .interpret source tied =>
    match s.readProgram source tied with
    | (.error _, _) => []
    | (.ok p, s) => [s.machine.interpreting p]
  | .execute source tied =>
    match s.readProgram source tied with
    | (.error _, _) => []
    | (.ok p, s) => s.statementStarts steps p

/-! ## The invariant of a session -/

/-- The machine has ended, all its code is grounded, and the table has no entry for the sites that
were not handed out. -/
structure Sound (s : Session) : Prop where
  store : s.machine.store.Fits (Occurrence.Grounded s.machine.table s.nextSite)
  scope : s.machine.scope = globalScope
  depth : s.machine.depth = 0
  unused : ∀ site, s.nextSite ≤ site → s.machine.table.hops? site = none

theorem sound_start (clock : Clock) (room : Option Room) : (start clock room).Sound := by
  refine ⟨⟨fun {scope name v} hv => ?_, fun {id name v} hv => ?_⟩, rfl, rfl,
    fun site _ => BindingTable.hops?_empty site⟩
  · have hv : (Store.empty.addScope none [("clock", .native .clock)]).lookup? scope name = some v :=
      hv
    rw [Store.lookup?_addScope] at hv
    split at hv
    · obtain rfl : Value.native .clock = v := by simp_all [Bindings.get?]
      trivial
    · simp [Store.lookup?, Store.empty] at hv
  · simp [start, State.initial, Store.field?, Store.addScope, Store.empty] at hv

/-! ## Reading -/

theorem ordinaryTokens_scan (source : String) : OrdinaryTokens (scan source).tokens := by
  rw [scan_eq_ofPieces]
  exact fun _ ht hk => Scan.ofSpelling?_eq_none_of_mem_tokens ht hk

theorem readSource_eq_ok {α : Type} {read : List Token → Nat → Site → Reading α} {source : String}
    {first : Site} {a : α} (h : (readSource read source first).1 = .ok a) :
    (read (scan source).tokens (scan source).endLine first).result = .ok a := by
  unfold readSource at h
  dsimp only at h
  split at h
  · next b hb =>
    split at h
    · cases h
      exact hb
    · cases h
  · cases h

section Ties

variable {first next : Nat} {p : Program} {ties : List (Site × Nat)}

/-- The ties of a program are for its own sites. -/
theorem bounds_of_mem_ties (hf : Fresh first next (Stmt.eachUses p)) (hr : Stmt.EachRegular p)
    (ha : analyse p = .ok ties) {site : Site} {d : Nat} (h : (site, d) ∈ ties) :
    first ≤ site ∧ site < next := by
  obtain ⟨o, ho, htie⟩ := List.mem_filterMap.mp (((covers_of_analyse hr ha).mem_iff _).mp h)
  obtain ⟨e, -, heq⟩ := Option.map_eq_some_iff.mp htie
  obtain ⟨rfl, -⟩ := Prod.mk.inj heq
  refine hf.bounds o.use ?_
  rw [← Stmt.map_use_eachOccurrences []]
  exact List.mem_map_of_mem ho

/-- The occurrences of an accepted program are tied when its sites are new. -/
theorem tiedBy_of_analyse (hf : Fresh first next (Stmt.eachUses p)) (hr : Stmt.EachRegular p)
    (ha : analyse p = .ok ties) {t : BindingTable} (hu : ∀ site, first ≤ site → t.hops? site = none)
    {o : Occurrence} (ho : o ∈ Stmt.eachOccurrences [] p) :
    o.TiedBy (t.insertAll ties) ∧ o.Legal := by
  have hcovers := covers_of_analyse hr ha
  have huse : ∀ o ∈ Stmt.eachOccurrences [] p, o.use ∈ Stmt.eachUses p := fun o ho => by
    rw [← Stmt.map_use_eachOccurrences []]
    exact List.mem_map_of_mem ho
  refine ⟨hcovers.tiedBy ?_ (fun o ho => hu _ (hf.bounds _ (huse o ho)).1) ho, hcovers.legal o ho⟩
  have hsites := hf.nodup
  rw [← Stmt.map_use_eachOccurrences [], List.map_map] at hsites
  exact hsites

end Ties

namespace Sound

variable {s : Session}

theorem mono (h : s.Sound) {n : Nat} (hn : s.nextSite ≤ n) {t : BindingTable}
    (ht : ∀ site < s.nextSite, t.hops? site = s.machine.table.hops? site)
    (hu : ∀ site, n ≤ site → t.hops? site = none) :
    Sound ⟨{ s.machine with table := t }, n⟩ :=
  ⟨h.store.mono fun _ ho => ho.mono hn ht, h.scope, h.depth, hu⟩

theorem clearOutput (h : s.Sound) : s.clearOutput.Sound := ⟨h.store, h.scope, h.depth, h.unused⟩

theorem setClock (h : s.Sound) (reading : Nat → Float) : (s.setClock reading).Sound :=
  ⟨h.store, h.scope, h.depth, h.unused⟩

/-- An expression that is read is grounded: its sites are new, so none of them is tied. -/
theorem readExpression (h : s.Sound) (source : String) :
    (s.readExpression source).2.Sound ∧ ∀ e, (s.readExpression source).1 = .ok e →
      UsesFit (Occurrence.Grounded (s.readExpression source).2.machine.table
        (s.readExpression source).2.nextSite) [] none e.uses := by
  obtain ⟨hle, hok⟩ := readExpression_fresh (ordinaryTokens_scan source) (scan source).endLine
    s.nextSite
  refine ⟨h.mono hle (fun _ _ => rfl) fun site hs => h.unused site (Nat.le_trans hle hs),
    fun e he u hu => ?_⟩
  have hfresh := hok e (readSource_eq_ok he)
  exact ⟨(hfresh.bounds u hu).2, hfresh.ordinary u hu, .inl (h.unused _ (hfresh.bounds u hu).1)⟩

/-- A program that is read is grounded, whether its names are tied or not. -/
theorem readProgram (h : s.Sound) (source : String) (tied : Bool) :
    (s.readProgram source tied).2.Sound ∧ ∀ p, (s.readProgram source tied).1 = .ok p →
      Stmt.EachFits (Occurrence.Grounded (s.readProgram source tied).2.machine.table
        (s.readProgram source tied).2.nextSite) [] p := by
  obtain ⟨hle, hok⟩ := readProgram_fresh (ordinaryTokens_scan source) (scan source).endLine
    s.nextSite
  let next := (readSource Grammar.readProgram source s.nextSite).2
  have hle : s.nextSite ≤ next := hle
  have hread : Sound { s with nextSite := next } :=
    h.mono hle (fun _ _ => rfl) fun site hs => h.unused site (Nat.le_trans hle hs)
  unfold Session.readProgram
  dsimp only
  split
  · exact ⟨hread, nofun⟩
  · next p hp =>
    obtain ⟨hfresh, hregular⟩ := hok p (readSource_eq_ok hp)
    have huse : ∀ o ∈ Stmt.eachOccurrences [] p, o.use ∈ Stmt.eachUses p := fun o ho => by
      rw [← Stmt.map_use_eachOccurrences []]
      exact List.mem_map_of_mem ho
    split
    · split
      · exact ⟨hread, nofun⟩
      · next ties hties =>
        have hbounds : ∀ site d, (site, d) ∈ ties → s.nextSite ≤ site ∧ site < next :=
          fun site d hd => bounds_of_mem_ties hfresh hregular hties hd
        refine ⟨h.mono hle (fun site hs => ?_) fun site hs => ?_, fun q hq => ?_⟩
        · refine BindingTable.hops?_insertAll_of_not_mem _ fun d hd => ?_
          exact absurd (hbounds site d hd).1 (Nat.not_le.mpr hs)
        · refine (BindingTable.hops?_insertAll_of_not_mem _ fun d hd => ?_).trans
            (h.unused site (Nat.le_trans hle hs))
          exact absurd (hbounds site d hd).2 (Nat.not_lt.mpr hs)
        · cases hq
          refine ⟨hregular, fun o ho => ⟨(hfresh.bounds _ (huse o ho)).2,
            hfresh.ordinary _ (huse o ho), .inr ?_⟩⟩
          exact tiedBy_of_analyse hfresh hregular hties h.unused ho
    · refine ⟨hread, fun q hq => ?_⟩
      cases hq
      refine ⟨hregular, fun o ho => ⟨(hfresh.bounds _ (huse o ho)).2,
        hfresh.ordinary _ (huse o ho), .inl ?_⟩⟩
      exact h.unused _ (hfresh.bounds _ (huse o ho)).1

end Sound

/-! ## Running -/

/-- A configuration that the machine of a session can come to. -/
structure Admits (s : Session) (c : Config) : Prop where
  fits : c.Fits (Occurrence.Grounded s.machine.table s.nextSite)
  table : c.state.table = s.machine.table
  noFault : c.NoFault

namespace Admits

variable {s : Session} {c : Config}

theorem not_panics (h : s.Admits c) : ¬ c.Panics := by
  have hfits := h.fits
  rw [← h.table] at hfits
  exact hfits.not_panics

theorem step (h : s.Admits c) : s.Admits (Machine.step c) :=
  ⟨h.fits.step fun _ ho => ho.ordinary, (table_step c).trans h.table, h.noFault.step h.not_panics⟩

theorem run (h : s.Admits c) (n : Nat) : s.Admits (Machine.run n c) := by
  induction n generalizing c with
  | zero => exact h
  | succ n ih =>
    rw [run_succ]
    exact ih h.step

/-- A machine that has ended has no frames left. -/
theorem leaves_of_outcome? {P : Occurrence → Prop} {c : Config} (h : c.Fits P) {o : Outcome}
    (ho : c.outcome? = some o) : Leaves P [] c.state := by
  obtain ⟨control, frames, state⟩ := c
  cases frames with
  | cons f k => cases control <;> cases ho
  | nil =>
    cases control with
    | value v =>
      obtain ⟨-, scopes, pending, h⟩ := h
      exact h.leaves
    | returning v => exact h.2
    | failing f => exact h
    | eval e => cases ho
    | exec stmt => cases ho

/-- Whatever a machine ended with, its session can go on. -/
theorem sound (h : s.Admits c) (hs : s.Sound) {o : Outcome} (ho : c.outcome? = some o) :
    Sound { s with machine := c.state } := by
  have hleaves := leaves_of_outcome? h.fits ho
  obtain ⟨scopes, pending, hframes⟩ := hleaves.frames
  cases hframes with
  | nil hg =>
    have hstore := hleaves.store
    rw [← h.table] at hstore
    exact ⟨hstore, hg, hleaves.depth, h.table ▸ hs.unused⟩

end Admits

theorem Sound.admits_evaluating {s : Session} (h : s.Sound) {e : Expr}
    (he : UsesFit (Occurrence.Grounded s.machine.table s.nextSite) [] none e.uses) :
    s.Admits (s.machine.evaluating e) :=
  ⟨⟨[], none, he, ⟨h.store, h.depth⟩, trivial, .nil h.scope⟩, rfl, nofun⟩

theorem Sound.admits_executing {s : Session} (h : s.Sound) {stmt : Stmt}
    (hs : stmt.Fits (Occurrence.Grounded s.machine.table s.nextSite) []) :
    s.Admits (s.machine.executing stmt) := by
  refine ⟨⟨[], ⟨h.store, h.depth⟩, hs, trivial, ?_⟩, rfl, nofun⟩
  rw [Scopes.after_nil]
  exact .nil h.scope

theorem Sound.admits_interpreting {s : Session} (h : s.Sound) {p : Program}
    (hp : Stmt.EachFits (Occurrence.Grounded s.machine.table s.nextSite) [] p) :
    s.Admits (s.machine.interpreting p) := by
  have hr : Realizes s.machine.store none [] s.machine.scope := trivial
  exact ⟨⟨trivial, [], none, ⟨h.store, h.depth⟩, hr, .program hp (.nil h.scope)⟩, rfl, nofun⟩

/-- Nothing goes wrong at the given starts of the machine, and the session that they lead to is
sound if all runs end. -/
structure GoesWell (starts : List Config) (reports : List Report) (s : Session) : Prop where
  admitted : ∀ c ∈ starts, ∃ s : Session, s.Admits c
  noFault : ∀ report ∈ reports, ∀ f, report ≠ .ended (.failed (.fault f))
  sound : (∀ report ∈ reports, report.isFinished) → s.Sound

theorem GoesWell.safe {starts : List Config} {reports : List Report} {s : Session}
    (h : GoesWell starts reports s) : ∀ c ∈ starts, ∀ n, ¬ (Machine.run n c).Panics := by
  intro c hc n
  obtain ⟨s, hs⟩ := h.admitted c hc
  exact (hs.run n).not_panics

theorem GoesWell.rejected {s : Session} (h : s.Sound) (r : Rejection) :
    GoesWell [] [.rejected r] s :=
  ⟨by simp, by simp, fun _ => h⟩

/-- A run of the machine, followed by others if it ends. -/
theorem GoesWell.cons {s s' : Session} (h : s.Sound) {c : Config} (hc : s.Admits c) (steps : Nat)
    {starts : List Config} {reports : List Report}
    (hrest : (s.continueWith (Machine.run steps c)).2.Sound → GoesWell starts reports s')
    (hstop : (s.continueWith (Machine.run steps c)).1 = .unfinished → starts = [] ∧ reports = []) :
    GoesWell (c :: starts) ((s.continueWith (Machine.run steps c)).1 :: reports) s' := by
  have hrun := hc.run steps
  have hadmitted : ∃ s : Session, s.Admits c := ⟨s, hc⟩
  cases ho : (Machine.run steps c).outcome? with
  | none =>
    have hreport : (s.continueWith (Machine.run steps c)).1 = .unfinished := by
      simp [continueWith, ho]
    obtain ⟨rfl, rfl⟩ := hstop hreport
    exact ⟨by simpa using hadmitted, by simp [hreport], by simp [hreport, Report.isFinished]⟩
  | some o =>
    have hreport : (s.continueWith (Machine.run steps c)).1 = .ended o := by
      simp [continueWith, ho]
    have hrest := hrest (hrun.sound h ho)
    refine ⟨?_, ?_, fun hf => hrest.sound fun report hr => hf report (List.mem_cons_of_mem _ hr)⟩
    · simpa using ⟨hadmitted, hrest.admitted⟩
    · refine List.forall_mem_cons.mpr ⟨fun f he => ?_, hrest.noFault⟩
      rw [hreport] at he
      cases he
      exact hrun.noFault.outcome?_ne f ho

theorem GoesWell.nil {s : Session} (h : s.Sound) : GoesWell [] [] s :=
  ⟨by simp, by simp, fun _ => h⟩

theorem GoesWell.single {s : Session} (h : s.Sound) {c : Config} (hc : s.Admits c) (steps : Nat) :
    GoesWell [c] [(s.continueWith (Machine.run steps c)).1]
      (s.continueWith (Machine.run steps c)).2 :=
  .cons h hc steps .nil fun _ => ⟨rfl, rfl⟩

theorem Sound.goesWell_executeEach {steps : Nat} {s : Session} (h : s.Sound) {p : Program}
    (hp : Stmt.EachFits (Occurrence.Grounded s.machine.table s.nextSite) [] p) :
    GoesWell (s.statementStarts steps p) (s.executeEach steps p).1 (s.executeEach steps p).2 := by
  induction p generalizing s with
  | nil => exact .nil h
  | cons stmt rest ih =>
    obtain ⟨hfirst, hrest⟩ := Stmt.eachFits_cons.mp hp
    have hc := h.admits_executing hfirst
    -- The other statements are run with the same table.
    have htable : (s.continueWith (Machine.run steps (s.machine.executing stmt))).2.machine.table =
        s.machine.table := table_run _ _
    rw [Scopes.after_nil, ← htable] at hrest
    have hgo := GoesWell.cons h hc steps fun hs => ih hs hrest
    have hstop := GoesWell.single h hc steps
    rw [statementStarts, executeEach]
    cases hr : s.continueWith (Machine.run steps (s.machine.executing stmt)) with
    | mk report s' =>
      rw [hr] at hgo hstop
      cases report with
      | rejected r => exact hstop
      | unfinished => exact hstop
      | ended o =>
        cases o with
        | value v => exact hgo nofun
        | returned v => exact hgo nofun
        | failed f => exact hstop

/-- All requests go well in a sound session. -/
theorem Sound.goesWell_perform {s : Session} (h : s.Sound) (steps : Nat) (r : Request) :
    GoesWell (s.starts steps r) (s.perform steps r).1 (s.perform steps r).2 := by
  cases r with
  | evaluate source =>
    obtain ⟨hs, he⟩ := h.readExpression source
    cases hread : s.readExpression source with
    | mk result s' =>
      unfold starts perform Session.evaluate
      simp only [hread]
      rw [hread] at hs he
      cases result with
      | error r => exact .rejected hs r
      | ok e => exact .single hs (hs.admits_evaluating (he e rfl)) steps
  | interpret source tied =>
    obtain ⟨hs, hp⟩ := h.readProgram source tied
    cases hread : s.readProgram source tied with
    | mk result s' =>
      unfold starts perform Session.interpret
      simp only [hread]
      rw [hread] at hs hp
      cases result with
      | error r => exact .rejected hs r
      | ok p => exact .single hs (hs.admits_interpreting (hp p rfl)) steps
  | execute source tied =>
    obtain ⟨hs, hp⟩ := h.readProgram source tied
    cases hread : s.readProgram source tied with
    | mk result s' =>
      unfold starts perform Session.execute
      simp only [hread]
      rw [hread] at hs hp
      cases result with
      | error r => exact .rejected hs r
      | ok p => exact hs.goesWell_executeEach (hp p rfl)

theorem Reachable.sound {s : Session} (h : s.Reachable) : s.Sound := by
  induction h with
  | start clock room => exact sound_start clock room
  | clearOutput _ ih => exact ih.clearOutput
  | setClock reading _ ih => exact ih.setClock reading
  | perform _ hf ih => exact (ih.goesWell_perform _ _).sound hf

/-! ## Operators -/

/-- The signs of the operators in what a request reads. -/
def signs (s : Session) : Request → List Terminal
  | .evaluate source =>
    match (s.readExpression source).1 with
    | .error _ => []
    | .ok e => e.signs
  | .interpret source tied | .execute source tied =>
    match (s.readProgram source tied).1 with
    | .error _ => []
    | .ok p => Stmt.eachSigns p

theorem stand_of_readProgram {s : Session} {source : String} {tied : Bool} {p : Program}
    (h : (s.readProgram source tied).1 = .ok p) : Stand (Stmt.eachSigns p) (scan source).tokens :=
  (composes_of_readProgram (readSource_eq_ok (readSource_of_readProgram h))).stand

/-- The operators that a request reads are made of tokens of its source. -/
theorem stand_signs (s : Session) (r : Request) : Stand (s.signs r) (scan r.source).tokens := by
  cases r with
  | evaluate source =>
    rw [signs]
    split
    · exact .nil _
    · next e he => exact (derives_of_readExpression (readSource_eq_ok he)).stand
  | interpret source tied =>
    rw [signs]
    split
    · exact .nil _
    · next p hp => exact stand_of_readProgram hp
  | execute source tied =>
    rw [signs]
    split
    · exact .nil _
    · next p hp => exact stand_of_readProgram hp

/-- In every session that finished requests lead to, whatever they ended with, no step of the next
request panics and none of its reports is a fault. Its operators are made of tokens with their signs,
so that each of them is one that can be applied. -/
theorem Reachable.never_panics {s : Session} (h : s.Reachable) (steps : Nat) (r : Request) :
    (∀ c ∈ s.starts steps r, ∀ n, ¬ (Machine.run n c).Panics) ∧
      (∀ report ∈ (s.perform steps r).1, ∀ f, report ≠ .ended (.failed (.fault f))) ∧
        ∀ sign ∈ s.signs r, ∃ t ∈ (scan r.source).tokens, t.Is sign := by
  have hgoes := h.sound.goesWell_perform steps r
  exact ⟨hgoes.safe, hgoes.noFault, s.stand_signs r⟩

/-- A run that fails in the initializer of a derived class, and a program that derives from it, with
an initializer that runs to its end. -/
theorem Reachable.never_panics_derived :
    let failed := (Session.start (.steady 0) none).perform 150 (.interpret
      "class A{m(){return this;}}class B<A{init(){super.n;}m(){return super.m();}}B();" true)
    let next := Request.interpret "{class C<B{init(){}}C().m()==-1;}" true
    ((failed.2.starts 150 next).length = 1 ∧
      failed.2.signs next = [.kept (.mark .equalEqual) 1, .kept (.mark .minus) 1]) ∧
      (∀ c ∈ failed.2.starts 150 next, ∀ n, ¬ (Machine.run n c).Panics) ∧
        (∀ report ∈ (failed.2.perform 150 next).1, ∀ f, report ≠ .ended (.failed (.fault f))) ∧
          ∀ sign ∈ failed.2.signs next, ∃ t ∈ (scan next.source).tokens, t.Is sign :=
  ⟨by decide +kernel, never_panics (.perform (.start (.steady 0) none) (by decide +kernel)) 150 _⟩

end Session

end LoxLang
