import LoxLang.Proofs.Machine.Sequencing
import LoxLang.Proofs.Session.Numbering

/-!
# One source or two

When a source has ended without a failure, running another one is the same as running both as one
source with a newline between them. What is different are the lines on which the code of the second
source stands. To tell them from those of older code, a session can run a source with marks on all
lines.

## Main definitions

* `Origin.mark`: lines with a mark that tells where code comes from.
* `Session.runMarked`: a run in which all lines are marked.
-/

namespace LoxLang

/-! ## Reading two sources -/

theorem readSource_eq_mk {α : Type} {read : List Token → Nat → Site → Grammar.Reading α}
    {source : String} {first next : Site} {a : α} :
    readSource read source first = (.ok a, next) ↔ (scan source).faults = [] ∧
      read (scan source).tokens (scan source).endLine first = ⟨.ok a, next⟩ := by
  simp only [readSource]
  cases hr : read (scan source).tokens (scan source).endLine first with
  | mk result n =>
    cases result with
    | error ds => simp
    | ok b =>
      by_cases hf : (scan source).faults = []
      · simp [Scan.diagnostics, hf]
      · simp [Scan.diagnostics, hf]

/-- The tokens of the second source only have their lines moved. -/
theorem readSource_append {first second : String} {start mid next : Site} {p q : Program}
    (hp : readSource Grammar.readProgram first start = (.ok p, mid))
    (hq : readSource Grammar.readProgram second mid = (.ok q, next)) :
    readSource Grammar.readProgram (first ++ "\n" ++ second) start =
      (.ok (p ++ q.map (·.rename (.ofLine (· + (first.toList.count '\n' + 1))))), next) := by
  obtain ⟨hfaults, hread⟩ := readSource_eq_mk.mp hp
  obtain ⟨hfaults', hread'⟩ := readSource_eq_mk.mp hq
  let k := first.toList.count '\n' + 1
  have hmoved := Grammar.readProgram_rename 0 (· + k) (scan second).tokens (scan second).endLine mid
  rw [hread'] at hmoved
  refine readSource_eq_mk.mpr ⟨faults_scan_append hfaults hfaults', ?_⟩
  rw [tokens_scan_append hfaults]
  exact Grammar.readProgram_append hread hmoved _

/-! ## Marks -/

/-- Code comes from the source that is run, or it is older. -/
inductive Origin where
  | older
  | newer
  deriving DecidableEq, Repr

namespace Origin

/-- A line with a mark: lines of newer code are odd. -/
def mark : Origin → Nat → Nat
  | older, line => 2 * line
  | newer, line => 2 * line + 1

/-- A line, when newer code stands `k` lines later. -/
def moved (k : Nat) : Origin → Nat → Nat
  | older, line => line
  | newer, line => line + k

end Origin

namespace Renaming

def marking (o : Origin) : Renaming := .ofLine o.mark

/-- Takes marks away when newer code stands `k` lines later. -/
def unmarking (k : Nat) : Renaming :=
  .ofLine fun line => if line % 2 = 0 then line / 2 else line / 2 + k

theorem unmarking_mark (k : Nat) (o : Origin) (line : Nat) :
    (unmarking k).line (o.mark line) = o.moved k line := by
  cases o <;> simp only [unmarking, ofLine, Origin.mark, Origin.moved] <;> split <;> omega

theorem marking_andThen_unmarking (k : Nat) (o : Origin) :
    (marking o).andThen (unmarking k) = .ofLine (o.moved k) := by
  have hline : (unmarking k).line ∘ o.mark = o.moved k := funext fun line => unmarking_mark k o line
  rw [andThen, ← hline]
  rfl

end Renaming

namespace Session

def rename (f : Renaming) (s : Session) : Session :=
  { s with machine := s.machine.rename f s.machine.table }

@[simp] theorem printed_rename (f : Renaming) (s : Session) : (s.rename f).printed = s.printed := rfl

@[simp] theorem nextSite_rename (f : Renaming) (s : Session) : (s.rename f).nextSite = s.nextSite :=
  rfl

/-- Runs a source after marking its code as newer and all other code as older. -/
def runMarked (steps : Nat) (s : Session) (source : String) : Report × Session :=
  match s.readProgram source true with
  | (.error r, s) => (.rejected r, s)
  | (.ok p, s) =>
    let machine := s.machine.rename (.marking .older) s.machine.table
    s.continueWith (Machine.run steps (machine.interpreting (p.map (·.rename (.marking .newer)))))

/-- A marked machine whose marks are taken away. -/
theorem run_unmarked (s : Machine.State) (q : Program) (k n : Nat) :
    Machine.run n (s.interpreting (q.map (·.rename (.ofLine (· + k))))) =
      (Machine.run n ((s.rename (.marking .older) s.table).interpreting
        (q.map (·.rename (.marking .newer))))).rename (.unmarking k) s.table := by
  rw [← Machine.run_rename (f := .unmarking k) (t := s.table) _ fun site => rfl]
  congr 1
  have hstate : (s.rename (.marking .older) s.table).rename (.unmarking k) s.table = s := by
    rw [Machine.State.rename_rename, Renaming.marking_andThen_unmarking]
    exact Machine.State.rename_id s
  have hprogram : (q.map (·.rename (.marking .newer))).map (·.rename (.unmarking k)) =
      q.map (·.rename (.ofLine (· + k))) := by
    rw [List.map_map]
    refine List.map_congr_left fun stmt _ => ?_
    rw [Function.comp_apply, Stmt.rename_rename, Renaming.marking_andThen_unmarking]
    rfl
  simp [Machine.Config.rename, Machine.State.interpreting, Machine.Control.rename, Value.rename,
    Machine.Frame.rename, hstate, ← hprogram]

/-- The value that the statements of a program are given does not matter. -/
theorem continueWith_program (s : Session) (n : Nat) (v : Value) (q : Program)
    (m : Machine.State) :
    s.continueWith (Machine.run n ⟨.value v, [.program q], m⟩) =
      s.continueWith (Machine.run n (m.interpreting q)) := by
  cases n with
  | zero => rfl
  | succ n =>
    rw [Machine.run_succ, Machine.run_succ]
    rfl

theorem continueWith_rename (f : Renaming) {s s' : Session} (hn : s'.nextSite = s.nextSite)
    {c : Machine.Config} {t : BindingTable} (ht : c.state.table = t) :
    s'.continueWith (c.rename f t) =
      ((s.continueWith c).1.rename f, (s.continueWith c).2.rename f) := by
  subst ht
  refine Prod.ext (report_continueWith_rename f _ c s s') ?_
  simp only [continueWith, Session.rename, hn]
  rfl

/-! ## Running two sources -/

/-- Whether a source is accepted. -/
def Compiles (s : Session) (source : String) : Prop := (s.readProgram source true).1.isOk

instance (s : Session) (source : String) : Decidable (s.Compiles source) :=
  inferInstanceAs (Decidable (_ = true))

/-- An accepted source, read in this session or in a later one. -/
theorem Compiles.exists_read {s : Session} {source : String} (h : s.Compiles source)
    {first : Site} (hf : s.nextSite ≤ first) : ∃ p next ties,
      readSource Grammar.readProgram source first = (.ok p, next) ∧
        Scoping.analyse p = .ok ties := by
  unfold Compiles Session.readProgram at h
  obtain ⟨d, rfl⟩ := Nat.exists_eq_add_of_le hf
  rw [readSource_add]
  cases hread : readSource Grammar.readProgram source s.nextSite with
  | mk result next =>
    simp only [hread] at h
    cases result with
    | error r => cases h
    | ok p =>
      cases ha : Scoping.analyse p with
      | error ds => simp [ha, Except.isOk, Except.toBool] at h
      | ok ties =>
        refine ⟨_, _, ties.map fun tie => (tie.1 + d, tie.2), rfl, ?_⟩
        rw [Scoping.analyse_rename, ha]

theorem run_of_read {s : Session} {source : String} {p : Program} {next : Site}
    {ties : List (Site × Nat)}
    (hread : readSource Grammar.readProgram source s.nextSite = (.ok p, next))
    (ha : Scoping.analyse p = .ok ties) (n : Nat) :
    s.run n source = continueWith ⟨s.machine.addBindings ties, next⟩
      (Machine.run n ((s.machine.addBindings ties).interpreting p)) := by
  simp only [run_eq, hread, ha]

theorem runMarked_of_read {s : Session} {source : String} {p : Program} {next : Site}
    {ties : List (Site × Nat)}
    (hread : readSource Grammar.readProgram source s.nextSite = (.ok p, next))
    (ha : Scoping.analyse p = .ok ties) (n : Nat) :
    let machine := s.machine.addBindings ties
    s.runMarked n source = continueWith ⟨machine, next⟩
      (Machine.run n ((machine.rename (.marking .older) machine.table).interpreting
        (p.map (·.rename (.marking .newer))))) := by
  simp [runMarked, Session.readProgram, hread, ha]

/-- The sites of a program that was read are new. -/
theorem bounds_of_read {source : String} {p : Program} {first next : Site}
    {ties : List (Site × Nat)}
    (hread : readSource Grammar.readProgram source first = (.ok p, next))
    (ha : Scoping.analyse p = .ok ties) :
    first ≤ next ∧ (∀ u ∈ Stmt.eachUses p, u.site < next) ∧
      ∀ site d, (site, d) ∈ ties → first ≤ site ∧ site < next := by
  obtain ⟨hle, hok⟩ := Grammar.readProgram_fresh (ordinaryTokens_scan source) (scan source).endLine
    first
  have hnext : (Grammar.readProgram (scan source).tokens (scan source).endLine first).nextSite =
    next := congrArg Prod.snd hread
  rw [hnext] at hle hok
  obtain ⟨hfresh, hregular⟩ := hok p (readSource_eq_ok (congrArg Prod.fst hread))
  exact ⟨hle, fun u hu => (hfresh.bounds u hu).2,
    fun site d hd => bounds_of_mem_ties hfresh hregular ha hd⟩

/-- A source and a marked run of it, when its lines come `k` lines later. -/
theorem continueWith_unmarked {s s' : Session} (hn : s'.nextSite = s.nextSite) (m : Machine.State)
    (q : Program) (k n : Nat) :
    let marked := s.continueWith (Machine.run n ((m.rename (.marking .older) m.table).interpreting
      (q.map (·.rename (.marking .newer)))))
    s'.continueWith (Machine.run n (m.interpreting (q.map (·.rename (.ofLine (· + k)))))) =
      (marked.1.rename (.unmarking k), marked.2.rename (.unmarking k)) := by
  intro marked
  rw [run_unmarked]
  exact continueWith_rename _ hn (Machine.table_run n _)

/-- A program that ends without a failure leads to the statements behind it, also when the table
already has the ties for them. -/
theorem exists_run_append {s : Session} (h : s.Numbered) {t : BindingTable} {next : Site}
    (hn : s.nextSite ≤ next) (ht : ∀ site < s.nextSite, t.hops? site = s.machine.table.hops? site)
    (hu : ∀ site, next ≤ site → t.hops? site = none) {p : Program}
    (hp : ∀ u ∈ Stmt.eachUses p, u.site < s.nextSite) {m : Nat}
    (hok : (s.continueWith (Machine.run m (s.machine.interpreting p))).1.verdict = .ok)
    (q : Program) :
    ∃ d v, Machine.run d (Machine.State.interpreting { s.machine with table := t } (p ++ q)) =
      ⟨.value v, [.program q],
        { (Machine.run m (s.machine.interpreting p)).state with table := t }⟩ := by
  have hrun := (h.older.interpreting hp).run_withTable h.unused hn ht hu m
  have hahead : Machine.Config.Ahead q ((s.machine.interpreting p).withTable t)
      (Machine.State.interpreting { s.machine with table := t } (p ++ q)) :=
    .intro ⟨.value .nil, [], { s.machine with table := t }⟩ p
  have houtcome : ∃ o, (Machine.run m ((s.machine.interpreting p).withTable t)).outcome? = some o ∧
      ∀ e, o ≠ .failed e := by
    rw [hrun]
    generalize Machine.run m (s.machine.interpreting p) = c at hok
    have hsame : (c.withTable t).outcome? = c.outcome? := by
      obtain ⟨control, frames, state⟩ := c
      cases control <;> cases frames <;> rfl
    rw [hsame]
    unfold continueWith at hok
    cases ho : c.outcome? with
    | none => simp [ho, Report.verdict] at hok
    | some o =>
      refine ⟨o, rfl, fun e he => ?_⟩
      simp [ho, he, Report.verdict] at hok
  obtain ⟨d, v, hd⟩ := hahead.run houtcome
  rw [hrun] at hd
  exact ⟨d, v, hd⟩

/-- After a source that ended without a failure, a second source prints the same, counts the same
sites and does the same as at the end of both sources in one, where its lines come later: a run with
marks shows what each of the two runs does. -/
theorem Reachable.run_split {s : Session} (h : s.Reachable) {first second : String}
    (hfirst : s.Compiles first) (hsecond : s.Compiles second) {m : Nat}
    (hok : (s.run m first).1.verdict = .ok) :
    ∃ d, ∀ n,
      let k := first.toList.count '\n' + 1
      let marked := (s.run m first).2.runMarked n second
      let two := (s.run m first).2.run n second
      let one := s.run (d + n) (first ++ "\n" ++ second)
      two = (marked.1.rename (.unmarking 0), marked.2.rename (.unmarking 0)) ∧
        one = (marked.1.rename (.unmarking k), marked.2.rename (.unmarking k)) ∧
        one.2.printed = two.2.printed ∧
        one.2.nextSite = two.2.nextSite ∧
        ∀ e o line, marked.1.verdict = .failed (.error e (Origin.mark o line)) →
          two.1.verdict = .failed (.error e line) ∧
            one.1.verdict = .failed (.error e (o.moved k line)) := by
  obtain ⟨p, mid, ties, hread, ha⟩ := hfirst.exists_read (Nat.le_refl _)
  obtain ⟨hle, huses, hties⟩ := bounds_of_read hread ha
  obtain ⟨q, next, ties', hread', ha'⟩ := hsecond.exists_read hle
  obtain ⟨hle', -, hties'⟩ := bounds_of_read hread' ha'
  let k := first.toList.count '\n' + 1
  let q' := q.map (·.rename (.ofLine (· + k)))
  have hq' : Scoping.analyse q' = .ok ties' := by
    rw [Scoping.analyse_rename, ha']
    exact congrArg Except.ok (List.map_id' ties')
  -- The machine runs the first source, and the ties of the second one are there already.
  let s₁ : Session := ⟨s.machine.addBindings ties, mid⟩
  have hnumbered : s₁.Numbered := h.numbered.addBindings hle hties
  have hrun : s.run m first = s₁.continueWith (Machine.run m (s₁.machine.interpreting p)) :=
    run_of_read hread ha m
  rw [hrun] at hok ⊢
  obtain ⟨d, v, hd⟩ := exists_run_append hnumbered hle' (t := s₁.machine.table.insertAll ties')
    (fun site hs => BindingTable.hops?_insertAll_of_not_mem _ fun d hd =>
      absurd (hties' site d hd).1 (Nat.not_le.mpr hs))
    (fun site hs => (BindingTable.hops?_insertAll_of_not_mem _ fun d hd =>
      absurd (hties' site d hd).2 (Nat.not_lt.mpr hs)).trans
        (hnumbered.unused site (Nat.le_trans hle' hs))) huses hok q'
  refine ⟨d, fun n => ?_⟩
  let c := Machine.run m (s₁.machine.interpreting p)
  let machine := c.state.addBindings ties'
  have htwo : (s₁.continueWith c).2.run n second =
      continueWith ⟨machine, next⟩ (Machine.run n (machine.interpreting q)) :=
    run_of_read hread' ha' n
  have hmarked : (s₁.continueWith c).2.runMarked n second = continueWith ⟨machine, next⟩
      (Machine.run n ((machine.rename (.marking .older) machine.table).interpreting
        (q.map (·.rename (.marking .newer))))) :=
    runMarked_of_read hread' ha' n
  have hone : s.run (d + n) (first ++ "\n" ++ second) =
      continueWith ⟨s.machine.addBindings (ties ++ ties'), next⟩
        (Machine.run n (machine.interpreting q')) := by
    have hties : s.machine.addBindings (ties ++ ties') =
        { s₁.machine with table := s₁.machine.table.insertAll ties' } := by
      rw [Machine.State.addBindings, BindingTable.insertAll_append]
      rfl
    have hmachine : machine = { c.state with table := s₁.machine.table.insertAll ties' } := by
      have htable : c.state.table = s₁.machine.table := Machine.table_run m _
      rw [← htable]
      rfl
    rw [run_of_read (readSource_append hread hread') (Scoping.analyse_append ha hq'),
      Machine.run_add, hties, hd, continueWith_program, hmachine]
  have hq : q.map (·.rename (.ofLine (· + 0))) = q :=
    (List.map_congr_left fun stmt _ => Stmt.rename_id stmt).trans (List.map_id' q)
  rw [← hq, continueWith_unmarked rfl, ← hmarked] at htwo
  replace hone := hone.trans (continueWith_unmarked (s := ⟨machine, next⟩) rfl machine q k n)
  rw [← hmarked] at hone
  refine ⟨htwo, hone, ?_, ?_, fun e o line hv => ?_⟩
  · rw [htwo, hone, printed_rename, printed_rename]
  · rw [htwo, hone, nextSite_rename, nextSite_rename]
  · rw [htwo, hone, Report.verdict_rename, Report.verdict_rename, hv]
    simp only [Verdict.rename, Failure.rename, Renaming.unmarking_mark]
    cases o <;> exact ⟨rfl, rfl⟩

/-- An error on the second line of the second source is on the fourth line of both in one. -/
theorem Reachable.run_split_fourth_line :
    let s := Session.start (.steady 0) none
    let first := "var a=\"x\";\nfun f(){print a;}"
    let second := "f();\nf.b;"
    s.Compiles first ∧ s.Compiles second ∧ (s.run 20 first).1.verdict = .ok ∧
      ((s.run 20 first).2.run 40 second).1.verdict = .failed (.error .noProperties 2) ∧
        ∃ d, (s.run (d + 40) (first ++ "\n" ++ second)).1.verdict =
            .failed (.error .noProperties 4) ∧
          (s.run (d + 40) (first ++ "\n" ++ second)).2.printed = "x\n" := by
  intro s first second
  have hfirst : s.Compiles first := by decide +kernel
  have hsecond : s.Compiles second := by decide +kernel
  have hok : (s.run 20 first).1.verdict = .ok := by decide +kernel
  have hmarked : ((s.run 20 first).2.runMarked 40 second).1.verdict =
      .failed (.error .noProperties (Origin.newer.mark 2)) := by decide +kernel
  have hprinted : ((s.run 20 first).2.run 40 second).2.printed = "x\n" := by decide +kernel
  have hk : Origin.newer.moved (first.toList.count '\n' + 1) 2 = 4 := by decide +kernel
  obtain ⟨d, hd⟩ := Reachable.run_split (.start (.steady 0) none) hfirst hsecond hok
  obtain ⟨-, -, hsame, -, herror⟩ := hd 40
  obtain ⟨htwo, hone⟩ := herror .noProperties .newer 2 hmarked
  rw [hk] at hone
  exact ⟨hfirst, hsecond, hok, htwo, d, hone, hsame.trans hprinted⟩

end Session

end LoxLang
