import LoxLang.Proofs.Grammar.Lowering
import LoxLang.Proofs.Padding.Start
import LoxLang.Proofs.Session.Privacy
import LoxLang.Proofs.Session.Split

/-!
# What a `for` statement means

A `for` statement does what the loop does that it stands for. Its increment is read before its body, so
the tokens of that loop may stand in an order in which no source has them; a session can also run
tokens that come from no source.

## Main definitions

* `Session.runTokens`: a run of the program that tokens are read to.

## Main results

* `Session.run_spelled_out`: a program in which `for` statements are spelled out is accepted, prints
  the same and ends alike.
-/

namespace LoxLang.Session

open Grammar Machine Padding Scoping

/-! ## Programs of tokens -/

/-- Reads tokens as a program and ties its names to their scopes. -/
def readTokens (s : Session) (tokens : List Token) (endLine : Nat) :
    Except Rejection Program × Session :=
  let r := Grammar.readProgram tokens endLine s.nextSite
  let s := { s with nextSite := r.nextSite }
  match r.result with
  | .error ds => (.error (.unreadable [] ds), s)
  | .ok p =>
    match analyse p with
    | .error ds => (.error (.illScoped ds), s)
    | .ok ties => (.ok p, { s with machine := s.machine.addBindings ties })

/-- Runs the program that tokens are read to. -/
def runTokens (steps : Nat) (s : Session) (tokens : List Token) (endLine : Nat) :
    Report × Session :=
  match s.readTokens tokens endLine with
  | (.error r, s) => (.rejected r, s)
  | (.ok p, s) => s.continueWith (Machine.run steps (s.machine.interpreting p))

theorem readProgram_eq_readTokens (s : Session) {source : String}
    (h : (scan source).faults = []) :
    s.readProgram source true = s.readTokens (scan source).tokens (scan source).endLine := by
  have hd : (scan source).diagnostics = [] := by simp [Scan.diagnostics, h]
  simp only [Session.readProgram, readTokens, readSource, hd]
  cases (Grammar.readProgram (scan source).tokens (scan source).endLine s.nextSite).result with
  | error ds => rfl
  | ok p => cases ha : analyse p <;> simp [ha]

/-- A source without lexical faults is run as its tokens. -/
theorem run_eq_runTokens (steps : Nat) (s : Session) {source : String}
    (h : (scan source).faults = []) :
    s.run steps source = s.runTokens steps (scan source).tokens (scan source).endLine := by
  unfold run interpret runTokens
  rewrite [readProgram_eq_readTokens s h]
  rfl

/-! ## Two programs on one machine -/

/-- Two runs have the same output, and both have ended alike or neither has ended. -/
def SameEffect (r r' : Report × Session) : Prop :=
  r.1 = r'.1 ∧ r.2.machine.output = r'.2.machine.output

theorem sameEffect_of_matched {t t' : BindingTable} {c c' : Config} (h : Matched t t' c c')
    (s s' : Session) : SameEffect (s.continueWith c) (s'.continueWith c') := by
  refine ⟨?_, h.output_eq⟩
  simp only [continueWith, h.outcome?_eq]

section

variable {s : Session} {tokens : List Token} {endLine : Nat} {p : Program}
  {ties : List (Site × Nat)}

/-- Tokens that are accepted, with the program that they are read to and the ties of its names. -/
structure Reads (s : Session) (tokens : List Token) (endLine : Nat) (p : Program)
    (ties : List (Site × Nat)) : Prop where
  ordinary : OrdinaryTokens tokens
  result : (Grammar.readProgram tokens endLine s.nextSite).result = .ok p
  ties : analyse p = .ok ties

namespace Reads

theorem readTokens_eq (h : s.Reads tokens endLine p ties) :
    s.readTokens tokens endLine = (.ok p, ⟨s.machine.addBindings ties,
      (Grammar.readProgram tokens endLine s.nextSite).nextSite⟩) := by
  simp only [readTokens, h.result, h.ties]

theorem fresh (h : s.Reads tokens endLine p ties) :
    Fresh s.nextSite (Grammar.readProgram tokens endLine s.nextSite).nextSite (Stmt.eachUses p) ∧
      Stmt.EachRegular p :=
  (readProgram_fresh h.ordinary endLine s.nextSite).2 p h.result

theorem settled (h : s.Reads tokens endLine p ties) (hs : s.Sound) {o : Occurrence}
    (ho : o ∈ Stmt.eachOccurrences [] p) : o.Settled (s.machine.table.insertAll ties) :=
  tiedBy_of_analyse h.fresh.1 h.fresh.2 h.ties hs.unused ho

/-- The ties of older code are kept. -/
theorem hops?_eq (h : s.Reads tokens endLine p ties) {site : Site} (hsite : site < s.nextSite) :
    (s.machine.table.insertAll ties).hops? site = s.machine.table.hops? site :=
  BindingTable.hops?_insertAll_of_not_mem _ fun _ hd =>
    absurd (bounds_of_mem_ties h.fresh.1 h.fresh.2 h.ties hd).1 (Nat.not_le.mpr hsite)

end Reads

/-- The global scope stays the outermost one. -/
theorem Reachable.enclosing?_globalScope (h : s.Reachable) :
    s.machine.store.enclosing? globalScope = none := by
  have hpersists : Persists (fun _ => True) fun c => globalScope < c.state.store.nextScope ∧
      c.state.store.enclosing? globalScope = none := by
    refine ⟨fun {c} _ h => ?_, fun _ h => h, fun h hb => by cases hb <;> exact h⟩
    have hstep := evolves_step c
    exact ⟨Nat.lt_of_lt_of_le h.1 hstep.nextScope_le, (hstep.enclosing?_eq h.1).trans h.2⟩
  exact (hpersists.reachable (fun _ _ => ⟨Nat.zero_lt_one, rfl⟩) h).2

/-- Of two programs that a session accepts, one has more blocks. Then both start alike. -/
theorem Reachable.matched (h : s.Reachable) (hr : s.Reads tokens endLine p ties)
    {tokens' : List Token} {endLine' : Nat} {p' : Program} {ties' : List (Site × Nat)}
    (hr' : s.Reads tokens' endLine' p' ties') (hp : Pads SameBare .statements id p p') :
    Matched (s.machine.table.insertAll ties) (s.machine.table.insertAll ties')
      ((s.machine.addBindings ties).interpreting p)
      ((s.machine.addBindings ties').interpreting p') := by
  have hrelated := hp.agrees .nil (fun o ho => hr.settled h.sound ho)
    fun o ho => hr'.settled h.sound ho
  have hold : ∀ o : Occurrence, o.Grounded s.machine.table s.nextSite →
      Agrees (s.machine.table.insertAll ties) (s.machine.table.insertAll ties') id o.use o.use := by
    intro o ho
    refine ⟨?_, fun _ _ _ => rfl⟩
    rw [hr'.hops?_eq ho.site, hr.hops?_eq ho.site, Option.map_id]
    rfl
  exact matched_interpreting hold (persists_isClosed.reachable Config.IsClosed.initial h)
    h.sound.store h.enclosing?_globalScope h.sound.scope hrelated

theorem Compiles.exists_reads {source : String} (hc : s.Compiles source) :
    (scan source).faults = [] ∧
      ∃ p ties, s.Reads (scan source).tokens (scan source).endLine p ties := by
  obtain ⟨p, next, ties, hread, ha⟩ := hc.exists_read (Nat.le_refl _)
  obtain ⟨hfaults, hread⟩ := readSource_eq_mk.mp hread
  exact ⟨hfaults, p, ties, ordinaryTokens_scan source, congrArg Reading.result hread, ha⟩

/-- Accepted tokens stay accepted when `for` statements are spelled out, and their tree gets more
blocks. -/
theorem Reads.exists_lowered (hr : s.Reads tokens endLine p ties) {tokens' : List Token}
    (hl : Lowers .declarations tokens tokens') (endLine' : Nat) :
    ∃ p' ties', s.Reads tokens' endLine' p' ties' ∧ Pads SameBare .statements id p p' := by
  have hordinary : OrdinaryTokens tokens' := fun t ht hk =>
    hr.ordinary t (hl.mem_of_identifier ht hk) hk
  -- Trees of the same tokens differ only in their sites.
  obtain ⟨ss, ss', hss, hss', hpads⟩ := hl.lowered
  obtain ⟨q, hq, hbare⟩ := readProgram_of_composes hss endLine s.nextSite
  obtain rfl : q = p := Except.ok.inj (hq.symm.trans hr.result)
  obtain ⟨p', hp', hbare'⟩ := readProgram_of_composes hss' endLine' s.nextSite
  have hp : Pads SameBare .statements id q p' := (hpads id rfl).of_bare hbare hbare'
  obtain ⟨-, hregular⟩ := (readProgram_fresh hordinary endLine' s.nextSite).2 p' hp'
  obtain ⟨ties', ha'⟩ := hp.exists_analyse hr.fresh.2 hregular hr.ties
  exact ⟨p', ties', ⟨hordinary, hp', ha'⟩, hp⟩

/-- The program of an accepted source runs without a panic. -/
theorem Reachable.not_panics_run {source : String} (h : s.Reachable)
    (hfaults : (scan source).faults = [])
    (hr : s.Reads (scan source).tokens (scan source).endLine p ties) (n : Nat) :
    ¬ (Machine.run n ((s.machine.addBindings ties).interpreting p)).Panics := by
  obtain ⟨hsound, hfits⟩ := h.sound.readProgram source true
  rw [readProgram_eq_readTokens s hfaults, hr.readTokens_eq] at hsound hfits
  exact ((hsound.admits_interpreting (hfits p rfl)).run n).not_panics

end

/-- Any `for` statements of an accepted source can be spelled out, up to all of them. The tokens are
then accepted too. For each moment of the run of the source there is one, not earlier, at which the
other run has the same output and has ended alike or not ended either; and for each moment of the
other run there is one, not later, at which the run of the source has. -/
theorem run_spelled_out {s : Session} (h : s.Reachable) {source : String} (hc : s.Compiles source) :
    (∃ tokens, Lowers .declarations (scan source).tokens tokens ∧ NoFor tokens) ∧
      ∀ tokens, Lowers .declarations (scan source).tokens tokens → ∀ endLine,
        (s.readTokens tokens endLine).1.isOk ∧
          (∀ n, ∃ m, n ≤ m ∧ SameEffect (s.run n source) (s.runTokens m tokens endLine)) ∧
            ∀ m, ∃ n, n ≤ m ∧ SameEffect (s.run n source) (s.runTokens m tokens endLine) := by
  obtain ⟨hfaults, p, ties, hr⟩ := hc.exists_reads
  refine ⟨(composes_of_readProgram hr.result).exists_lowers (.onLine 1), fun tokens hl endLine => ?_⟩
  obtain ⟨p', ties', hr', hp⟩ := hr.exists_lowered hl endLine
  have hpanics := h.not_panics_run hfaults hr
  have hmatched := h.matched hr hr' hp
  have hrun : ∀ n m, Matched (s.machine.table.insertAll ties) (s.machine.table.insertAll ties')
      (Machine.run n ((s.machine.addBindings ties).interpreting p))
      (Machine.run m ((s.machine.addBindings ties').interpreting p')) →
      SameEffect (s.run n source) (s.runTokens m tokens endLine) := by
    intro n m hm
    rw [run_eq_runTokens n s hfaults, runTokens, runTokens, hr.readTokens_eq, hr'.readTokens_eq]
    exact sameEffect_of_matched hm _ _
  refine ⟨by rw [hr'.readTokens_eq]; rfl, fun n => ?_, fun m => ?_⟩
  · obtain ⟨m, hle, hm⟩ := hmatched.exists_run hpanics n
    exact ⟨m, hle, hrun n m hm⟩
  · obtain ⟨n, hle, hn⟩ := hmatched.exists_run_padded hpanics m
    exact ⟨n, hle, hrun n m hn⟩

/-- A loop with an increment and without an initializer, which has a block more when it is spelled
out. -/
theorem run_spelled_out_increment :
    let s := Session.start (.steady 0) none
    let source := "var a=\"x\";for(;a;a=nil)print a;"
    let spelled := "var a=\"x\";{while(a){print a;a=nil;}}"
    s.Compiles source ∧ Lowers .declarations (scan source).tokens (scan spelled).tokens ∧
      (s.run 40 source).1.verdict = .ok ∧ (s.run 40 source).2.printed = "x\n" ∧
        ∃ m, (s.run m spelled).1.verdict = .ok ∧ (s.run m spelled).2.printed = "x\n" := by
  intro s source spelled
  have hc : s.Compiles source := by decide +kernel
  have hok : (s.run 40 source).1.verdict = .ok := by decide +kernel
  have hprinted : (s.run 40 source).2.printed = "x\n" := by decide +kernel
  have hl : Lowers .declarations (scan source).tokens (scan spelled).tokens := by
    let token (kind : Token.Kind) (lexeme : String) : Token := ⟨kind, lexeme, 1⟩
    let a := token .identifier "a"
    let equal := token (.mark .equal) "="
    let semicolon := token (.mark .semicolon) ";"
    have hliteral : ∀ (t : Token) (l : Literal), t.kind = l.kind →
        Derives (.level .assignment) [t] (.literal l) := fun t l ht =>
      .of_le (Level.le_primary _) (.literal ht)
    have ha : Derives (.level .assignment) [a] (.variable 0 a.toName) :=
      .of_le (Level.le_primary _) (.variable rfl)
    have hvalue : Optional Initializer [equal, token (.string "x") "\"x\""] _ :=
      .some (.mk rfl (hliteral _ (.string "x") rfl))
    have hvar : VarDeclaration (token (.keyword .var) "var" :: a :: (_ ++ [semicolon])) _ :=
      .mk rfl rfl hvalue rfl
    have hincrement : Optional (Derives (.level .assignment))
        [a, equal, token (.keyword .nil) "nil"] (some (.assign 0 a.toName (.literal .nil))) :=
      .some (.assign rfl rfl (hliteral _ .nil rfl))
    have hprint : Lowers (.statement false)
        (token (.keyword .print) "print" :: ([a] ++ [semicolon])) _ := .print rfl ha rfl
    have hfor : Lowers (.statement false) (token (.keyword .for_) "for" ::
        ((token (.mark .leftParen) "(" :: ([semicolon] ++ ([a] ++ semicolon ::
          (_ ++ [token (.mark .rightParen) ")"])))) ++ _)) _ :=
      .spelled rfl rfl (.none rfl) (.some ha) rfl hincrement rfl hprint (.onLine 1)
    have hall := Lowers.declarations (.var hvar)
      (.declarations (.statement hfor) .noDeclarations)
    -- These are the tokens of the two texts.
    refine cast ?_ hall
    congr 1 <;> decide +kernel
  obtain ⟨-, hall⟩ := run_spelled_out (.start (.steady 0) none) hc
  obtain ⟨-, hrun, -⟩ := hall _ hl (scan spelled).endLine
  obtain ⟨m, -, hreport, houtput⟩ := hrun 40
  have hfaults : (scan spelled).faults = [] := by decide +kernel
  rw [← run_eq_runTokens m s hfaults] at hreport houtput
  exact ⟨hc, hl, hok, hprinted, m, hreport ▸ hok, (congrArg Output.text houtput).symm.trans hprinted⟩

end LoxLang.Session
