import LoxLang.Proofs.Scoping.Addressing
import LoxLang.Proofs.Session.Numbering

/-!
# Sites over a session

A session hands out each site once. Reading a program takes one site for each use in it and one more
for each assignment, and the entries that a run adds to the table are for its own sites, so that
those of earlier programs stay as they are.

## Main definitions

* `Session.parse`: what a session reads from a source before it looks for other faults.
* `Session.parsedEach`: the programs that are read while sources are run one after the other.
-/

namespace LoxLang.Session

open Grammar Scoping

/-- What the grammar makes of a source, which may still have lexical faults or be ill-scoped. -/
def parse (s : Session) (source : String) : Reading Program :=
  Grammar.readProgram (scan source).tokens (scan source).endLine s.nextSite

/-- The programs that the grammar finds while sources are run one after the other. -/
def parsedEach (s : Session) : List (Nat × String) → List Program
  | [] => []
  | (steps, source) :: rest =>
    (s.parse source).result.toOption.toList ++ parsedEach (s.run steps source).2 rest

/-! ## One run -/

section

variable {s : Session} {source : String} {p : Program} {ties : List (Site × Nat)}

theorem nextSite_le_parse (s : Session) (source : String) :
    s.nextSite ≤ (s.parse source).nextSite :=
  (readProgram_fresh (ordinaryTokens_scan source) _ _).1

theorem fresh_parse (h : (s.parse source).result = .ok p) :
    Fresh s.nextSite (s.parse source).nextSite (Stmt.eachUses p) :=
  ((readProgram_fresh (ordinaryTokens_scan source) _ _).2 p h).1

/-- The ties of a program are for sites that were handed out with it. -/
theorem bounds_of_parse (h : (s.parse source).result = .ok p) (ha : analyse p = .ok ties)
    {tie : Site × Nat} (htie : tie ∈ ties) :
    s.nextSite ≤ tie.1 ∧ tie.1 < (s.parse source).nextSite := by
  obtain ⟨hfresh, hregular⟩ := (readProgram_fresh (ordinaryTokens_scan source) _ _).2 p h
  exact bounds_of_mem_ties hfresh hregular ha htie

/-- A run counts on the sites that were handed out, whether it succeeds or not. -/
theorem nextSite_run (s : Session) (steps : Nat) (source : String) :
    (s.run steps source).2.nextSite = (s.parse source).nextSite := by
  have hnext : (readSource Grammar.readProgram source s.nextSite).2 = (s.parse source).nextSite :=
    rfl
  rw [run_eq, ← hnext]
  cases readSource Grammar.readProgram source s.nextSite with
  | mk result next =>
    cases result with
    | error r => rfl
    | ok p =>
      dsimp only
      split <;> rfl

/-- A run leaves the table alone or adds the ties of the program that was read. -/
theorem table_run_cases (s : Session) (steps : Nat) (source : String) :
    (s.run steps source).2.machine.table = s.machine.table ∨
      ∃ p ties, (s.parse source).result = .ok p ∧ analyse p = .ok ties ∧
        (s.run steps source).2.machine.table = s.machine.table.insertAll ties := by
  rw [run_eq]
  cases hread : readSource Grammar.readProgram source s.nextSite with
  | mk result next =>
    cases result with
    | error r => exact .inl rfl
    | ok p =>
      have hparse : (s.parse source).result = .ok p := readSource_eq_ok (congrArg Prod.fst hread)
      cases ha : analyse p with
      | error ds => exact .inl (by simp only [ha])
      | ok ties =>
        refine .inr ⟨p, ties, hparse, ha, ?_⟩
        simp only [ha]
        exact Machine.table_run steps _

/-- The entries for sites that were handed out before stay as they are. -/
theorem hops?_run (s : Session) (steps : Nat) (source : String) {site : Site}
    (hs : site < s.nextSite) :
    (s.run steps source).2.machine.table.hops? site = s.machine.table.hops? site := by
  obtain htable | ⟨p, ties, hparse, ha, htable⟩ := s.table_run_cases steps source
  · rw [htable]
  · rw [htable]
    apply BindingTable.hops?_insertAll_of_not_mem
    intro d hd
    exact Nat.not_lt.mpr (bounds_of_parse hparse ha hd).1 hs

end

/-! ## One run after the other -/

theorem nextSite_le_runEach (s : Session) (history : List (Nat × String)) :
    s.nextSite ≤ (runEach run s history).2.nextSite := by
  induction history generalizing s with
  | nil => exact Nat.le_refl _
  | cons entry rest ih =>
    have hfirst : s.nextSite ≤ (s.run entry.1 entry.2).2.nextSite := by
      rw [nextSite_run]
      exact s.nextSite_le_parse entry.2
    exact Nat.le_trans hfirst (ih _)

theorem hops?_runEach (s : Session) (history : List (Nat × String)) {site : Site}
    (hs : site < s.nextSite) :
    (runEach run s history).2.machine.table.hops? site = s.machine.table.hops? site := by
  induction history generalizing s with
  | nil => rfl
  | cons entry rest ih =>
    have hle : s.nextSite ≤ (s.run entry.1 entry.2).2.nextSite :=
      s.nextSite_le_runEach [entry]
    exact (ih _ (Nat.lt_of_lt_of_le hs hle)).trans (s.hops?_run entry.1 entry.2 hs)

/-- All uses that are read over a session have different sites. -/
theorem fresh_parsedEach (s : Session) (history : List (Nat × String)) :
    Fresh s.nextSite (runEach run s history).2.nextSite
      ((s.parsedEach history).flatMap Stmt.eachUses) := by
  induction history generalizing s with
  | nil => exact .nil
  | cons entry rest ih =>
    have hfirst : Fresh s.nextSite (s.run entry.1 entry.2).2.nextSite
        ((s.parse entry.2).result.toOption.toList.flatMap Stmt.eachUses) := by
      rw [nextSite_run]
      cases hparse : (s.parse entry.2).result with
      | error ds => exact .nil
      | ok p => simpa [Except.toOption] using fresh_parse hparse
    have hrest := ih (s.run entry.1 entry.2).2
    rw [parsedEach, List.flatMap_append]
    exact hfirst.append hrest (s.nextSite_le_runEach [entry]) (nextSite_le_runEach _ rest)

/-- Over a session each site is handed out once and accounted for, and no entry of the table is ever
overwritten. -/
theorem sites_accounted (clock : Clock) (room : Option Room) (history : List (Nat × String)) :
    (((start clock room).parsedEach history).flatMap Stmt.eachUses |>.map (·.site)).Nodup ∧
      ∀ before steps source after, history = before ++ (steps, source) :: after →
        let s := (runEach run (start clock room) before).2
        let s' := (s.run steps source).2
        s'.nextSite = (s.parse source).nextSite ∧
        (∀ site d, s.machine.table.hops? site = some d → s'.machine.table.hops? site = some d) ∧
        ∀ p, (s.parse source).result = .ok p →
          (∀ u ∈ Stmt.eachUses p, s.nextSite ≤ u.site ∧ u.site < s'.nextSite) ∧
          s'.nextSite = s.nextSite + ((Stmt.eachUses p).countP (·.kind ≠ .assign) +
            2 * (Stmt.eachUses p).countP (·.kind = .assign)) ∧
          (∀ ties, analyse p = .ok ties → (ties.map (·.1)).Nodup ∧
            ∀ tie ∈ ties, s.machine.table.hops? tie.1 = none) ∧
          ∀ u ∈ Stmt.eachUses p,
            (runEach run (start clock room) history).2.machine.table.hops? u.site =
              s'.machine.table.hops? u.site := by
  refine ⟨((start clock room).fresh_parsedEach history).nodup, ?_⟩
  rintro before steps source after rfl s s'
  have hnext : s'.nextSite = (s.parse source).nextSite := s.nextSite_run steps source
  have hunused : ∀ site, s.nextSite ≤ site → s.machine.table.hops? site = none :=
    ((Numbered.start clock room).runEach before).unused
  refine ⟨hnext, fun site d hd => ?_, fun p hp => ⟨?_, ?_, fun ties ha => ⟨?_, ?_⟩, ?_⟩⟩
  · have hlt : site < s.nextSite := by
      by_contra hle
      simp [hunused site (Nat.not_lt.mp hle)] at hd
    exact (s.hops?_run steps source hlt).trans hd
  · rw [hnext]
    exact (fresh_parse hp).bounds
  · exact hnext.trans (nextSite_readProgram (ordinaryTokens_scan source) _ _ hp)
  · exact nodup_ties (fresh_parse hp).nodup ha
  · intro tie htie
    exact hunused tie.1 (bounds_of_parse hp ha htie).1
  · intro u hu
    have hlt : u.site < s'.nextSite := hnext ▸ ((fresh_parse hp).bounds u hu).2
    rw [runEach_append]
    exact s'.hops?_runEach after hlt

/-- A source that cannot be read uses up a site; an assignment after it takes two and a variable
one. -/
theorem sites_accounted_after_fault :
    let s := (runEach run (start (.steady 0) none) [(60, "a=;")]).2
    s.nextSite = 1 ∧ (s.run 60 "{var b;b=b;}").2.nextSite = 4 ∧
      ∃ p, (s.parse "{var b;b=b;}").result = .ok p ∧
        4 = 1 + ((Stmt.eachUses p).countP (·.kind ≠ .assign) +
          2 * (Stmt.eachUses p).countP (·.kind = .assign)) := by
  intro s
  have hfirst : s.nextSite = 1 := by decide +kernel
  have hsecond : (s.run 60 "{var b;b=b;}").2.nextSite = 4 := by decide +kernel
  have hread : (s.parse "{var b;b=b;}").result.isOk := by decide +kernel
  obtain ⟨p, hp⟩ : ∃ p, (s.parse "{var b;b=b;}").result = .ok p := by
    cases hr : (s.parse "{var b;b=b;}").result with
    | error ds => simp [hr, Except.isOk, Except.toBool] at hread
    | ok p => exact ⟨p, rfl⟩
  have h := (sites_accounted (.steady 0) none [(60, "a=;"), (60, "{var b;b=b;}")]).2 [(60, "a=;")] 60 _ [] rfl
  have hcount := (h.2.2 p hp).2.1
  exact ⟨hfirst, hsecond, p, hp, by rwa [hsecond, hfirst] at hcount⟩

end LoxLang.Session
