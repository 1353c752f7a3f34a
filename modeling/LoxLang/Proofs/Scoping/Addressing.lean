import LoxLang.Proofs.Scoping.Outline

/-!
# Lexical addressing

The table of an accepted program holds, for each use of a name, the number of the nearest scope
around it in which the name is declared before it. Names that no scope declares have no entry, and
neither has anything that is not a use.
-/

namespace LoxLang

open Scoping

/-- A use without a fault is tied to the innermost declaration. -/
theorem Use.findings_eq_bind {k : InClass} {scopes : Scopes} {pending : Option String} {u : Use}
    (h : faults (u.findings k scopes pending) = []) :
    u.findings k scopes pending = Scoping.bind scopes u.site u.name.text := by
  obtain ⟨site, kind, name⟩ := u
  cases kind with
  | «variable» =>
    have hp : pending ≠ some name.text := by
      intro he
      simp [Use.findings, Scoping.read, he] at h
    simp [Use.findings, Scoping.read, hp]
  | assign => rfl
  | this =>
    cases k with
    | noClass => simp [Use.findings] at h
    | base | derived => rfl
  | super =>
    cases k with
    | noClass | base => simp [Use.findings] at h
    | derived => rfl

namespace Scoping

/-- The use at a place, as an occurrence. -/
def Entry.occurrence? (e : Entry) : Option Occurrence :=
  e.item.use?.map fun u => ⟨u, e.layers.scopes, e.layers.pending⟩

/-- The occurrences among entries. -/
def entryOccurrences (es : List Entry) : List Occurrence := es.filterMap Entry.occurrence?

theorem map_use_entryOccurrences (es : List Entry) :
    (entryOccurrences es).map (·.use) = entryUses es := by
  simp [entryOccurrences, Entry.occurrence?, entryUses, List.map_filterMap, Function.comp_def]

/-- Where there is no fault, the only thing to find is the tie of a use. -/
theorem Entry.bindings_findings {e : Entry} (h : faults e.findings = []) :
    bindings e.findings = (e.occurrence?.bind (·.tie?)).toList := by
  obtain ⟨item, layers⟩ := e
  cases item with
  | use u =>
    have hbind : Entry.findings ⟨.use u, layers⟩ = bind layers.scopes u.site u.name.text :=
      Use.findings_eq_bind h
    rw [hbind, bindings_bind]
    rfl
  | declaration name => exact bindings_redeclared layers.scopes name
  | return_ line hasValue =>
    simp only [Entry.findings, Item.findings, bindings_append]
    split <;> split <;> rfl
  | inheritance name parent =>
    simp only [Entry.findings, Item.findings]
    split <;> rfl
  | implicit keyword | region r items => rfl

/-- The ties of an accepted program are those of its occurrences. -/
theorem ties_perm {p : Program} {ties : List (Site × Nat)} (h : analyse p = .ok ties) :
    ties.Perm ((entryOccurrences p.entries).filterMap (·.tie?)) := by
  obtain ⟨hfaults, rfl⟩ := analyse_eq_ok.mp h
  have hnone : ∀ e ∈ p.entries, faults e.findings = [] := by
    rw [← List.flatMap_eq_nil_iff, ← List.nil_perm, ← hfaults]
    exact faults_perm p
  have hties : (p.entries.flatMap fun e => bindings e.findings) =
      p.entries.flatMap fun e => (e.occurrence?.bind (·.tie?)).toList :=
    List.flatMap_congr fun e he => Entry.bindings_findings (hnone e he)
  rw [entryOccurrences, List.filterMap_filterMap, List.filterMap_eq_flatMap_toList, ← hties]
  exact bindings_perm p

theorem Entry.occurrence?_eq_some {e : Entry} {u : Use} (h : e.item = .use u) :
    e.occurrence? = some ⟨u, e.layers.scopes, e.layers.pending⟩ := by
  simp [Entry.occurrence?, h, Item.use?]

theorem sites_entryOccurrences (p : Program) :
    (entryOccurrences p.entries).map (·.use.site) = (Stmt.eachUses p).map (·.site) := by
  have huses : entryUses p.entries = Stmt.eachUses p := entryUses_eachOutline p []
  rw [← huses, ← map_use_entryOccurrences, List.map_map]
  rfl

theorem Occurrence.fst_of_tie? {o : Occurrence} {tie : Site × Nat} (h : o.tie? = some tie) :
    tie.1 = o.use.site := by
  obtain ⟨d, -, rfl⟩ := Option.map_eq_some_iff.mp h
  rfl

/-- Only uses are tied. -/
theorem mem_sites_of_mem_ties {p : Program} {ties : List (Site × Nat)} (h : analyse p = .ok ties)
    {tie : Site × Nat} (htie : tie ∈ ties) : tie.1 ∈ (Stmt.eachUses p).map (·.site) := by
  obtain ⟨o, ho, he⟩ := List.mem_filterMap.mp ((ties_perm h).mem_iff.mp htie)
  rw [Occurrence.fst_of_tie? he, ← sites_entryOccurrences]
  exact List.mem_map_of_mem ho

/-- Where all sites are different, none is tied twice. -/
theorem nodup_ties {p : Program} {ties : List (Site × Nat)}
    (hn : ((Stmt.eachUses p).map (·.site)).Nodup) (h : analyse p = .ok ties) :
    (ties.map (·.1)).Nodup := by
  rw [((ties_perm h).map _).nodup_iff, List.map_filterMap, List.Nodup, List.pairwise_filterMap]
  rw [← sites_entryOccurrences] at hn
  refine (List.pairwise_map.mp hn).imp fun {o o'} hne site hsite site' hsite' => ?_
  obtain ⟨tie, htie, rfl⟩ := Option.map_eq_some_iff.mp hsite
  obtain ⟨tie', htie', rfl⟩ := Option.map_eq_some_iff.mp hsite'
  rw [Occurrence.fst_of_tie? htie, Occurrence.fst_of_tie? htie']
  exact hne

/-- The table of an accepted program is lexical addressing. -/
theorem table_addresses_nearest {p : Program} {ties : List (Site × Nat)}
    (hn : ((Stmt.eachUses p).map (·.site)).Nodup) (h : analyse p = .ok ties) :
    entryUses p.entries = Stmt.eachUses p ∧
      (∀ e ∈ p.entries, ∀ u, e.item = .use u → ∀ d,
        (BindingTable.empty.insertAll ties).hops? u.site = some d ↔
          IsLeast {d | e.layers.KnownIn u.name.text d} d) ∧
      ∀ site d, (BindingTable.empty.insertAll ties).hops? site = some d →
        ∃ u ∈ Stmt.eachUses p, u.site = site := by
  refine ⟨entryUses_eachOutline p [], ?_, ?_⟩
  · intro e he u hu d
    have hmem : _ ∈ entryOccurrences p.entries :=
      List.mem_filterMap.mpr ⟨e, he, Entry.occurrence?_eq_some hu⟩
    have htied := tiedBy_insertAll (fun _ => (ties_perm h).mem_iff)
      (sites_entryOccurrences p ▸ hn) (fun _ _ => BindingTable.hops?_empty _) hmem
    rw [← Layers.hops?_scopes_eq_some_iff, ← htied]
  · intro site d hd
    by_contra hnot
    have hnone : ∀ d, (site, d) ∉ ties := by
      intro d hmem
      obtain ⟨u, hu, hsite⟩ := List.mem_map.mp (mem_sites_of_mem_ties h hmem)
      exact hnot ⟨u, hu, hsite⟩
    simp [BindingTable.hops?_insertAll_of_not_mem _ hnone] at hd

/-- `class A {} { var x; class B < A { init(y) { super.m(x = y); } } }` -/
def nestedClass : Program :=
  [.class_ ⟨"A", 1⟩ none [],
   .block [
    .var ⟨"x", 1⟩ none,
    .class_ ⟨"B", 1⟩ (some ⟨0, ⟨"A", 1⟩⟩) [
      .mk ⟨"init", 1⟩ [⟨"y", 1⟩] [
        .expression (.call (.super 1 1 ⟨"m", 1⟩) 1
          [.assign 2 ⟨"x", 1⟩ (.variable 3 ⟨"y", 1⟩)])]]]]

/-- From a method of a derived class, a variable before the class is three scopes out: behind those
of the method, of `this` and of `super`. -/
theorem table_addresses_nearest_nested :
    ∃ e ∈ nestedClass.entries, e.item = .use ⟨2, .assign, ⟨"x", 1⟩⟩ ∧
      IsLeast {d | e.layers.KnownIn "x" d} 3 := by
  have h := @table_addresses_nearest nestedClass [(1, 2), (3, 0), (2, 3)] (by decide) rfl
  have hmem := List.mem_of_getElem? (rfl : nestedClass.entries[15]? = some _)
  exact ⟨_, hmem, rfl, (h.2.1 _ hmem _ rfl 3).mp (by decide)⟩

end Scoping

end LoxLang
