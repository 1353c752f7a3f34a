import LoxLang.Proofs.Scoping.Outline

/-!
# The rules of scoping

Each rule forbids something at a place. The analysis accepts the programs that break no rule, and of
the others it reports each breach once.
-/

namespace LoxLang.Scoping

/-- A place breaks a rule, and this is what there is to say about it. -/
inductive Entry.Breaks : Entry → Diagnostic → Prop where
  | redeclares {name : Name} {ls : Layers} (known : ls.KnownIn name.text 0) :
    Breaks ⟨.declaration name, ls⟩ (.scope .alreadyDeclared (namePlace name))
  /-- The initializer of a local variable reads it. -/
  | readsItself {site : Site} {name : Name} {before : List Item} {outer : Layers}
    (isLocal : outer ≠ []) :
    Breaks ⟨.use ⟨site, .variable, name⟩, ⟨.initializer name.text, before⟩ :: outer⟩
      (.scope .readInOwnInitializer (namePlace name))
  | returnsOutside {line : Nat} {hasValue : Bool} {ls : Layers} (outside : ls.routine? = none) :
    Breaks ⟨.return_ line hasValue, ls⟩ (.scope .returnAtTopLevel (keywordPlace .return_ line))
  | returnsValue {line : Nat} {ls : Layers}
    (inside : ls.routine? = some (.method Routine.initName)) :
    Breaks ⟨.return_ line true, ls⟩
      (.scope .returnValueFromInitializer (keywordPlace .return_ line))
  | thisOutside {site : Site} {name : Name} {ls : Layers} (outside : ls.class? = none) :
    Breaks ⟨.use ⟨site, .this, name⟩, ls⟩ (.scope .thisOutsideClass (namePlace name))
  | superOutside {site : Site} {name : Name} {ls : Layers} (outside : ls.class? = none) :
    Breaks ⟨.use ⟨site, .super, name⟩, ls⟩ (.scope .superOutsideClass (namePlace name))
  | superInBase {site : Site} {name : Name} {ls : Layers}
    (inside : ls.class? = some (.classBody false)) :
    Breaks ⟨.use ⟨site, .super, name⟩, ls⟩ (.scope .superWithoutSuperclass (namePlace name))
  | inheritsFromItself {name parent : Name} {ls : Layers} (same : parent.text = name.text) :
    Breaks ⟨.inheritance name parent, ls⟩ (.scope .inheritsFromItself (namePlace parent))

namespace Layers

variable {ls : Layers}

theorem declares_scopes {name : String} : ls.scopes.declares name ↔ ls.KnownIn name 0 := by
  rw [knownIn_iff]
  cases ls.scopes <;> simp [Scopes.declares]

theorem pending_eq_some_iff {name : String} :
    ls.pending = some name ↔
      ∃ before outer, outer ≠ [] ∧ ls = ⟨.initializer name, before⟩ :: outer := by
  constructor
  · intro h
    unfold pending at h
    split at h
    · next name' before l outer =>
      cases h
      exact ⟨before, l :: outer, List.cons_ne_nil l outer, rfl⟩
    · cases h
  · rintro ⟨before, outer, houter, rfl⟩
    obtain ⟨l, outer, rfl⟩ := List.exists_cons_of_ne_nil houter
    rfl

theorem routine?_cases (ls : Layers) :
    ls.routine? = none ∨ ls.routine? = some .function ∨
      ∃ name, ls.routine? = some (.method name) := by
  cases h : ls.routine? with
  | none => exact .inl rfl
  | some r =>
    have hr : r.isRoutine := List.find?_some h
    cases r <;> simp_all [Region.isRoutine]

theorem class?_cases (ls : Layers) :
    ls.class? = none ∨ ∃ derived, ls.class? = some (.classBody derived) := by
  cases h : ls.class? with
  | none => exact .inl rfl
  | some r =>
    have hr : r.isClassBody := List.find?_some h
    cases r <;> simp_all [Region.isClassBody]

theorem context_routine_eq_topLevel : ls.context.routine = .topLevel ↔ ls.routine? = none := by
  rcases ls.routine?_cases with h | h | ⟨name, h⟩ <;> grind [context, InRoutine.ofRegion?]

theorem context_routine_eq_initializer :
    ls.context.routine = .initializer ↔ ls.routine? = some (.method Routine.initName) := by
  rcases ls.routine?_cases with h | h | ⟨name, h⟩ <;> grind [context, InRoutine.ofRegion?]

theorem context_class_eq_noClass : ls.context.class_ = .noClass ↔ ls.class? = none := by
  rcases ls.class?_cases with h | ⟨_ | _, h⟩ <;> simp [context, h, InClass.ofRegion?]

theorem context_class_eq_base :
    ls.context.class_ = .base ↔ ls.class? = some (.classBody false) := by
  rcases ls.class?_cases with h | ⟨_ | _, h⟩ <;> simp [context, h, InClass.ofRegion?]

end Layers

namespace Entry

variable {ls : Layers} {d : Diagnostic}

theorem mem_faults_declaration {name : Name} :
    d ∈ faults (findings ⟨.declaration name, ls⟩) ↔
      ls.KnownIn name.text 0 ∧ d = .scope .alreadyDeclared (namePlace name) := by
  rw [← Layers.declares_scopes, findings, Item.findings, redeclared]
  split <;> simp_all

theorem mem_faults_variable {site : Site} {name : Name} :
    d ∈ faults (findings ⟨.use ⟨site, .variable, name⟩, ls⟩) ↔
      (∃ before outer, outer ≠ [] ∧ ls = ⟨.initializer name.text, before⟩ :: outer) ∧
        d = .scope .readInOwnInitializer (namePlace name) := by
  simp only [← Layers.pending_eq_some_iff, findings, Item.findings, Use.findings, read]
  split <;> simp_all

theorem mem_faults_this {site : Site} {name : Name} :
    d ∈ faults (findings ⟨.use ⟨site, .this, name⟩, ls⟩) ↔
      ls.class? = none ∧ d = .scope .thisOutsideClass (namePlace name) := by
  simp only [← Layers.context_class_eq_noClass, findings, Item.findings, Use.findings]
  cases ls.context.class_ <;> simp

theorem mem_faults_super {site : Site} {name : Name} :
    d ∈ faults (findings ⟨.use ⟨site, .super, name⟩, ls⟩) ↔
      ls.class? = none ∧ d = .scope .superOutsideClass (namePlace name) ∨
      ls.class? = some (.classBody false) ∧
        d = .scope .superWithoutSuperclass (namePlace name) := by
  simp only [← Layers.context_class_eq_noClass, ← Layers.context_class_eq_base, findings,
    Item.findings, Use.findings]
  cases ls.context.class_ <;> simp

theorem mem_faults_return {line : Nat} {hasValue : Bool} :
    d ∈ faults (findings ⟨.return_ line hasValue, ls⟩) ↔
      ls.routine? = none ∧ d = .scope .returnAtTopLevel (keywordPlace .return_ line) ∨
      (ls.routine? = some (.method Routine.initName) ∧ hasValue) ∧
        d = .scope .returnValueFromInitializer (keywordPlace .return_ line) := by
  simp only [← Layers.context_routine_eq_topLevel, ← Layers.context_routine_eq_initializer,
    findings, Item.findings, faults_append]
  split <;> split <;> simp_all

theorem mem_faults_inheritance {name parent : Name} :
    d ∈ faults (findings ⟨.inheritance name parent, ls⟩) ↔
      parent.text = name.text ∧ d = .scope .inheritsFromItself (namePlace parent) := by
  simp only [findings, Item.findings]
  split <;> simp_all

/-- What there is to say about a place is which rule it breaks. -/
theorem mem_faults_findings {e : Entry} : d ∈ faults e.findings ↔ e.Breaks d := by
  constructor
  · obtain ⟨item, ls⟩ := e
    intro h
    cases item with
    | declaration name =>
      obtain ⟨known, rfl⟩ := mem_faults_declaration.mp h
      exact .redeclares known
    | use u =>
      obtain ⟨site, kind, name⟩ := u
      cases kind with
      | «variable» =>
        obtain ⟨⟨before, outer, isLocal, rfl⟩, rfl⟩ := mem_faults_variable.mp h
        exact .readsItself isLocal
      | assign => simp [findings, Item.findings, Use.findings] at h
      | this =>
        obtain ⟨outside, rfl⟩ := mem_faults_this.mp h
        exact .thisOutside outside
      | super =>
        obtain ⟨outside, rfl⟩ | ⟨inside, rfl⟩ := mem_faults_super.mp h
        · exact .superOutside outside
        · exact .superInBase inside
    | return_ line hasValue =>
      obtain ⟨outside, rfl⟩ | ⟨⟨inside, rfl⟩, rfl⟩ := mem_faults_return.mp h
      · exact .returnsOutside outside
      · exact .returnsValue inside
    | inheritance name parent =>
      obtain ⟨same, rfl⟩ := mem_faults_inheritance.mp h
      exact .inheritsFromItself same
    | implicit keyword | region r items => cases h
  · intro h
    cases h with
    | redeclares known => exact mem_faults_declaration.mpr ⟨known, rfl⟩
    | readsItself isLocal => exact mem_faults_variable.mpr ⟨⟨_, _, isLocal, rfl⟩, rfl⟩
    | returnsOutside outside => exact mem_faults_return.mpr (.inl ⟨outside, rfl⟩)
    | returnsValue inside => exact mem_faults_return.mpr (.inr ⟨⟨inside, rfl⟩, rfl⟩)
    | thisOutside outside => exact mem_faults_this.mpr ⟨outside, rfl⟩
    | superOutside outside => exact mem_faults_super.mpr (.inl ⟨outside, rfl⟩)
    | superInBase inside => exact mem_faults_super.mpr (.inr ⟨inside, rfl⟩)
    | inheritsFromItself same => exact mem_faults_inheritance.mpr ⟨same, rfl⟩

/-- Nothing is said twice about a place. -/
theorem nodup_faults_findings (e : Entry) : (faults e.findings).Nodup := by
  obtain ⟨item, ls⟩ := e
  simp only [findings]
  cases item with
  | declaration name =>
    simp only [Item.findings, redeclared]
    split <;> simp
  | use u =>
    obtain ⟨site, kind, name⟩ := u
    cases kind with
    | «variable» =>
      simp only [Item.findings, Use.findings, read]
      split <;> simp
    | assign => simp [Item.findings, Use.findings]
    | this | super => cases hk : ls.context.class_ <;> simp [Item.findings, Use.findings, hk]
  | return_ line hasValue =>
    simp only [Item.findings, faults_append]
    split <;> split <;> simp
  | inheritance name parent =>
    simp only [Item.findings]
    split <;> simp
  | implicit keyword | region r items => exact .nil

instance (e : Entry) (d : Diagnostic) : Decidable (e.Breaks d) :=
  decidable_of_iff _ mem_faults_findings

theorem count_faults_findings (e : Entry) (d : Diagnostic) :
    (faults e.findings).count d = if e.Breaks d then 1 else 0 := by
  simp only [← mem_faults_findings]
  exact List.Nodup.count e.nodup_faults_findings

end Entry

/-- The breaches are those of all places together. -/
theorem count_faults (p : Program) (d : Diagnostic) :
    (faults (findings p)).count d = p.entries.countP fun e => e.Breaks d := by
  rw [(faults_perm p).count_eq, List.count_flatMap]
  induction p.entries with
  | nil => rfl
  | cons e es ih => simp [ih, Entry.count_faults_findings, List.countP_cons, Nat.add_comm]

/-- The analysis accepts exactly the programs that break no rule, and reports each breach once. -/
theorem analyse_reports_breaches (p : Program) :
    ((∃ ties, analyse p = .ok ties) ↔ ∀ e ∈ p.entries, ∀ d, ¬ e.Breaks d) ∧
      ∀ ds, analyse p = .error ds → ∀ d, ds.count d = p.entries.countP fun e => e.Breaks d := by
  constructor
  · have hok : (∃ ties, analyse p = .ok ties) ↔ faults (findings p) = [] := by
      simp [analyse_eq_ok]
    rw [hok, List.eq_nil_iff_forall_not_mem]
    simp only [← Entry.mem_faults_findings, (faults_perm p).mem_iff, List.mem_flatMap]
    grind
  · intro ds h d
    rw [← count_faults, (analyse_eq_error.mp h).2]

/-- Two equal breaches are two reports. -/
theorem analyse_reports_breaches_repeated :
    (Program.entries [.return_ 1 none, .return_ 1 none]).countP (fun e =>
      e.Breaks (.scope .returnAtTopLevel (keywordPlace .return_ 1))) = 2 :=
  ((analyse_reports_breaches [.return_ 1 none, .return_ 1 none]).2 _ rfl _).symm

end LoxLang.Scoping
