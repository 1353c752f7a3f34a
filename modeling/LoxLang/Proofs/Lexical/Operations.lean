import LoxLang.Proofs.Lexical.Relation

/-!
# What the two machines do to their states

Each change of the scopes has its counterpart on cells and environments, and after both the states
still belong together, perhaps in a larger world.
-/

namespace LoxLang

/-! ## The global scope -/

namespace Store

open Machine

variable {st : Store} (ht : st.enclosing? globalScope = none) (hn : globalScope < st.nextScope)

/-- A scope with one name more is a scope in which it is defined. -/
theorem addScope_put (st : Store) (outer : Option ScopeId) (b : Bindings Value) (name : String)
    (v : Value) :
    st.addScope outer (b.put name v) = (st.addScope outer b).define st.nextScope name v := by
  simp only [addScope, define, nextScope]
  congr 1
  refine Array.ext_getElem? fun i => ?_
  rw [Array.getElem?_push, Array.getElem?_modify, Array.getElem?_push]
  grind

include ht hn

theorem owner?_global (name : String) :
    st.owner? globalScope name = (st.lookup? globalScope name).map fun _ => globalScope := by
  obtain ⟨n, hsize⟩ : ∃ n, st.scopes.size = n + 1 := Nat.exists_eq_succ_of_ne_zero (Nat.ne_of_gt hn)
  rw [owner?, hsize, ownerWithin?, ht]
  cases st.lookup? globalScope name <;> rfl

theorem get_global (name : String) : st.get globalScope name =
    match st.lookup? globalScope name with
    | some v => .ok v
    | none => .error (.undefinedVariable name) := by
  rw [get, owner?_global ht hn]
  cases h : st.lookup? globalScope name with
  | none => rfl
  | some v => simp [h]

theorem assign_global (name : String) (v : Value) : st.assign globalScope name v =
    match st.lookup? globalScope name with
    | some _ => .ok (st.define globalScope name v)
    | none => .error (.undefinedVariable name) := by
  rw [assign, owner?_global ht hn]
  cases st.lookup? globalScope name <;> rfl

end Store

namespace Lexical

/-! ## Cells and fields -/

/-- The last cell with another value. -/
theorem push_setIfInBounds (cells : Array Value) (u v : Value) :
    (cells.push u).setIfInBounds cells.size v = cells.push v := by
  simp [Array.setIfInBounds, Array.set_push]

namespace State

/-- A name that has just been declared with one value takes another. -/
theorem define_extend (l : State) (name : String) (u v : Value) (h : l.nextEnv ≠ topLevel) :
    (l.extend name u).define name v = l.extend name v := by
  have hcell : (l.extend name u).cell? l.nextEnv name = some l.cells.size := by
    simp [cell?, extend, bind, nextEnv, Bindings.get?]
  have henv : (l.extend name u).env = l.nextEnv := rfl
  rw [define, henv, if_neg h, hcell]
  simp only [extend, bind, push_setIfInBounds]

@[simp] theorem env_define (l : State) (name : String) (v : Value) :
    (l.define name v).env = l.env := by
  unfold define
  split
  · rfl
  · split <;> rfl

theorem field?_addObject (l : State) (object : ObjectId) (name : String) :
    State.field? { l with objects := l.objects.push [] } object name = l.field? object name :=
  Store.field?_addObject ⟨#[], l.objects, 0⟩ object name

theorem field?_setField (l : State) (object other : ObjectId) (name word : String) (v : Value) :
    (l.setField object name v).field? other word =
      if other = object ∧ word = name ∧ object < l.objects.size then some v
      else l.field? other word :=
  Store.field?_setField ⟨#[], l.objects, 0⟩ object other name word v

end State

end Lexical

namespace Lexical.World

open Scoping Machine

variable {w : World} {P : Occurrence → Prop} {s : Machine.State} {l : Lexical.State}

namespace States

/-- The current scope and environment do not matter. -/
theorem move (h : w.States P s l) (scope : ScopeId) (e : EnvId) :
    w.States P { s with scope := scope } { l with env := e } :=
  ⟨h.outer, h.env, h.top, h.injective, h.cells, h.scopes, h.locals, h.globals, h.global, h.fields,
    h.objects, h.identity, h.depth, h.output, h.clock⟩

/-- The table of bindings does not matter either. -/
theorem addBindings (h : w.States P s l) (ties : List (Site × Nat)) :
    w.States P (s.addBindings ties) l :=
  ⟨h.outer, h.env, h.top, h.injective, h.cells, h.scopes, h.locals, h.globals, h.global, h.fields,
    h.objects, h.identity, h.depth, h.output, h.clock⟩

theorem current_topLevel (h : w.States P s l) (hs : s.scope = globalScope)
    (he : l.env = topLevel) : w.Current [] s.scope l.env :=
  ⟨⟨[], he ▸ h.top, fun _ => rfl⟩, nofun, fun _ => ⟨hs, he⟩, fun hne => absurd rfl hne⟩

/-! ## Names -/

/-- Writing a local name changes its cell and no other. -/
theorem write (h : w.States P s l) {a : ScopeId} {name : String} {c : Cell} {v v' : Value}
    (hc : w.cell a name = some c) (hv : w.Values P v v') :
    w.States P { s with store := s.store.define a name v }
      { l with cells := l.cells.setIfInBounds c v' } := by
  obtain ⟨hlocal, hlt⟩ := h.scopes hc
  refine ⟨fun b => ?_, h.env, h.top, h.injective, fun hd => ?_, fun hd => ?_, fun {b word u} hb hu => ?_,
    fun word => ?_, ?_, h.fields, h.objects, h.identity, h.depth, h.output, h.clock⟩
  · simpa using h.outer b
  · simpa using h.cells hd
  · simpa using h.scopes hd
  · rw [Store.lookup?_define] at hu
    split at hu
    · next he =>
      obtain ⟨rfl, rfl, -⟩ := he
      cases hu
      exact ⟨c, v', hc, by simp [h.cells hc], hv⟩
    · next he =>
      obtain ⟨d, u', hd, hcell, hvalues⟩ := h.locals hb hu
      refine ⟨d, u', hd, ?_, hvalues⟩
      have hne : c ≠ d := by
        rintro rfl
        obtain ⟨rfl, rfl⟩ := h.injective hd hc
        exact he ⟨rfl, rfl, hlt⟩
      rw [Array.getElem?_setIfInBounds_ne hne, hcell]
  · rw [Store.lookup?_define, if_neg fun he => hlocal he.1.symm]
    exact h.globals word
  · simpa using h.global

theorem writeGlobal (h : w.States P s l) (name : String) {v v' : Value} (hv : w.Values P v v') :
    w.States P { s with store := s.store.define globalScope name v }
      { l with globals := l.globals.put name v' } := by
  refine ⟨fun b => ?_, h.env, h.top, h.injective, h.cells, fun hd => ?_, fun {b word u} hb hu => ?_,
    fun word => ?_, ?_, h.fields, h.objects, h.identity, h.depth, h.output, h.clock⟩
  · simpa using h.outer b
  · simpa using h.scopes hd
  · rw [Store.lookup?_define, if_neg fun he => hb he.1] at hu
    exact h.locals hb hu
  · rw [Store.lookup?_define, Bindings.get?_put]
    by_cases he : word = name
    · rw [if_pos ⟨rfl, he, h.global.2⟩, if_pos he]
      exact .some hv
    · rw [if_neg fun hc => he hc.2.1, if_neg he]
      exact h.globals word
  · simpa using h.global

end States

/-- The cell of a name that is declared in the innermost scope. -/
theorem Scoped.cell {names : List String} {scopes : Scopes} {scope : ScopeId} {e : EnvId}
    {name : String} (h : w.Scoped (names :: scopes) scope e) (hn : name ∈ names) :
    ∃ c ρ, w.cell scope name = some c ∧ w.env e = some ρ ∧ ρ.get? name = some c := by
  obtain ⟨ρ, hρ, outer, ρ', -, -, hnames, -⟩ := h
  obtain ⟨c, hc, hget⟩ := hnames name hn
  exact ⟨c, ρ, hc, hρ, hget⟩

theorem States.cell?_eq (h : w.States P s l) {e : EnvId} {ρ : Env} (hρ : w.env e = some ρ)
    (name : String) : l.cell? e name = ρ.get? name := by
  rw [State.cell?, ← h.env, hρ]
  rfl

theorem States.define {scopes : Scopes} {name : String} {v v' : Value} (h : w.States P s l)
    (hc : w.Current scopes s.scope l.env) (hn : ∀ names ∈ scopes.head?, name ∈ names)
    (hv : w.Values P v v') : w.States P (s.define name v) (l.define name v') := by
  unfold Machine.State.define Lexical.State.define
  cases scopes with
  | nil =>
    obtain ⟨hscope, henv⟩ := hc.top rfl
    rw [if_pos henv]
    exact hscope ▸ h.writeGlobal name hv
  | cons names scopes =>
    obtain ⟨c, ρ, hcell, hρ, hget⟩ := hc.maps.cell (hn names rfl)
    rw [if_neg (hc.inner nofun), h.cell?_eq hρ, hget]
    exact h.write hcell hv

/-! ## Growing worlds -/

/-- One scope more. -/
def addScope (w : World) (scope outer : ScopeId) : World :=
  { w with outer := fun a => if a = scope then some outer else w.outer a }

/-- One environment more. -/
def addEnv (w : World) (e : EnvId) (ρ : Env) : World :=
  { w with env := fun i => if i = e then some ρ else w.env i }

/-- One cell more. -/
def addCell (w : World) (scope : ScopeId) (name : String) (c : Cell) : World :=
  { w with cell := fun a word => if a = scope ∧ word = name then some c else w.cell a word }

theorem le_addScope {scope : ScopeId} (h : w.outer scope = none) (outer : ScopeId) :
    w.Le (w.addScope scope outer) := by
  refine ⟨id, fun {a o} ho => ?_, id⟩
  have hne : a ≠ scope := by
    rintro rfl
    simp [h] at ho
  exact (if_neg hne).trans ho

theorem le_addEnv {e : EnvId} (h : w.env e = none) (ρ : Env) : w.Le (w.addEnv e ρ) := by
  refine ⟨id, id, fun {i ρ'} hi => ?_⟩
  have hne : i ≠ e := by
    rintro rfl
    simp [h] at hi
  exact (if_neg hne).trans hi

theorem le_addCell {scope : ScopeId} {name : String} (h : w.cell scope name = none) (c : Cell) :
    w.Le (w.addCell scope name c) := by
  refine ⟨fun {a word d} hd => ?_, id, id⟩
  have hne : ¬ (a = scope ∧ word = name) := by
    rintro ⟨rfl, rfl⟩
    simp [h] at hd
  exact (if_neg hne).trans hd

namespace States

theorem outer_nextScope (h : w.States P s l) : w.outer s.store.nextScope = none := by
  rw [h.outer, Store.enclosing?_nextScope]

theorem env_nextEnv (h : w.States P s l) : w.env l.nextEnv = none := by
  simp [h.env, State.nextEnv]

theorem cell_nextScope (h : w.States P s l) (name : String) :
    w.cell s.store.nextScope name = none := by
  by_contra hc
  obtain ⟨c, hc⟩ := Option.ne_none_iff_exists'.mp hc
  exact Nat.lt_irrefl _ (h.scopes hc).2

theorem nextEnv_ne (h : w.States P s l) : l.nextEnv ≠ topLevel := by
  intro he
  have henv := h.env_nextEnv
  rw [he, h.top] at henv
  cases henv

theorem addScope (h : w.States P s l) (outer : ScopeId) :
    (w.addScope s.store.nextScope outer).States P
      { s with store := s.store.addScope (some outer) [] } l := by
  have hle := le_addScope h.outer_nextScope outer
  refine ⟨fun a => ?_, h.env, h.top, h.injective, h.cells, fun hc => ?_, fun {a name v} ha hv => ?_,
    fun name => ?_, ?_, fun id name => ?_, h.objects, h.identity, h.depth, h.output, h.clock⟩
  · rw [Store.enclosing?_addScope, ← h.outer a]
    rfl
  · rw [Store.nextScope_addScope]
    exact ⟨(h.scopes hc).1, Nat.lt_succ_of_lt (h.scopes hc).2⟩
  · rw [Store.lookup?_addScope] at hv
    split at hv
    · cases hv
    · obtain ⟨c, v', hc, hcell, hvalues⟩ := h.locals ha hv
      exact ⟨c, v', hc, hcell, hvalues.grow hle⟩
  · rw [Store.lookup?_addScope, if_neg (Nat.ne_of_lt h.global.2)]
    exact optional_grow (h.globals name) hle
  · rw [Store.enclosing?_addScope, if_neg (Nat.ne_of_lt h.global.2), Store.nextScope_addScope]
    exact ⟨h.global.1, Nat.lt_succ_of_lt h.global.2⟩
  · exact optional_grow (h.fields id name) hle

theorem addEnv (h : w.States P s l) (ρ : Env) :
    (w.addEnv l.nextEnv ρ).States P s { l with envs := l.envs.push ρ } := by
  have hle := le_addEnv h.env_nextEnv ρ
  refine ⟨h.outer, fun e => ?_, hle.env h.top, h.injective, h.cells, h.scopes,
    fun {a name v} ha hv => ?_, fun name => ?_, h.global, fun id name => ?_, h.objects, h.identity,
    h.depth, h.output, h.clock⟩
  · simp only [World.addEnv, h.env, Array.getElem?_push]
    rfl
  · obtain ⟨c, v', hc, hcell, hvalues⟩ := h.locals ha hv
    exact ⟨c, v', hc, hcell, hvalues.grow hle⟩
  · exact optional_grow (h.globals name) hle
  · exact optional_grow (h.fields id name) hle

/-- A new cell for a name that a scope does not have. -/
theorem addCell (h : w.States P s l) {a : ScopeId} {name : String}
    (hc : w.cell a name = none) (ha : a ≠ globalScope) (hlt : a < s.store.nextScope) (v' : Value) :
    (w.addCell a name l.cells.size).States P s { l with cells := l.cells.push v' } := by
  have hle := le_addCell hc l.cells.size
  have hcell : ∀ {b word c}, (w.addCell a name l.cells.size).cell b word = some c →
      b = a ∧ word = name ∧ c = l.cells.size ∨ w.cell b word = some c ∧ c < l.cells.size := by
    intro b word c hc
    simp only [World.addCell] at hc
    split at hc
    · next he => exact .inl ⟨he.1, he.2, (Option.some.inj hc).symm⟩
    · exact .inr ⟨hc, h.cells hc⟩
  refine ⟨h.outer, h.env, h.top, fun hc hd => ?_, fun hc => ?_, fun hc => ?_,
    fun {b word v} hb hv => ?_, fun name => ?_, h.global, fun id name => ?_, h.objects, h.identity,
    h.depth, h.output, h.clock⟩
  · rcases hcell hc with ⟨rfl, rfl, rfl⟩ | ⟨hc, hclt⟩ <;>
      rcases hcell hd with ⟨rfl, rfl, hnew⟩ | ⟨hd, hdlt⟩
    · exact ⟨rfl, rfl⟩
    · exact absurd hdlt (Nat.lt_irrefl _)
    · exact absurd hclt (hnew ▸ Nat.lt_irrefl _)
    · exact h.injective hc hd
  · rw [Array.size_push]
    rcases hcell hc with ⟨-, -, rfl⟩ | ⟨-, hclt⟩
    · exact Nat.lt_succ_self _
    · exact Nat.lt_succ_of_lt hclt
  · rcases hcell hc with ⟨rfl, -, -⟩ | ⟨hc, -⟩
    · exact ⟨ha, hlt⟩
    · exact h.scopes hc
  · obtain ⟨c, v', hc, hcell, hvalues⟩ := h.locals hb hv
    refine ⟨c, v', hle.cell hc, ?_, hvalues.grow hle⟩
    rw [Array.getElem?_push, if_neg (Nat.ne_of_lt (h.cells hc)), hcell]
  · exact optional_grow (h.globals name) hle
  · exact optional_grow (h.fields id name) hle

/-- A scope within another one is not the global scope. -/
theorem inner (h : w.States P s l) {a outer : ScopeId} (ho : w.outer a = some outer) :
    a ≠ globalScope ∧ a < s.store.nextScope := by
  rw [h.outer] at ho
  refine ⟨?_, Store.lt_nextScope_of_enclosing? ho⟩
  rintro rfl
  simp [h.global.1] at ho

end States

theorem Current.lt_nextScope {scopes : Scopes} {scope : ScopeId} {e : EnvId}
    (h : w.Current scopes scope e) (hs : w.States P s l) : scope < s.store.nextScope := by
  cases scopes with
  | nil =>
    rw [(h.top rfl).1]
    exact hs.global.2
  | cons names scopes =>
    obtain ⟨ρ, -, outer, -, ho, -⟩ := h.maps
    exact (hs.inner ho).2

/-- An environment with a new name in front. -/
theorem Maps.cons {names : List String} {scopes : Scopes} {scope : ScopeId} {ρ : Env}
    {name : String} {c : Cell} (h : w.Maps (names :: scopes) scope ρ)
    (hc : w.cell scope name = some c) :
    w.Maps ((name :: names) :: scopes) scope ((name, c) :: ρ) := by
  obtain ⟨outer, ρ', ho, hmaps, hnames, hothers⟩ := h
  refine ⟨outer, ρ', ho, hmaps, fun word hw => ?_, fun word hw => ?_⟩
  · by_cases he : name = word
    · subst he
      exact ⟨c, hc, by simp [Bindings.get?]⟩
    · obtain ⟨d, hd, hget⟩ := hnames word ((List.mem_cons.mp hw).resolve_left (Ne.symm he))
      exact ⟨d, hd, by simpa [Bindings.get?, he] using hget⟩
  · rw [List.mem_cons, not_or] at hw
    simpa [Bindings.get?, Ne.symm hw.1] using hothers word hw.2

/-! ## Blocks, declarations and bindings -/

namespace States

theorem getD_envs (h : w.States P s l) {e : EnvId} {ρ : Env} (hρ : w.env e = some ρ) :
    l.envs[e]?.getD [] = ρ := by
  rw [← h.env, hρ]
  rfl

/-- A new scope without names. -/
theorem enter (h : w.States P s l) {scopes : Scopes} {a : ScopeId} {e : EnvId}
    (hs : w.Scoped scopes a e) :
    ∃ w', w.Le w' ∧ w'.cell = w.cell ∧
      w'.States P { s with store := s.store.addScope (some a) [], scope := s.store.nextScope }
        (l.enter e) ∧
      w'.Current ([] :: scopes) s.store.nextScope l.nextEnv := by
  obtain ⟨ρ, hρ, hmaps⟩ := hs
  have hle := (le_addScope h.outer_nextScope a).trans
    (le_addEnv (w := w.addScope s.store.nextScope a) h.env_nextEnv ρ)
  refine ⟨_, hle, rfl, ?_, ⟨ρ, if_pos rfl, a, ρ, if_pos rfl, hmaps.mono hle, by simp, fun _ _ => rfl⟩,
    fun names hn name c hc => ?_, nofun, fun _ => h.nextEnv_ne⟩
  · have hstates := ((h.addScope a).addEnv ρ).move s.store.nextScope l.nextEnv
    rw [← h.getD_envs hρ] at hstates ⊢
    exact hstates
  · cases (h.cell_nextScope name).symm.trans hc

/-- The declaration of a local name that is not declared in the same scope. -/
theorem extend (h : w.States P s l) {names : List String} {scopes : Scopes} {name : String}
    (hc : w.Current (names :: scopes) s.scope l.env) (hn : name ∉ names) (v' : Value) :
    ∃ w', w.Le w' ∧ (∀ a, a ≠ s.scope → w'.cell a = w.cell a) ∧ w'.States P s (l.extend name v') ∧
      w'.Current ((name :: names) :: scopes) s.scope l.nextEnv := by
  obtain ⟨ρ, hρ, hmaps⟩ := hc.maps
  obtain ⟨outer, -, ho, -⟩ := id hmaps
  obtain ⟨hlocal, hlt⟩ := h.inner ho
  have hnew : w.cell s.scope name = none := by
    by_contra hcell
    obtain ⟨c, hcell⟩ := Option.ne_none_iff_exists'.mp hcell
    exact hn (hc.exact names rfl name c hcell)
  have hle := le_addCell hnew l.cells.size
  have hle' := le_addEnv (w := w.addCell s.scope name l.cells.size) h.env_nextEnv
    ((name, l.cells.size) :: ρ)
  refine ⟨_, hle.trans hle', fun a ha => ?_, ?_, ⟨_, if_pos rfl, ?_⟩,
    fun names' hn' word c hword => ?_, nofun, fun _ => h.nextEnv_ne⟩
  · funext word
    exact if_neg fun he => ha he.1
  · have hstates := ((h.addCell hnew hlocal hlt v').addEnv ((name, l.cells.size) :: ρ)).move
      s.scope l.nextEnv
    rw [← h.getD_envs hρ] at hstates ⊢
    exact hstates
  · exact ((hmaps.mono hle).cons (if_pos ⟨rfl, rfl⟩)).mono hle'
  · cases hn'
    by_cases he : word = name
    · exact he ▸ List.mem_cons_self
    · have hold : w.cell s.scope word = some c := (if_neg fun h => he h.2).symm.trans hword
      exact List.mem_cons_of_mem _ (hc.exact names rfl word c hold)

/-- A new scope with one name. -/
theorem bind (h : w.States P s l) {scopes : Scopes} {a : ScopeId} {e : EnvId}
    (hs : w.Scoped scopes a e) (name : String) {v v' : Value} (hv : w.Values P v v') :
    ∃ w', w.Le w' ∧ (∀ b < s.store.nextScope, w'.cell b = w.cell b) ∧
      w'.States P { s with store := s.store.addScope (some a) [(name, v)] } (l.bind e name v') ∧
      w'.Scoped ([name] :: scopes) s.store.nextScope l.nextEnv := by
  obtain ⟨ρ, hρ, hmaps⟩ := hs
  have hle := le_addScope h.outer_nextScope a
  have hle' := le_addCell (w := w.addScope s.store.nextScope a) (h.cell_nextScope name) l.cells.size
  have hle'' := le_addEnv
    (w := (w.addScope s.store.nextScope a).addCell s.store.nextScope name l.cells.size)
    h.env_nextEnv ((name, l.cells.size) :: ρ)
  refine ⟨_, (hle.trans hle').trans hle'', fun b hb => ?_, ?_, ⟨_, if_pos rfl, ?_⟩⟩
  · funext word
    exact if_neg fun he => Nat.ne_of_lt hb he.1
  · have hout : (w.addScope s.store.nextScope a).outer s.store.nextScope = some a := if_pos rfl
    obtain ⟨hlocal, hlt⟩ := (h.addScope a).inner hout
    have hstates := (((h.addScope a).addCell (h.cell_nextScope name) hlocal hlt v').write
      (if_pos ⟨rfl, rfl⟩) (hv.grow (hle.trans hle'))).addEnv ((name, l.cells.size) :: ρ)
    rw [← h.getD_envs hρ] at hstates ⊢
    rw [← Store.addScope_put, push_setIfInBounds] at hstates
    exact hstates
  · have hempty : (w.addScope s.store.nextScope a).Maps ([] :: scopes) s.store.nextScope ρ :=
      ⟨a, ρ, if_pos rfl, hmaps.mono hle, by simp, fun _ _ => rfl⟩
    exact ((hempty.mono hle').cons (if_pos ⟨rfl, rfl⟩)).mono hle''

/-- The declaration of a name by a statement. -/
theorem declare (h : w.States P s l) {scopes : Scopes} {name : String}
    (hc : w.Current scopes s.scope l.env) (hn : ∀ names ∈ scopes.head?, name ∉ names) :
    ∃ w', w.Le w' ∧ (∀ a, a ≠ s.scope → w'.cell a = w.cell a) ∧ w'.States P s (l.declare name) ∧
      w'.Current (scopes.declare name) s.scope (l.declare name).env := by
  unfold Lexical.State.declare
  cases scopes with
  | nil =>
    rw [if_pos (hc.top rfl).2]
    exact ⟨w, .refl w, fun _ _ => rfl, h, hc⟩
  | cons names scopes =>
    rw [if_neg (hc.inner nofun)]
    exact h.extend hc (hn names rfl) .nil

/-- Parameters are declared one after the other, each with its argument. -/
theorem params {params : List Name} {args args' : List Value} {st : Store} {a : ScopeId}
    {b : Bindings Value} {names : List String} {scopes : Scopes} (h : w.States P s l)
    (hst : s.store = st.addScope (some a) b) (hscope : s.scope = st.nextScope)
    (hc : w.Current (names :: scopes) s.scope l.env)
    (hargs : List.Forall₂ (w.Values P) args args') (hlen : args.length = params.length)
    (hn : ((params.map (·.text)).reverse ++ names).Nodup) :
    ∃ w', w.Le w' ∧ (∀ c, c ≠ s.scope → w'.cell c = w.cell c) ∧
      w'.States P
        { s with
          store := st.addScope (some a)
            ((params.zip args).foldl (fun b (p, v) => b.put p.text v) b) }
        ((params.zip args').foldl (fun l (p, v) => l.extend p.text v) l) ∧
      w'.Current (((params.map (·.text)).reverse ++ names) :: scopes) s.scope
        ((params.zip args').foldl (fun l (p, v) => l.extend p.text v) l).env := by
  induction params generalizing w s l args args' b names with
  | nil => exact ⟨w, .refl w, fun _ _ => rfl, hst ▸ h, by simpa using hc⟩
  | cons p ps ih =>
    cases hargs with
    | nil => cases hlen
    | @cons v v' args args' hv hargs =>
      have hn' : ((ps.map (·.text)).reverse ++ (p.text :: names)).Nodup := by simpa using hn
      have hp : p.text ∉ names := (List.nodup_cons.mp hn'.of_append_right).1
      obtain ⟨w₁, hle, hsame, hstates, hcurrent⟩ := h.extend hc hp v'
      have hdefined := hstates.define hcurrent (mem_head_declare (names :: scopes) _) (hv.grow hle)
      rw [State.define_extend l p.text v' v' h.nextEnv_ne] at hdefined
      have hstore : (s.define p.text v).store = st.addScope (some a) (b.put p.text v) := by
        rw [Store.addScope_put, ← hst, ← hscope]
        rfl
      obtain ⟨w₂, hle', hsame', hstates', hcurrent'⟩ := ih hdefined hstore hscope hcurrent
        (hargs.imp fun _ _ h => h.grow hle) (by simpa using hlen) hn'
      refine ⟨w₂, hle.trans hle', fun c hne => (hsame' c hne).trans (hsame c hne), hstates', ?_⟩
      rw [List.map_cons, List.reverse_cons, List.append_assoc]
      exact hcurrent'

/-! ## Objects, identities and output -/

theorem setField (h : w.States P s l) (id : ObjectId) (name : String) {v v' : Value}
    (hv : w.Values P v v') :
    w.States P { s with store := s.store.setField id name v } (l.setField id name v') := by
  refine ⟨h.outer, h.env, h.top, h.injective, h.cells, h.scopes, h.locals, h.globals, h.global,
    fun other word => ?_, ?_, h.identity, h.depth, h.output, h.clock⟩
  · rw [Store.field?_setField, State.field?_setField, h.objects]
    split
    · exact .some hv
    · exact h.fields other word
  · simpa [Store.nextObject, Store.setField, State.setField] using h.objects

theorem addObject (h : w.States P s l) :
    w.States P { s with store := s.store.addObject } { l with objects := l.objects.push [] } := by
  refine ⟨h.outer, h.env, h.top, h.injective, h.cells, h.scopes, h.locals, h.globals, h.global,
    fun id name => ?_, ?_, h.identity, h.depth, h.output, h.clock⟩
  · rw [Store.field?_addObject, State.field?_addObject]
    exact h.fields id name
  · simpa [Store.nextObject, Store.addObject] using h.objects

theorem takeIdentity (h : w.States P s l) :
    w.States P { s with store := s.store.takeIdentity } l.takeIdentity :=
  ⟨h.outer, h.env, h.top, h.injective, h.cells, h.scopes, h.locals, h.globals, h.global, h.fields,
    h.objects, congrArg (· + 1) h.identity, h.depth, h.output, h.clock⟩

theorem withDepth (h : w.States P s l) (depth : Nat) :
    w.States P { s with depth := depth } { l with depth := depth } :=
  ⟨h.outer, h.env, h.top, h.injective, h.cells, h.scopes, h.locals, h.globals, h.global, h.fields,
    h.objects, h.identity, rfl, h.output, h.clock⟩

theorem withOutput (h : w.States P s l) (output : Output) :
    w.States P { s with output := output } { l with output := output } :=
  ⟨h.outer, h.env, h.top, h.injective, h.cells, h.scopes, h.locals, h.globals, h.global, h.fields,
    h.objects, h.identity, h.depth, rfl, h.clock⟩

theorem readClock (h : w.States P s l) :
    w.States P { s with clock := s.clock.next } { l with clock := l.clock.next } :=
  ⟨h.outer, h.env, h.top, h.injective, h.cells, h.scopes, h.locals, h.globals, h.global, h.fields,
    h.objects, h.identity, h.depth, h.output, congrArg Clock.next h.clock⟩

end States

end Lexical.World

end LoxLang
