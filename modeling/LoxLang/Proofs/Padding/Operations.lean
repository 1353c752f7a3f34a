import LoxLang.Proofs.Lexical.Operations
import LoxLang.Proofs.Padding.Relation

/-!
# What the two runs do to their stores

After both runs have done the same to their stores, these still belong together, perhaps in a larger
world. A scope that only the padded run makes has no names and stands for nothing.
-/

namespace LoxLang.Padding.World

open Machine

variable {w w' : World} {t t' : BindingTable} {st st' : Store} {σ : Distances} {a a' : ScopeId}

/-! ## Frames in a larger world -/

section Mono

variable (hle : w.Le w')

include hle

theorem Runs.mono {k : Code} {c c' : k.Tree} (h : w.Runs t t' a a' k c c') :
    w'.Runs t t' a a' k c c' := by
  obtain ⟨σ, hr, hc⟩ := h
  exact ⟨σ, hr.mono hle, hc⟩

theorem Evals.mono {e e' : Expr} (h : w.Evals t t' a a' e e') : w'.Evals t t' a a' e e' := by
  obtain ⟨σ, hr, he⟩ := h
  exact ⟨σ, hr.mono hle, he⟩

theorem CallResults.mono {r r' : CallResult} (h : w.CallResults t t' r r') :
    w'.CallResults t t' r r' := by
  induction h with
  | returned => exact .returned
  | receiver h => exact .receiver (hle.twin h)
  | given _ h ih => exact .given ih (Values.mono hle h)

theorem Frames.mono {event below : Event} {f f' : Frame}
    (h : w.Frames t t' a a' event below f f') : w'.Frames t t' a a' event below f f' := by
  cases h with
  | unary op line => exact .unary op line
  | binaryLeft op line he => exact .binaryLeft op line (Evals.mono hle he)
  | binaryRight op line hv => exact .binaryRight op line (Values.mono hle hv)
  | logical op he => exact .logical op (Evals.mono hle he)
  | assign name hu =>
    obtain ⟨σ, hr, hu⟩ := hu
    exact .assign name ⟨σ, hr.mono hle, hu⟩
  | callee line he => exact .callee line (he.imp fun _ _ h => Evals.mono hle h)
  | argument line hv hd he =>
    exact .argument line (Values.mono hle hv) (hd.imp fun _ _ h => Values.mono hle h)
      (he.imp fun _ _ h => Evals.mono hle h)
  | get name => exact .get name
  | setObject name he => exact .setObject name (Evals.mono hle he)
  | setValue name id => exact .setValue name id
  | print => exact .print
  | var name ht => exact .var name (hle.twin ht)
  | if_ ht he =>
    refine .if_ (Runs.mono hle ht) ?_
    cases he with
    | none => exact .none
    | some he => exact .some (Runs.mono hle he)
  | whileCondition hc hb => exact .whileCondition (Evals.mono hle hc) (Runs.mono hle hb)
  | superclass name line hσ hr hm => exact .superclass name line hσ (hr.mono hle) hm
  | return_ => exact .return_
  | whileBody hc hb => exact .whileBody (Evals.mono hle hc) (Runs.mono hle hb)
  | sequence h => exact .sequence (Runs.mono hle h)

theorem Stacks.mono {event : Event} {k k' : List Frame} (h : w.Stacks t t' event a a' k k') :
    w'.Stacks t t' event a a' k k' := by
  induction h with
  | frame hf _ ih => exact .frame (hf.mono hle) ih
  | ignore _ ih => exact .ignore ih
  | block _ ih => exact .block ih
  | call hr _ ih => exact .call (hr.mono hle) ih
  | program h => exact .program (Runs.mono hle h)
  | padded _ ih => exact .padded ih
  | paddedEnd _ ih => exact .paddedEnd ih

end Mono

/-! ## New scopes -/

/-- A new scope in both runs. -/
def add (w : World) (n n' a a' : ScopeId) : World where
  twin b := if b = n then some n' else w.twin b
  outer b := if b = n then some a else w.outer b
  outer' b := if b = n' then some a' else w.outer' b

/-- A new scope in the padded run. -/
def pad (w : World) (n' a' : ScopeId) : World :=
  { w with outer' := fun b => if b = n' then some a' else w.outer' b }

namespace Stores

theorem outer'_nextScope (h : w.Stores t t' st st') {b : ScopeId}
    (hb : w.outer' st'.nextScope = some b) : False := by
  rw [h.outer', Store.enclosing?_nextScope] at hb
  cases hb

theorem le_add (h : w.Stores t t' st st') (a a' : ScopeId) :
    w.Le (w.add st.nextScope st'.nextScope a a') := by
  have hne : ∀ {b c}, w.twin b = some c → b ≠ st.nextScope := fun hb =>
    Nat.ne_of_lt (h.bounds hb).1
  refine ⟨fun hb => ?_, fun hb => ?_, fun {b c} hb => ?_⟩
  · exact (if_neg (hne hb)).trans hb
  · exact if_neg (hne hb)
  · by_cases hn : b = st'.nextScope
    · subst hn
      exact (h.outer'_nextScope hb).elim
    · exact (if_neg hn).trans hb

theorem le_pad (h : w.Stores t t' st st') (a' : ScopeId) : w.Le (w.pad st'.nextScope a') := by
  refine ⟨fun hb => hb, fun _ => rfl, fun {b c} hb => ?_⟩
  by_cases hn : b = st'.nextScope
  · subst hn
    exact (h.outer'_nextScope hb).elim
  · exact (if_neg hn).trans hb

/-- Both runs make a scope. -/
theorem addScope (h : w.Stores t t' st st') (a a' : ScopeId) {b b' : Bindings Value}
    (hb : b.Like (w.Values t t') b') :
    (w.add st.nextScope st'.nextScope a a').Stores t t' (st.addScope (some a) b)
      (st'.addScope (some a') b') := by
  have hle := h.le_add a a'
  refine ⟨fun c => ?_, fun c => ?_, fun {c d} hc => ?_, fun {c d e} hc hd => ?_,
    fun {c d} hc name => ?_, hle.twin h.global, ?_, fun id name => optional_mono hle (h.fields id name),
    h.objects, h.identity⟩
  · rw [Store.enclosing?_addScope, ← h.outer]
    rfl
  · rw [Store.enclosing?_addScope, ← h.outer']
    rfl
  · simp only [add] at hc
    simp only [Store.nextScope_addScope]
    split at hc
    · next hn =>
      cases hc
      subst hn
      exact ⟨Nat.lt_succ_self _, Nat.lt_succ_self _⟩
    · have hbounds := h.bounds hc
      exact ⟨Nat.lt_succ_of_lt hbounds.1, Nat.lt_succ_of_lt hbounds.2⟩
  · simp only [add] at hc hd
    split at hc
    · next hn =>
      cases hc
      split at hd
      · next hn' => rw [hn, hn']
      · exact absurd (h.bounds hd).2 (Nat.lt_irrefl _)
    · split at hd
      · cases hd
        exact absurd (h.bounds hc).2 (Nat.lt_irrefl _)
      · exact h.injective hc hd
  · simp only [add] at hc
    rw [Store.lookup?_addScope, Store.lookup?_addScope]
    split at hc
    · next hn =>
      cases hc
      rw [if_pos hn, if_pos rfl]
      exact optional_mono hle (hb.get? name)
    · next hn =>
      rw [if_neg hn, if_neg (Nat.ne_of_lt (h.bounds hc).2)]
      exact optional_mono hle (h.names hc name)
  · rw [Store.enclosing?_addScope, Store.enclosing?_addScope,
      if_neg (Nat.ne_of_lt (h.bounds h.global).1), if_neg (Nat.ne_of_lt (h.bounds h.global).2)]
    exact h.top

/-- Only the padded run makes a scope. -/
theorem addPad (h : w.Stores t t' st st') (a' : ScopeId) :
    (w.pad st'.nextScope a').Stores t t' st (st'.addScope (some a') []) := by
  have hle := h.le_pad a'
  have hbounds : ∀ {b c}, w.twin b = some c → c ≠ st'.nextScope := fun hb =>
    Nat.ne_of_lt (h.bounds hb).2
  refine ⟨h.outer, fun c => ?_, fun hc => ?_, h.injective, fun {c d} hc name => ?_, h.global, ?_,
    fun id name => optional_mono hle (h.fields id name), h.objects, h.identity⟩
  · rw [Store.enclosing?_addScope, ← h.outer']
    rfl
  · rw [Store.nextScope_addScope]
    exact ⟨(h.bounds hc).1, Nat.lt_succ_of_lt (h.bounds hc).2⟩
  · rw [Store.lookup?_addScope, if_neg (hbounds hc)]
    exact optional_mono hle (h.names hc name)
  · rw [Store.enclosing?_addScope, if_neg (hbounds h.global)]
    exact h.top

theorem reaches_within (h : w.Stores t t' st st') (hr : w.Reaches σ a a') :
    (w.add st.nextScope st'.nextScope a a').Reaches σ.within st.nextScope st'.nextScope :=
  (hr.mono (h.le_add a a')).within (if_pos rfl) (if_pos rfl) (if_pos rfl)

theorem reaches_padded (h : w.Stores t t' st st') (hr : w.Reaches σ a a') :
    (w.pad st'.nextScope a').Reaches σ.padded a st'.nextScope :=
  (hr.mono (h.le_pad a')).padded (if_pos rfl)

/-! ## Writing -/

theorem define (h : w.Stores t t' st st') (ht : w.twin a = some a') (name : String) {v v' : Value}
    (hv : w.Values t t' v v') :
    w.Stores t t' (st.define a name v) (st'.define a' name v') := by
  refine ⟨fun b => ?_, fun b => ?_, fun hb => ?_, h.injective, fun {b b'} hb word => ?_, h.global, ?_,
    h.fields, h.objects, h.identity⟩
  · rw [Store.enclosing?_define, h.outer]
  · rw [Store.enclosing?_define, h.outer']
  · rw [Store.nextScope_define, Store.nextScope_define]
    exact h.bounds hb
  · -- A scope is written if and only if its twin is.
    have hsame : b = a ↔ b' = a' := by
      constructor
      · rintro rfl
        exact Option.some.inj (hb.symm.trans ht)
      · rintro rfl
        exact h.injective hb ht
    rw [Store.lookup?_define, Store.lookup?_define]
    by_cases hw : b = a ∧ word = name
    · rw [if_pos ⟨hw.1, hw.2, (h.bounds ht).1⟩, if_pos ⟨hsame.mp hw.1, hw.2, (h.bounds ht).2⟩]
      exact .some hv
    · rw [if_neg fun hc => hw ⟨hc.1, hc.2.1⟩, if_neg fun hc => hw ⟨hsame.mpr hc.1, hc.2.1⟩]
      exact h.names hb word
  · rw [Store.enclosing?_define, Store.enclosing?_define]
    exact h.top

theorem setField (h : w.Stores t t' st st') (id : ObjectId) (name : String) {v v' : Value}
    (hv : w.Values t t' v v') : w.Stores t t' (st.setField id name v) (st'.setField id name v') := by
  refine ⟨h.outer, h.outer', h.bounds, h.injective, h.names, h.global, h.top, fun other word => ?_, ?_,
    h.identity⟩
  · rw [Store.field?_setField, Store.field?_setField, ← h.objects]
    split
    · exact .some hv
    · exact h.fields other word
  · simpa [Store.nextObject, Store.setField] using h.objects

theorem addObject (h : w.Stores t t' st st') : w.Stores t t' st.addObject st'.addObject := by
  refine ⟨h.outer, h.outer', h.bounds, h.injective, h.names, h.global, h.top, fun id name => ?_, ?_,
    h.identity⟩
  · rw [Store.field?_addObject, Store.field?_addObject]
    exact h.fields id name
  · simpa [Store.nextObject, Store.addObject] using h.objects

theorem takeIdentity (h : w.Stores t t' st st') : w.Stores t t' st.takeIdentity st'.takeIdentity :=
  ⟨h.outer, h.outer', h.bounds, h.injective, h.names, h.global, h.top, h.fields, h.objects,
    congrArg (· + 1) h.identity⟩

/-! ## Reading -/

/-- The scope at a distance has its twin at the distance that belongs to it. -/
theorem ancestor? (h : w.Stores t t' st st') (hr : w.Reaches σ a a') {d : Nat} {b : ScopeId}
    (hb : st.ancestor? a d = some b) :
    ∃ b', w.twin b = some b' ∧ st'.ancestor? a' (σ d) = some b' := by
  rw [ancestor?_eq_up, ← funext h.outer] at hb
  obtain ⟨b', ht, hb'⟩ := hr d b hb
  refine ⟨b', ht, ?_⟩
  rw [ancestor?_eq_up, ← funext h.outer']
  exact hb'

/-- What is found at a distance is found at the distance that belongs to it. -/
theorem getAt (h : w.Stores t t' st st') (hr : w.Reaches σ a a') {d : Nat} {name : String} {v : Value}
    (hv : st.getAt a d name = .ok v) :
    ∃ v', st'.getAt a' (σ d) name = .ok v' ∧ w.Values t t' v v' := by
  obtain ⟨b, hb, hv⟩ := Store.getAt_eq_ok.mp hv
  obtain ⟨b', ht, hb'⟩ := h.ancestor? hr hb
  obtain ⟨hnone, -⟩ | ⟨u, u', hu, hu', hrel⟩ := rel_cases (h.names ht name)
  · simp [hnone] at hv
  · obtain rfl : u = v := Option.some.inj (hu.symm.trans hv)
    exact ⟨u', Store.getAt_eq_ok.mpr ⟨b', hb', hu'⟩, hrel⟩

theorem get_global (h : w.Stores t t' st st') (name : String) :
    Results (w.Functions t t') (w.Methods t t') (st.get globalScope name)
      (st'.get globalScope name) := by
  have hbounds := h.bounds h.global
  rw [Store.get_global h.top.1 hbounds.1, Store.get_global h.top.2 hbounds.2]
  obtain ⟨hn, hn'⟩ | ⟨u, u', hu, hu', hrel⟩ := rel_cases (h.names h.global name)
  · rw [hn, hn']
    exact .error _
  · rw [hu, hu']
    exact .ok hrel

end Stores

/-! ## Parameters and methods -/

theorem like_bindParams (params : List Name) {args args' : List Value}
    (h : List.Forall₂ (w.Values t t') args args') :
    (bindParams params args).Like (w.Values t t') (bindParams params args') := by
  have hfold : ∀ (params : List Name) {args args' : List Value} {b b' : Bindings Value},
      List.Forall₂ (w.Values t t') args args' → b.Like (w.Values t t') b' →
      ((params.zip args).foldl (fun b entry => b.put entry.1.text entry.2) b).Like (w.Values t t')
        ((params.zip args').foldl (fun b entry => b.put entry.1.text entry.2) b') := by
    intro params
    induction params with
    | nil => exact fun _ hb => hb
    | cons p ps ih =>
      intro args args' b b' hargs hb
      cases hargs with
      | nil => exact hb
      | cons hv hrest => exact ih hrest (hb.put p.text hv)
  exact hfold params h .nil

/-- The tables of methods whose code is padded. -/
theorem like_methodTable {rs rs' : List Routine} (hσ : σ 0 = 0)
    (h : Related t t' .routines σ.within rs rs') (hr : w.Reaches σ a a') :
    (methodTable rs a).Like (w.Methods t t') (methodTable rs' a') := by
  have hfold : ∀ {rs rs' : List Routine} {b b' : Bindings Closure},
      Related t t' .routines σ.within rs rs' → b.Like (w.Methods t t') b' →
      (rs.foldl (fun b r => b.put r.name.text ⟨r, a, r.isInit⟩) b).Like (w.Methods t t')
        (rs'.foldl (fun b r => b.put r.name.text ⟨r, a', r.isInit⟩) b') := by
    intro rs
    induction rs with
    | nil =>
      intro rs' b b' h hb
      cases h
      exact hb
    | cons r rs ih =>
      intro rs' b b' h hb
      cases h with
      | routines hfirst hrest =>
        have hname := hfirst.name_eq.1
        rw [List.foldl_cons, List.foldl_cons, ← hname]
        refine ih hrest (hb.put _ ⟨?_, σ, hσ, hfirst, hr⟩)
        simp only [Routine.isInit, hname]
  exact hfold h .nil

end LoxLang.Padding.World
