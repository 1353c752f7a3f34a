import LoxLang.Proofs.Machine.Preservation

/-!
# The routines that a store holds

Functions, classes and objects bring routines with them. A run gets at no other routines than those
of its own code and those that the store holds.

`P` stands for what is known about each routine.
-/

namespace LoxLang

variable {P Q : Routine → Prop}

/-- All methods of a class and of the classes above it have a property. -/
def Class.AllRoutines (P : Routine → Prop) : Class → Prop
  | .mk _ _ none methods => ∀ entry ∈ methods, P entry.2.routine
  | .mk _ _ (some parent) methods =>
    Class.AllRoutines P parent ∧ ∀ entry ∈ methods, P entry.2.routine

/-- All routines that a value brings have a property. -/
def Value.AllRoutines (P : Routine → Prop) : Value → Prop
  | .function _ f => P f.routine
  | .class_ c => c.AllRoutines P
  | .object _ c => c.AllRoutines P
  | _ => True

theorem Class.AllRoutines.mono (hP : ∀ r, P r → Q r) :
    ∀ {c : Class}, c.AllRoutines P → c.AllRoutines Q
  | .mk _ _ none _, h => fun entry he => hP _ (h entry he)
  | .mk _ _ (some _) _, h => ⟨Class.AllRoutines.mono hP h.1, fun entry he => hP _ (h.2 entry he)⟩

theorem Value.AllRoutines.mono (hP : ∀ r, P r → Q r) {v : Value} (h : v.AllRoutines P) :
    v.AllRoutines Q := by
  cases v with
  | function i f => exact hP _ h
  | class_ c => exact Class.AllRoutines.mono hP h
  | object i c => exact Class.AllRoutines.mono hP h
  | _ => trivial

theorem Class.AllRoutines.method? {name : String} {m : Closure} :
    ∀ {c : Class}, c.AllRoutines P → c.method? name = some m → P m.routine
  | .mk _ _ none methods, h, hm => h (name, m) (Bindings.mem_of_get? hm)
  | .mk _ _ (some parent) methods, h, hm => by
    rw [Class.method?] at hm
    split at hm
    · next he =>
      cases hm
      exact h.2 (name, m) (Bindings.mem_of_get? he)
    · exact Class.AllRoutines.method? h.1 hm

theorem Literal.allRoutines_value (l : Literal) : l.value.AllRoutines P := by
  cases l <;> trivial

theorem UnaryOp.allRoutines_apply {op : UnaryOp} {v w : Value} (h : op.apply v = .ok w) :
    w.AllRoutines P := by
  unfold UnaryOp.apply at h
  split at h <;> cases h <;> trivial

theorem Value.allRoutines_onNumbers {f : Float → Float → Value} (hf : ∀ x y, (f x y).AllRoutines P)
    {v w u : Value} (h : v.onNumbers f w = .ok u) : u.AllRoutines P := by
  unfold Value.onNumbers at h
  split at h <;> cases h
  exact hf _ _

theorem BinaryOp.allRoutines_apply {op : BinaryOp} {v w u : Value} (h : op.apply v w = .ok u) :
    u.AllRoutines P := by
  cases op with
  | add =>
    simp only [BinaryOp.apply, Value.add] at h
    split at h <;> cases h <;> trivial
  | equal | notEqual =>
    cases h
    trivial
  | subtract | multiply | divide | greater | greaterEqual | less | lessEqual =>
    refine Value.allRoutines_onNumbers (fun x y => ?_) h
    trivial

/-- All routines in a store have a property. -/
structure Store.AllRoutines (P : Routine → Prop) (st : Store) : Prop where
  lookup : ∀ {s name v}, st.lookup? s name = some v → v.AllRoutines P
  field : ∀ {id name v}, st.field? id name = some v → v.AllRoutines P

namespace Store.AllRoutines

variable {st : Store}

theorem mono (hP : ∀ r, P r → Q r) (h : st.AllRoutines P) : st.AllRoutines Q :=
  ⟨fun hv => (h.lookup hv).mono hP, fun hv => (h.field hv).mono hP⟩

theorem getAt (h : st.AllRoutines P) {scope : ScopeId} {hops : Nat} {name : String} {v : Value}
    (hv : st.getAt scope hops name = .ok v) : v.AllRoutines P := by
  obtain ⟨owner, -, hl⟩ := Store.getAt_eq_ok.mp hv
  exact h.lookup hl

theorem get (h : st.AllRoutines P) {scope : ScopeId} {name : String} {v : Value}
    (hv : st.get scope name = .ok v) : v.AllRoutines P := by
  obtain ⟨owner, hl⟩ := Store.lookup?_of_get hv
  exact h.lookup hl

theorem addScope (h : st.AllRoutines P) (outer : Option ScopeId) {b : Bindings Value}
    (hb : ∀ name v, b.get? name = some v → v.AllRoutines P) :
    (st.addScope outer b).AllRoutines P := by
  refine ⟨fun {s name v} hv => ?_, fun hv => h.field hv⟩
  rw [lookup?_addScope] at hv
  split at hv
  · exact hb name v hv
  · exact h.lookup hv

/-- A new scope with a single name in it. -/
theorem addScope_single (h : st.AllRoutines P) (outer : Option ScopeId) (name : String) {v : Value}
    (hv : v.AllRoutines P) : (st.addScope outer [(name, v)]).AllRoutines P := by
  refine h.addScope outer fun word w hw => ?_
  obtain ⟨-, rfl⟩ : name = word ∧ v = w := by simpa [Bindings.get?] using hw
  exact hv

theorem define (h : st.AllRoutines P) (scope : ScopeId) (name : String) {v : Value}
    (hv : v.AllRoutines P) : (st.define scope name v).AllRoutines P := by
  refine ⟨fun {s word w} hw => ?_, fun hw => h.field hw⟩
  rw [lookup?_define] at hw
  split at hw
  · cases hw
    exact hv
  · exact h.lookup hw

theorem setField (h : st.AllRoutines P) (id : ObjectId) (name : String) {v : Value}
    (hv : v.AllRoutines P) : (st.setField id name v).AllRoutines P := by
  refine ⟨fun hw => h.lookup hw, fun {i word w} hw => ?_⟩
  rw [field?_setField] at hw
  split at hw
  · cases hw
    exact hv
  · exact h.field hw

theorem addObject (h : st.AllRoutines P) : st.addObject.AllRoutines P := by
  refine ⟨fun hw => h.lookup hw, fun hw => ?_⟩
  rw [field?_addObject] at hw
  exact h.field hw

theorem takeIdentity (h : st.AllRoutines P) : st.takeIdentity.AllRoutines P :=
  ⟨fun hw => h.lookup hw, fun hw => h.field hw⟩

end Store.AllRoutines

namespace Machine

theorem allRoutines_declareClass {s : State} (h : s.store.AllRoutines P) (name : Name)
    (parent : Option Class) (hp : ∀ c ∈ parent, c.AllRoutines P) {methods : List Routine}
    (hm : ∀ r ∈ methods, P r) : (declareClass name parent methods s).store.AllRoutines P := by
  have htable : ∀ scope, ∀ entry ∈ methodTable methods scope, P entry.2.routine := by
    intro scope entry he
    obtain ⟨r, hr, heq⟩ := mem_methodTable he
    rw [heq]
    exact hm r hr
  cases parent with
  | none => exact h.takeIdentity.define _ _ (htable s.scope)
  | some c =>
    have hc := hp c rfl
    have hscope := h.addScope_single (some s.scope) Keyword.super.spelling
      (v := .class_ c) hc
    exact hscope.takeIdentity.define _ _ ⟨hc, htable _⟩

end Machine

end LoxLang
