import LoxLang.Proofs.Machine.Effects
import LoxLang.Proofs.Machine.Preservation

/-!
# Where values come from

A machine holds values in its control, in its frames, in scopes and in fields. After a step it holds
what it held before, values without parts, and what the step makes: a function, a class, an object,
or a method bound to an object.

## Main definitions

* `Config.Holds`: the values that a machine holds.
* `Config.Makes`: the value that the next step makes.

## Main results

* `holds_step`: there are no other values after a step.
-/

namespace LoxLang

/-- Neither a function nor a class nor an object. -/
def Value.IsPlain : Value → Prop
  | .function _ _ => False
  | .class_ _ => False
  | .object _ _ => False
  | _ => True

/-- A value in a scope or in a field. -/
inductive Store.Holds (st : Store) (v : Value) : Prop where
  | scope (h : st.lookup? a name = some v)
  | field (h : st.field? object name = some v)

/-- A condition on the methods of a class and of the classes above it, each under its name. -/
def Class.AllMethods (P : String → Closure → Prop) : Class → Prop
  | .mk _ _ none methods => ∀ entry ∈ methods, P entry.1 entry.2
  | .mk _ _ (some parent) methods => parent.AllMethods P ∧ ∀ entry ∈ methods, P entry.1 entry.2

namespace Class.AllMethods

variable {P Q : String → Closure → Prop}

theorem mono (hP : ∀ name m, P name m → Q name m) : ∀ {c : Class}, c.AllMethods P → c.AllMethods Q
  | .mk _ _ none _, h => fun entry he => hP _ _ (h entry he)
  | .mk _ _ (some _) _, h => ⟨h.1.mono hP, fun entry he => hP _ _ (h.2 entry he)⟩

theorem method? {name : String} {m : Closure} :
    ∀ {c : Class}, c.AllMethods P → c.method? name = some m → P name m
  | .mk _ _ none methods, h, hm => h (name, m) (Bindings.mem_of_get? hm)
  | .mk _ _ (some parent) methods, h, hm => by
    rw [Class.method?] at hm
    split at hm
    · next he =>
      cases hm
      exact h.2 (name, m) (Bindings.mem_of_get? he)
    · exact h.1.method? hm

end Class.AllMethods

namespace Machine

/-! ## Values in configurations -/

def CallResult.values : CallResult → List Value
  | .given dropped v => v :: dropped.values
  | _ => []

theorem values_resultOf (closure : Closure) : (resultOf closure).values = [] := by
  unfold resultOf
  split <;> rfl

def Frame.values : Frame → List Value
  | .binaryRight _ _ left => [left]
  | .argument _ called done _ => called :: done
  | .call _ result => result.values
  | _ => []

def Control.values : Control → List Value
  | .value v => [v]
  | .returning v => [v]
  | _ => []

/-- The values in the control and in the frames. -/
def Config.values (c : Config) : List Value := c.control.values ++ c.frames.flatMap Frame.values

/-- The values that a machine holds. -/
def Config.Holds (c : Config) (v : Value) : Prop := v ∈ c.values ∨ c.state.store.Holds v

/-- The value that the next step makes. -/
inductive Config.Makes : Config → Value → Prop where
  | function : Makes ⟨.exec (.function routine), k, s⟩
      (.function s.store.nextIdentity ⟨routine, s.scope, false⟩)
  | class_ : Makes ⟨.exec (.class_ name none methods), k, s⟩
      (.class_ (.mk s.store.nextIdentity name.text none (methodTable methods s.scope)))
  | derived : Makes ⟨.value (.class_ parent), .superclass name line methods :: k, s⟩
      (.class_ (.mk s.store.nextIdentity name.text (some parent)
        (methodTable methods s.store.nextScope)))
  | method {c : Config} (h : c.Binds m receiver) :
      Makes c (.function c.state.store.nextIdentity { m with scope := c.state.store.nextScope })
  | object {c : Config} (h : c.Constructs own args k) :
      Makes c (.object c.state.store.nextObject own)

/-- The values that a machine may hold after the next step. -/
def Config.Yields (c : Config) (v : Value) : Prop := c.Holds v ∨ v.IsPlain ∨ c.Makes v

section Holds

variable {k : List Frame} {s : State} {c : Config} {v w : Value}

@[simp] theorem mem_values_give :
    v ∈ (give w k s).values ↔ v = w ∨ v ∈ k.flatMap Frame.values := by
  simp [give, Config.values, Control.values]

@[simp] theorem mem_values_raise {e : RuntimeError} {line : Nat} :
    v ∈ (raise e line k s).values ↔ v ∈ k.flatMap Frame.values := by
  simp [raise, Config.values, Control.values]

theorem mem_values_sequence {body : List Stmt} (h : v ∈ (sequence body k s).values) :
    v.IsPlain ∨ v ∈ k.flatMap Frame.values := by
  cases body with
  | nil =>
    rcases mem_values_give.mp h with rfl | h
    · exact .inl trivial
    · exact .inr h
  | cons first rest => exact .inr h

/-- What the frames hold is held. -/
theorem Config.Holds.frames (h : v ∈ c.frames.flatMap Frame.values) : c.Holds v :=
  .inl (List.mem_append_right _ h)

theorem Config.Holds.control (h : v ∈ c.control.values) : c.Holds v :=
  .inl (List.mem_append_left _ h)

theorem Config.Holds.pop {control : Control} {f : Frame} (h : v ∈ k.flatMap Frame.values) :
    Config.Holds ⟨control, f :: k, s⟩ v :=
  .frames (List.mem_append_right _ h)

theorem Config.Holds.top {control : Control} {f : Frame} (h : v ∈ f.values) :
    Config.Holds ⟨control, f :: k, s⟩ v :=
  .frames (List.mem_append_left _ h)

/-- The arguments of a call and what it calls are held. -/
theorem Config.Calls.holds {callee : Value} {args : List Value} {line : Nat}
    (h : c.Calls callee args line k) :
    c.Holds callee ∧ (∀ v ∈ args, c.Holds v) ∧ ∀ v ∈ k.flatMap Frame.values, c.Holds v := by
  cases h with
  | bare => exact ⟨.control List.mem_cons_self, nofun, fun v hv => .pop hv⟩
  | given =>
    refine ⟨.top List.mem_cons_self, fun v hv => ?_, fun v hv => .pop hv⟩
    rcases List.mem_cons.mp (List.mem_reverse.mp hv) with rfl | hv
    · exact .control List.mem_cons_self
    · exact .top (List.mem_cons_of_mem _ hv)

theorem Config.Constructs.holds {own : Class} {args : List Value} (h : c.Constructs own args k) :
    c.Holds (.class_ own) ∧ (∀ v ∈ args, c.Holds v) ∧ ∀ v ∈ k.flatMap Frame.values, c.Holds v := by
  obtain ⟨line, hc⟩ := h.calls
  exact hc.holds

/-- The object that a method is bound to is held. -/
theorem Config.Binds.holds {m : Closure} (h : c.Binds m w) : c.Holds w := by
  cases h with
  | property hf hm => exact .control List.mem_cons_self
  | super hd hs hm =>
    obtain ⟨d, id, own, -, -, hthis, rfl⟩ := superAndThis_eq_ok.mp hs
    obtain ⟨owner, -, hl⟩ := Store.getAt_eq_ok.mp hthis
    exact .inr (.scope hl)

end Holds

/-! ## Values in the store -/

section Stores

variable {st : Store} {c : Config} {v w : Value}

theorem holds_define {a : ScopeId} {name : String} (h : (st.define a name w).Holds v) :
    v = w ∨ st.Holds v := by
  cases h with
  | scope h =>
    rw [Store.lookup?_define] at h
    split at h
    · exact .inl (Option.some.inj h).symm
    · exact .inr (.scope h)
  | field h => exact .inr (.field h)

theorem holds_addScope {outer : Option ScopeId} {b : Bindings Value}
    (h : (st.addScope outer b).Holds v) : (∃ name, b.get? name = some v) ∨ st.Holds v := by
  cases h with
  | scope h =>
    rw [Store.lookup?_addScope] at h
    split at h
    · exact .inl ⟨_, h⟩
    · exact .inr (.scope h)
  | field h => exact .inr (.field h)

theorem holds_setField {object : ObjectId} {name : String} (h : (st.setField object name w).Holds v) :
    v = w ∨ st.Holds v := by
  cases h with
  | scope h => exact .inr (.scope h)
  | field h =>
    rw [Store.field?_setField] at h
    split at h
    · exact .inl (Option.some.inj h).symm
    · exact .inr (.field h)

theorem holds_addObject (h : st.addObject.Holds v) : st.Holds v := by
  cases h with
  | scope h => exact .scope h
  | field h =>
    rw [Store.field?_addObject] at h
    exact .field h

theorem holds_takeIdentity (h : st.takeIdentity.Holds v) : st.Holds v := by
  cases h with
  | scope h => exact .scope h
  | field h => exact .field h

theorem eq_of_get?_singleton {name word : String} (h : Bindings.get? word [(name, w)] = some v) :
    v = w := by
  rw [Bindings.get?_singleton] at h
  split at h
  · exact (Option.some.inj h).symm
  · cases h

/-- What the store holds after a step. -/
theorem Config.Effect.holds (h : c.Effect st) (hv : st.Holds v) : c.Yields v := by
  cases h with
  | idle => exact .inl (.inr hv)
  | «variable» =>
    rcases holds_define hv with rfl | hv
    · exact .inr (.inl trivial)
    · exact .inl (.inr hv)
  | initialized =>
    rcases holds_define hv with rfl | hv
    · exact .inl (.control List.mem_cons_self)
    · exact .inl (.inr hv)
  | function =>
    rcases holds_define hv with rfl | hv
    · exact .inr (.inr .function)
    · exact .inl (.inr (holds_takeIdentity hv))
  | class_ =>
    rcases holds_define hv with rfl | hv
    · exact .inr (.inr .class_)
    · exact .inl (.inr (holds_takeIdentity hv))
  | derived =>
    rcases holds_define hv with rfl | hv
    · exact .inr (.inr .derived)
    · rcases holds_addScope (holds_takeIdentity hv) with ⟨name, hv⟩ | hv
      · rw [eq_of_get?_singleton hv]
        exact .inl (.control List.mem_cons_self)
      · exact .inl (.inr hv)
  | assign h =>
    rcases holds_define hv with rfl | hv
    · exact .inl (.control List.mem_cons_self)
    · exact .inl (.inr hv)
  | setField =>
    rcases holds_setField hv with rfl | hv
    · exact .inl (.control List.mem_cons_self)
    · exact .inl (.inr hv)
  | block =>
    rcases holds_addScope hv with ⟨name, hv⟩ | hv
    · cases hv
    · exact .inl (.inr hv)
  | method h =>
    rcases holds_addScope (holds_takeIdentity hv) with ⟨name, hv⟩ | hv
    · rw [eq_of_get?_singleton hv]
      exact .inl h.holds
    · exact .inl (.inr hv)
  | call h =>
    rcases holds_addScope hv with ⟨name, hv⟩ | hv
    · exact .inl (h.holds.2.1 v (mem_of_get?_bindParams hv).2)
    · exact .inl (.inr hv)
  | object h => exact .inl (.inr (holds_addObject hv))
  | initializer h hm =>
    rcases holds_addScope hv with ⟨name, hv⟩ | hv
    · exact .inl (h.holds.2.1 v (mem_of_get?_bindParams hv).2)
    · rcases holds_addScope hv with ⟨name, hv⟩ | hv
      · rw [eq_of_get?_singleton hv]
        exact .inr (.inr (.object h))
      · exact .inl (.inr (holds_addObject hv))

end Stores

/-! ## Values in the control and in the frames -/

section Steps

variable {k : List Frame} {s : State} {c : Config} {v w : Value}

theorem mem_values_readName {site : Site} {name : String} {line : Nat}
    (h : v ∈ (readName site name line k s).values) :
    v ∈ k.flatMap Frame.values ∨ s.store.Holds v := by
  unfold readName at h
  split at h
  · split at h
    · next w hw =>
      obtain ⟨owner, -, hl⟩ := Store.getAt_eq_ok.mp hw
      rcases mem_values_give.mp h with rfl | h
      · exact .inr (.scope hl)
      · exact .inl h
    · exact .inl h
  · unfold giveOrRaise at h
    split at h
    · next w hw =>
      obtain ⟨owner, hl⟩ := Store.lookup?_of_get hw
      rcases mem_values_give.mp h with rfl | h
      · exact .inr (.scope hl)
      · exact .inl h
    · exact .inl h

theorem mem_values_writeName {site : Site} {name : Name}
    (h : v ∈ (writeName site name w k s).values) : v = w ∨ v ∈ k.flatMap Frame.values := by
  unfold writeName at h
  repeat' split at h
  all_goals first | exact mem_values_give.mp h | exact .inr h

/-- A method that is bound is all that is new. -/
theorem mem_values_giveMethod {m : Closure} (hb : c.Binds m w)
    (h : v ∈ (giveMethod m w k c.state).values) : v ∈ k.flatMap Frame.values ∨ c.Makes v := by
  rcases mem_values_give.mp h with rfl | h
  · exact .inr (.method hb)
  · exact .inl h

theorem yields_getProperty {name : Name} (h : v ∈ (getProperty w name k s).values) :
    Config.Yields ⟨.value w, .get name :: k, s⟩ v := by
  unfold getProperty at h
  split at h
  · split at h
    · next field hf =>
      rcases mem_values_give.mp h with rfl | h
      · exact .inl (.inr (.field hf))
      · exact .inl (.pop h)
    · next hf =>
      split at h
      · next m hm =>
        rcases mem_values_giveMethod (.property hf hm) h with h | h
        · exact .inl (.pop h)
        · exact .inr (.inr h)
      · exact .inl (.pop h)
  · exact .inl (.pop h)

theorem yields_getSuper {site : Site} {line : Nat} {method : Name}
    (h : v ∈ (getSuper site line method k s).values) :
    Config.Yields ⟨.eval (.super site line method), k, s⟩ v := by
  unfold getSuper at h
  split at h
  · exact .inl (.frames h)
  · next hops hd =>
    split at h
    · exact .inl (.frames h)
    · next parent receiver hs =>
      split at h
      · next m hm =>
        rcases mem_values_giveMethod (.super hd hs hm) h with h | h
        · exact .inl (.frames h)
        · exact .inr (.inr h)
      · exact .inl (.frames h)

theorem mem_values_enter {f : Closure} {args : List Value} {result : CallResult}
    (h : v ∈ (enter f args result k s).values) :
    v.IsPlain ∨ v ∈ result.values ∨ v ∈ k.flatMap Frame.values := by
  rcases mem_values_sequence h with h | h
  · exact .inl h
  · exact .inr (List.mem_append.mp h)

theorem Config.Constructs.yields {own : Class} {args : List Value} (hc : c.Constructs own args k)
    (h : v ∈ (construct own args k c.state).values) : c.Yields v := by
  have hk : v ∈ k.flatMap Frame.values → c.Yields v := fun h => .inl (hc.holds.2.2 v h)
  unfold construct at h
  split at h
  · rcases mem_values_give.mp h with rfl | h
    · exact .inr (.inr (.object hc))
    · exact hk h
  · rcases mem_values_enter h with h | h | h
    · exact .inr (.inl h)
    · rw [CallResult.values, values_resultOf] at h
      obtain rfl := List.mem_singleton.mp h
      exact .inr (.inr (.object hc))
    · exact hk h

theorem yields_callValue {callee : Value} {args : List Value} {line : Nat}
    (hc : c.Calls callee args line k) (h : v ∈ (callValue callee args line k c.state).values) :
    c.Yields v := by
  have hk : v ∈ k.flatMap Frame.values → c.Yields v := fun h => .inl (hc.holds.2.2 v h)
  obtain ⟨e, he⟩ | ⟨-, he⟩ | ⟨i, f, rfl, he⟩ | ⟨own, rfl, he⟩ :=
    callValue_cases callee args line k c.state
  · rw [he] at h
    exact hk h
  · rw [he] at h
    rcases mem_values_give.mp h with rfl | h
    · exact .inr (.inl trivial)
    · exact hk h
  · rw [he] at h
    rcases mem_values_enter h with h | h | h
    · exact .inr (.inl h)
    · rw [values_resultOf] at h
      cases h
    · exact hk h
  · rw [he] at h
    exact Config.Constructs.yields ⟨⟨line, hc⟩, hc.step_eq.trans he⟩ h

theorem mem_values_finishCall {result : CallResult}
    (h : v ∈ (finishCall result w k s).values) :
    v = w ∨ v ∈ result.values ∨ v ∈ k.flatMap Frame.values ∨ s.store.Holds v := by
  unfold finishCall at h
  split at h
  · next u hu =>
    rcases mem_values_give.mp h with rfl | h
    · obtain rfl | ⟨scope, hat⟩ | ⟨dropped, rfl⟩ := CallResult.cases_of_value_eq_ok hu
      · exact .inl rfl
      · obtain ⟨owner, -, hl⟩ := Store.getAt_eq_ok.mp hat
        exact .inr (.inr (.inr (.scope hl)))
      · exact .inr (.inl List.mem_cons_self)
    · exact .inr (.inr (.inl h))
  · exact .inr (.inr (.inl h))

/-- A call that ends gives a value that was held. -/
theorem yields_finishCall {control : Control} {outer : ScopeId} {result : CallResult}
    (hw : w.IsPlain ∨ w ∈ control.values)
    (h : v ∈ (finishCall result w k (leaveCall outer s)).values) :
    Config.Yields ⟨control, .call outer result :: k, s⟩ v := by
  rcases mem_values_finishCall h with rfl | h | h | h
  · rcases hw with hw | hw
    · exact .inr (.inl hw)
    · exact .inl (.control hw)
  · exact .inl (.top h)
  · exact .inl (.pop h)
  · exact .inl (.inr h)

theorem Literal.isPlain_value (l : Literal) : l.value.IsPlain := by
  cases l <;> trivial

theorem yields_evalStep {e : Expr} (h : v ∈ (evalStep e k s).values) :
    Config.Yields ⟨.eval e, k, s⟩ v := by
  cases e with
  | literal l =>
    rcases mem_values_give.mp h with rfl | h
    · exact .inr (.inl (Literal.isPlain_value l))
    · exact .inl (.frames h)
  | «variable» site name => exact .inl ((mem_values_readName h).imp_left (List.mem_append_right _))
  | this site line => exact .inl ((mem_values_readName h).imp_left (List.mem_append_right _))
  | super site line method => exact yields_getSuper h
  | _ => exact .inl (.frames h)

theorem yields_execStep {stmt : Stmt} (h : v ∈ (execStep stmt k s).values) :
    Config.Yields ⟨.exec stmt, k, s⟩ v := by
  have hgive : ∀ s', v ∈ (give .nil k s').values → Config.Yields ⟨.exec stmt, k, s⟩ v := by
    intro s' h
    rcases mem_values_give.mp h with rfl | h
    · exact .inr (.inl trivial)
    · exact .inl (.frames h)
  cases stmt with
  | var name init =>
    cases init with
    | none => exact hgive _ h
    | some e => exact .inl (.frames h)
  | block body =>
    rcases mem_values_sequence h with h | h
    · exact .inr (.inl h)
    · exact .inl (.frames h)
  | function routine => exact hgive _ h
  | return_ line value =>
    cases value with
    | none => exact hgive s h
    | some e => exact .inl (.frames h)
  | class_ name parent methods =>
    cases parent with
    | none => exact hgive _ h
    | some parent => exact .inl (.frames h)
  | _ => exact .inl (.frames h)

theorem isPlain_unaryApply {op : UnaryOp} (h : op.apply w = .ok v) : v.IsPlain := by
  cases op with
  | negate =>
    cases w <;> cases h
    trivial
  | not =>
    cases h
    trivial

theorem isPlain_binaryApply {op : BinaryOp} {left right : Value}
    (h : op.apply left right = .ok v) : v.IsPlain := by
  cases op <;> simp only [BinaryOp.apply, Value.add, Value.onNumbers] at h
  all_goals first
    | (cases h; trivial)
    | (split at h <;> cases h <;> trivial)

theorem yields_resume {f : Frame} (h : v ∈ (resume w f k s).values) :
    Config.Yields ⟨.value w, f :: k, s⟩ v := by
  have hk : v ∈ k.flatMap Frame.values → Config.Yields ⟨.value w, f :: k, s⟩ v :=
    fun h => .inl (.pop h)
  have hw : v = w → Config.Yields ⟨.value w, f :: k, s⟩ v :=
    fun h => .inl (.control (h ▸ List.mem_cons_self))
  have hgive : ∀ u s', u.IsPlain → v ∈ (give u k s').values →
      Config.Yields ⟨.value w, f :: k, s⟩ v := by
    intro u s' hu h
    rcases mem_values_give.mp h with rfl | h
    · exact .inr (.inl hu)
    · exact hk h
  cases f with
  | unary op line =>
    unfold resume giveOrRaise at h
    dsimp only at h
    split at h
    · next u hu => exact hgive u s (isPlain_unaryApply hu) h
    · exact hk h
  | binaryRight op line left =>
    unfold resume giveOrRaise at h
    dsimp only at h
    split at h
    · next u hu => exact hgive u s (isPlain_binaryApply hu) h
    · exact hk h
  | binaryLeft op line right =>
    rcases List.mem_cons.mp h with rfl | h
    · exact hw rfl
    · exact hk h
  | logical op right =>
    unfold resume at h
    dsimp only at h
    split at h
    · rcases mem_values_give.mp h with rfl | h
      · exact hw rfl
      · exact hk h
    · exact hk h
  | assign site name =>
    rcases mem_values_writeName h with rfl | h
    · exact hw rfl
    · exact hk h
  | callee line args =>
    cases args with
    | nil => exact yields_callValue .bare h
    | cons e es =>
      rcases List.mem_cons.mp h with rfl | h
      · exact hw rfl
      · exact hk h
  | argument line called done rest =>
    cases rest with
    | nil => exact yields_callValue .given h
    | cons e es =>
      rcases List.mem_append.mp h with h | h
      · cases h
      · rcases List.mem_append.mp h with h | h
        · rcases List.mem_cons.mp h with rfl | h
          · exact .inl (.top List.mem_cons_self)
          · rcases List.mem_cons.mp h with rfl | h
            · exact hw rfl
            · exact .inl (.top (List.mem_cons_of_mem _ h))
        · exact hk h
  | get name => exact yields_getProperty h
  | setObject name value =>
    cases w with
    | object i own => exact hk h
    | _ => exact hk h
  | setValue name object =>
    rcases mem_values_give.mp h with rfl | h
    · exact hw rfl
    · exact hk h
  | print =>
    unfold resume at h
    dsimp only at h
    split at h
    · exact hgive .nil _ trivial h
    · exact hk h
  | var name => exact hgive .nil _ trivial h
  | if_ then_ else_ =>
    unfold resume at h
    dsimp only at h
    split at h
    · exact hk h
    · split at h
      · exact hk h
      · exact hgive .nil _ trivial h
  | whileCondition condition body =>
    unfold resume at h
    dsimp only at h
    split at h
    · exact hk h
    · exact hgive .nil _ trivial h
  | whileBody condition body => exact hk h
  | superclass name line methods =>
    cases w with
    | class_ parent => exact hgive .nil _ trivial h
    | _ => exact hk h
  | return_ =>
    rcases List.mem_cons.mp h with rfl | h
    · exact hw rfl
    · exact hk h
  | sequence rest =>
    rcases mem_values_sequence h with h | h
    · exact .inr (.inl h)
    · exact hk h
  | block outer => exact hgive .nil _ trivial h
  | call outer result => exact yields_finishCall (w := .nil) (.inl trivial) h
  | program rest =>
    cases rest with
    | nil => exact hgive .nil _ trivial h
    | cons stmt rest => exact hk h

theorem yields_of_mem_values (h : v ∈ (step c).values) : c.Yields v := by
  obtain ⟨control, frames, s⟩ := c
  cases control with
  | eval e => exact yields_evalStep h
  | exec stmt => exact yields_execStep h
  | value w =>
    cases frames with
    | nil => exact .inl (.inl h)
    | cons f k => exact yields_resume h
  | returning w =>
    cases frames with
    | nil => exact .inl (.inl h)
    | cons f k =>
      have hleave : v ∈ w :: k.flatMap Frame.values →
          Config.Yields ⟨.returning w, f :: k, s⟩ v := by
        intro h
        rcases List.mem_cons.mp h with rfl | h
        · exact .inl (.control List.mem_cons_self)
        · exact .inl (.pop h)
      cases f with
      | call outer result => exact yields_finishCall (.inr List.mem_cons_self) h
      | program rest =>
        rcases List.mem_cons.mp h with rfl | h
        · exact .inr (.inl trivial)
        · exact .inl (.pop h)
      | _ => exact hleave h
  | failing e =>
    cases frames with
    | nil => exact .inl (.inl h)
    | cons f k => cases f <;> exact .inl (.pop h)

end Steps

/-- After a step the machine holds what it held before, plain values, and what the step makes. -/
theorem holds_step {c : Config} {v : Value} (h : (step c).Holds v) :
    c.Holds v ∨ v.IsPlain ∨ c.Makes v := by
  rcases h with h | h
  · exact yields_of_mem_values h
  · exact (effect_step c).holds h

end Machine

end LoxLang
