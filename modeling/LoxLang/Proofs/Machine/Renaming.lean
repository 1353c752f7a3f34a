import LoxLang.Machine.Run
import LoxLang.Proofs.Machine.Table
import LoxLang.Proofs.Program.Renaming

/-!
# Renaming a running machine

The machine looks at sites only to ask its table for them, and at lines only to put them into
errors. So when the code that it holds is renamed and the table with it, it does the same as before.

## Main definitions

* `Value.rename`, `Store.rename`, `Machine.Config.rename`: all code in it is renamed.

## Main results

* `Machine.step_rename`, `Machine.run_rename`: a renamed machine runs like the machine itself.
-/

namespace LoxLang

/-! ## Values -/

/-- Changes the values and keeps the names. -/
def Bindings.mapValues {α β : Type} (φ : α → β) (b : Bindings α) : Bindings β :=
  b.map fun entry => (entry.1, φ entry.2)

namespace Bindings

variable {α β : Type} (φ : α → β)

@[simp] theorem get?_mapValues (name : String) (b : Bindings α) :
    (b.mapValues φ).get? name = (b.get? name).map φ := by
  induction b with
  | nil => rfl
  | cons entry b ih =>
    simp only [mapValues, List.map_cons, get?] at ih ⊢
    split
    · rfl
    · exact ih

@[simp] theorem mapValues_put (name : String) (a : α) (b : Bindings α) :
    (b.put name a).mapValues φ = (b.mapValues φ).put name (φ a) := by
  induction b with
  | nil => rfl
  | cons entry b ih =>
    simp only [mapValues, List.map_cons, put] at ih ⊢
    split
    · rfl
    · rw [List.map_cons, ih]

end Bindings

def Closure.rename (f : Renaming) (c : Closure) : Closure :=
  { c with routine := c.routine.rename f }

def Class.rename (f : Renaming) : Class → Class
  | .mk identity name none methods => .mk identity name none (methods.mapValues (·.rename f))
  | .mk identity name (some parent) methods =>
    .mk identity name (some (parent.rename f)) (methods.mapValues (·.rename f))

def Value.rename (f : Renaming) : Value → Value
  | .function identity closure => .function identity (closure.rename f)
  | .class_ c => .class_ (c.rename f)
  | .object id c => .object id (c.rename f)
  | v => v

section Values

variable (f : Renaming)

@[simp] theorem Class.mk_rename (identity : Nat) (name : String) (parent : Option Class)
    (methods : Bindings Closure) : (Class.mk identity name parent methods).rename f =
      .mk identity name (parent.map (·.rename f)) (methods.mapValues (·.rename f)) := by
  cases parent <;> rfl

@[simp] theorem Class.identity_rename (c : Class) : (c.rename f).identity = c.identity := by
  obtain ⟨identity, name, parent, methods⟩ := c
  rw [Class.mk_rename]
  rfl

@[simp] theorem Class.name_rename (c : Class) : (c.rename f).name = c.name := by
  obtain ⟨identity, name, parent, methods⟩ := c
  rw [Class.mk_rename]
  rfl

@[simp] theorem Class.method?_rename (name : String) :
    ∀ c : Class, (c.rename f).method? name = (c.method? name).map (·.rename f)
  | .mk _ _ none methods => by simp [Class.method?]
  | .mk _ _ (some parent) methods => by
    simp only [Class.mk_rename, Option.map_some, Class.method?, Bindings.get?_mapValues]
    cases methods.get? name with
    | none => exact Class.method?_rename name parent
    | some m => rfl

@[simp] theorem Value.isTruthy_rename (v : Value) : (v.rename f).isTruthy = v.isTruthy := by
  cases v <;> rfl

@[simp] theorem Value.text_rename (v : Value) : (v.rename f).text = v.text := by
  cases v <;> simp [Value.rename, Value.text, Closure.rename]

@[simp] theorem Value.equals_rename (v w : Value) :
    (v.rename f).equals (w.rename f) = v.equals w := by
  cases v <;> cases w <;> simp [Value.rename, Value.equals]

@[simp] theorem Literal.value_rename (l : Literal) : l.value.rename f = l.value := by
  cases l <;> rfl

/-! ### Renaming twice and renaming nothing -/

theorem Bindings.mapValues_mapValues {α β γ : Type} (φ : α → β) (ψ : β → γ) (b : Bindings α) :
    (b.mapValues φ).mapValues ψ = b.mapValues (ψ ∘ φ) := by
  simp [Bindings.mapValues]

theorem Bindings.mapValues_eq_self {α : Type} {φ : α → α} (h : ∀ a, φ a = a) (b : Bindings α) :
    b.mapValues φ = b := by
  simp [Bindings.mapValues, h]

theorem Closure.rename_rename (g : Renaming) (c : Closure) :
    (c.rename f).rename g = c.rename (f.andThen g) := by
  simp [Closure.rename, Routine.rename_rename]

theorem Closure.rename_id (c : Closure) : c.rename .id = c := by
  simp [Closure.rename, Routine.rename_id]

theorem Class.rename_rename (g : Renaming) :
    ∀ c : Class, (c.rename f).rename g = c.rename (f.andThen g)
  | .mk _ _ none _ => by
    simp only [Class.rename, Bindings.mapValues_mapValues]
    congr 1
    exact congrArg (Bindings.mapValues · _) (funext fun m => Closure.rename_rename f g m)
  | .mk _ _ (some parent) _ => by
    simp only [Class.rename, Bindings.mapValues_mapValues, Class.rename_rename g parent]
    congr 1
    exact congrArg (Bindings.mapValues · _) (funext fun m => Closure.rename_rename f g m)

theorem Class.rename_id : ∀ c : Class, c.rename .id = c
  | .mk _ _ none _ => by
    rw [Class.rename, Bindings.mapValues_eq_self Closure.rename_id]
  | .mk _ _ (some parent) _ => by
    rw [Class.rename, Bindings.mapValues_eq_self Closure.rename_id, Class.rename_id parent]

theorem Value.rename_rename (g : Renaming) (v : Value) :
    (v.rename f).rename g = v.rename (f.andThen g) := by
  cases v <;> simp [Value.rename, Closure.rename_rename, Class.rename_rename]

theorem Value.rename_id (v : Value) : v.rename .id = v := by
  cases v <;> simp [Value.rename, Closure.rename_id, Class.rename_id]

/-! ## Stores -/

theorem map_modify {α β : Type} (φ : α → β) {h : α → α} {h' : β → β}
    (hc : ∀ a, φ (h a) = h' (φ a)) (as : Array α) (i : Nat) :
    (as.modify i h).map φ = (as.map φ).modify i h' := by
  refine Array.ext_getElem? fun j => ?_
  simp only [Array.getElem?_map, Array.getElem?_modify]
  split
  · cases as[j]? <;> simp [hc]
  · rfl

def Scope.rename (s : Scope) : Scope := { s with bindings := s.bindings.mapValues (·.rename f) }

def Store.rename (st : Store) : Store :=
  { st with
    scopes := st.scopes.map (·.rename f)
    objects := st.objects.map fun fields => fields.mapValues (·.rename f) }

namespace Store

variable (st : Store)

@[simp] theorem nextScope_rename : (st.rename f).nextScope = st.nextScope := by
  simp [nextScope, rename]

@[simp] theorem nextObject_rename : (st.rename f).nextObject = st.nextObject := by
  simp [nextObject, rename]

@[simp] theorem nextIdentity_rename : (st.rename f).nextIdentity = st.nextIdentity := rfl

@[simp] theorem lookup?_rename (scope : ScopeId) (name : String) :
    (st.rename f).lookup? scope name = (st.lookup? scope name).map (·.rename f) := by
  simp only [lookup?, rename, Array.getElem?_map]
  cases st.scopes[scope]? <;> simp [Scope.rename]

@[simp] theorem enclosing?_rename (scope : ScopeId) :
    (st.rename f).enclosing? scope = st.enclosing? scope := by
  simp only [enclosing?, rename, Array.getElem?_map]
  cases st.scopes[scope]? <;> rfl

@[simp] theorem ancestor?_rename (scope : ScopeId) (d : Nat) :
    (st.rename f).ancestor? scope d = st.ancestor? scope d := by
  induction d generalizing scope with
  | zero => rfl
  | succ d ih => simp [ancestor?, ih]

@[simp] theorem field?_rename (object : ObjectId) (name : String) :
    (st.rename f).field? object name = (st.field? object name).map (·.rename f) := by
  simp only [field?, rename, Array.getElem?_map]
  cases st.objects[object]? <;> simp

@[simp] theorem rename_addScope (outer : Option ScopeId) (b : Bindings Value) :
    (st.addScope outer b).rename f = (st.rename f).addScope outer (b.mapValues (·.rename f)) := by
  simp [addScope, rename, Scope.rename]

@[simp] theorem rename_define (scope : ScopeId) (name : String) (v : Value) :
    (st.define scope name v).rename f = (st.rename f).define scope name (v.rename f) := by
  simp only [define, rename, Store.mk.injEq, and_true]
  exact map_modify _ (fun sc => by simp [Scope.rename]) st.scopes scope

@[simp] theorem rename_addObject : st.addObject.rename f = (st.rename f).addObject := by
  simp [addObject, rename, Bindings.mapValues]

@[simp] theorem rename_setField (object : ObjectId) (name : String) (v : Value) :
    (st.setField object name v).rename f = (st.rename f).setField object name (v.rename f) := by
  simp only [setField, rename, Store.mk.injEq, and_true, true_and]
  exact map_modify _ (fun fields => by simp) st.objects object

@[simp] theorem rename_takeIdentity : st.takeIdentity.rename f = (st.rename f).takeIdentity := rfl

theorem ownerWithin?_rename (name : String) (n : Nat) (scope : ScopeId) :
    (st.rename f).ownerWithin? name n scope = st.ownerWithin? name n scope := by
  induction n generalizing scope with
  | zero => rfl
  | succ n ih =>
    simp only [ownerWithin?, lookup?_rename, enclosing?_rename, ih]
    cases st.lookup? scope name <;> rfl

@[simp] theorem owner?_rename (scope : ScopeId) (name : String) :
    (st.rename f).owner? scope name = st.owner? scope name := by
  rw [owner?, ownerWithin?_rename, owner?]
  simp [rename]

@[simp] theorem get_rename (scope : ScopeId) (name : String) :
    (st.rename f).get scope name = (st.get scope name).map (·.rename f) := by
  simp only [get, owner?_rename, lookup?_rename]
  cases st.owner? scope name with
  | none => rfl
  | some owner => cases h : st.lookup? owner name <;> simp [h, Except.map]

@[simp] theorem assign_rename (scope : ScopeId) (name : String) (v : Value) :
    (st.rename f).assign scope name (v.rename f) = (st.assign scope name v).map (·.rename f) := by
  simp only [assign, owner?_rename]
  cases st.owner? scope name <;> simp [Except.map]

@[simp] theorem getAt_rename (scope : ScopeId) (d : Nat) (name : String) :
    (st.rename f).getAt scope d name = (st.getAt scope d name).map (·.rename f) := by
  simp only [getAt, ancestor?_rename]
  cases st.ancestor? scope d with
  | none => rfl
  | some owner => cases h : st.lookup? owner name <;> simp [h, Except.map]

@[simp] theorem assignAt_rename (scope : ScopeId) (d : Nat) (name : String) (v : Value) :
    (st.rename f).assignAt scope d name (v.rename f) =
      (st.assignAt scope d name v).map (·.rename f) := by
  simp only [assignAt, ancestor?_rename]
  cases st.ancestor? scope d <;> simp [Except.map]

theorem rename_rename (g : Renaming) : (st.rename f).rename g = st.rename (f.andThen g) := by
  have hvalues : ∀ b : Bindings Value, (b.mapValues (·.rename f)).mapValues (·.rename g) =
      b.mapValues (·.rename (f.andThen g)) := fun b => by
    rw [Bindings.mapValues_mapValues]
    exact congrArg (Bindings.mapValues · b) (funext fun v => Value.rename_rename f g v)
  simp [rename, Scope.rename, Function.comp_def, hvalues]

theorem rename_id : st.rename .id = st := by
  have hvalues : ∀ b : Bindings Value, b.mapValues (·.rename .id) = b :=
    Bindings.mapValues_eq_self Value.rename_id
  simp [rename, Scope.rename, hvalues]

end Store

end Values

def Failure.rename (f : Renaming) : Failure → Failure
  | .error e line => .error e (f.line line)
  | e => e

namespace Machine

/-! ## Configurations -/

def CallResult.rename (f : Renaming) : CallResult → CallResult
  | .given dropped v => .given (dropped.rename f) (v.rename f)
  | r => r

def Frame.rename (f : Renaming) : Frame → Frame
  | .unary op line => .unary op (f.line line)
  | .binaryLeft op line right => .binaryLeft op (f.line line) (right.rename f)
  | .binaryRight op line left => .binaryRight op (f.line line) (left.rename f)
  | .logical op right => .logical op (right.rename f)
  | .assign site name => .assign (f.site site) (name.rename f)
  | .callee line args => .callee (f.line line) (args.map (·.rename f))
  | .argument line called done rest =>
    .argument (f.line line) (called.rename f) (done.map (·.rename f)) (rest.map (·.rename f))
  | .get name => .get (name.rename f)
  | .setObject name value => .setObject (name.rename f) (value.rename f)
  | .setValue name object => .setValue (name.rename f) object
  | .print => .print
  | .var name => .var (name.rename f)
  | .if_ then_ else_ => .if_ (then_.rename f) (else_.map (·.rename f))
  | .whileCondition condition body => .whileCondition (condition.rename f) (body.rename f)
  | .whileBody condition body => .whileBody (condition.rename f) (body.rename f)
  | .superclass name line methods =>
    .superclass (name.rename f) (f.line line) (methods.map (·.rename f))
  | .return_ => .return_
  | .sequence rest => .sequence (rest.map (·.rename f))
  | .block outer => .block outer
  | .call outer result => .call outer (result.rename f)
  | .program rest => .program (rest.map (·.rename f))

def Control.rename (f : Renaming) : Control → Control
  | .eval e => .eval (e.rename f)
  | .exec s => .exec (s.rename f)
  | .value v => .value (v.rename f)
  | .returning v => .returning (v.rename f)
  | .failing e => .failing (e.rename f)

/-- The code in the store is renamed, and the table is replaced. -/
def State.rename (f : Renaming) (t : BindingTable) (s : State) : State :=
  { s with store := s.store.rename f, table := t }

theorem State.rename_rename (f g : Renaming) (t t' : BindingTable) (s : State) :
    (s.rename f t).rename g t' = s.rename (f.andThen g) t' := by
  simp [State.rename, Store.rename_rename]

theorem State.rename_id (s : State) : s.rename .id s.table = s := by
  simp [State.rename, Store.rename_id]

def Config.rename (f : Renaming) (t : BindingTable) (c : Config) : Config :=
  ⟨c.control.rename f, c.frames.map (·.rename f), c.state.rename f t⟩

/-! ## Steps -/

section Steps

variable {f : Renaming} {t : BindingTable} {k : List Frame} {s : State}

theorem giveOrRaise_rename (r : Except RuntimeError Value) (line : Nat) :
    giveOrRaise (r.map (·.rename f)) (f.line line) (k.map (·.rename f)) (s.rename f t) =
      (giveOrRaise r line k s).rename f t := by
  cases r <;> rfl

theorem sequence_rename (body : List Stmt) :
    sequence (body.map (·.rename f)) (k.map (·.rename f)) (s.rename f t) =
      (sequence body k s).rename f t := by
  cases body <;> rfl

theorem readName_rename {site : Site} (name : String) (line : Nat)
    (ht : t.hops? (f.site site) = s.table.hops? site) :
    readName (f.site site) name (f.line line) (k.map (·.rename f)) (s.rename f t) =
      (readName site name line k s).rename f t := by
  simp only [readName, State.rename, ht, Store.getAt_rename, Store.get_rename]
  cases s.table.hops? site with
  | none => exact giveOrRaise_rename _ _
  | some d =>
    dsimp only
    cases s.store.getAt s.scope d name <;> rfl

theorem writeName_rename {site : Site} (name : Name) (v : Value)
    (ht : t.hops? (f.site site) = s.table.hops? site) :
    writeName (f.site site) (name.rename f) (v.rename f) (k.map (·.rename f)) (s.rename f t) =
      (writeName site name v k s).rename f t := by
  simp only [writeName, State.rename, ht, Name.text_rename, Store.assignAt_rename,
    Store.assign_rename]
  cases s.table.hops? site with
  | none =>
    dsimp only
    cases s.store.assign globalScope name.text v <;> rfl
  | some d =>
    dsimp only
    cases s.store.assignAt s.scope d name.text v <;> rfl

/-! ### Methods and calls -/

theorem bindMethod_rename (m : Closure) (receiver : Value) :
    bindMethod (m.rename f) (receiver.rename f) (s.rename f t) =
      ((bindMethod m receiver s).1.rename f, (bindMethod m receiver s).2.rename f t) := by
  simp [bindMethod, State.rename, Closure.rename, Bindings.mapValues]

theorem giveMethod_rename (m : Closure) (receiver : Value) :
    giveMethod (m.rename f) (receiver.rename f) (k.map (·.rename f)) (s.rename f t) =
      (giveMethod m receiver k s).rename f t := by
  rw [giveMethod, bindMethod_rename]
  rfl

theorem getProperty_rename (v : Value) (name : Name) :
    getProperty (v.rename f) (name.rename f) (k.map (·.rename f)) (s.rename f t) =
      (getProperty v name k s).rename f t := by
  cases v with
  | object id c =>
    have hfield : (s.rename f t).store.field? id name.text =
        (s.store.field? id name.text).map (·.rename f) := Store.field?_rename f s.store id name.text
    simp only [getProperty, Value.rename, Name.text_rename, hfield, Class.method?_rename]
    cases s.store.field? id name.text with
    | some v => rfl
    | none =>
      cases c.method? name.text with
      | none => rfl
      | some m => exact giveMethod_rename m (.object id c)
  | _ => rfl

theorem superAndThis_rename (hops : Nat) :
    superAndThis hops (s.rename f t) =
      (superAndThis hops s).map fun found => (found.1.rename f, found.2.rename f) := by
  have hat : ∀ d name, (s.rename f t).store.getAt (s.rename f t).scope d name =
      (s.store.getAt s.scope d name).map (·.rename f) := Store.getAt_rename f s.store s.scope
  simp only [superAndThis, hat]
  cases s.store.getAt s.scope hops Keyword.super.spelling with
  | error e => rfl
  | ok v =>
    cases v with
    | class_ c =>
      cases hops with
      | zero => rfl
      | succ d =>
        simp only [Except.map, Value.rename, Bind.bind, Except.bind]
        cases s.store.getAt s.scope d Keyword.this.spelling with
        | error e => rfl
        | ok w => cases w <;> rfl
    | _ => rfl

theorem getSuper_rename {site : Site} (line : Nat) (method : Name)
    (ht : t.hops? (f.site site) = s.table.hops? site) :
    getSuper (f.site site) (f.line line) (method.rename f) (k.map (·.rename f)) (s.rename f t) =
      (getSuper site line method k s).rename f t := by
  have htable : (s.rename f t).table = t := rfl
  simp only [getSuper, htable, ht, superAndThis_rename, Name.text_rename]
  cases s.table.hops? site with
  | none => rfl
  | some hops =>
    dsimp only
    cases superAndThis hops s with
    | error e => rfl
    | ok found =>
      simp only [Except.map, Class.method?_rename]
      cases found.1.method? method.text with
      | none => rfl
      | some m => exact giveMethod_rename m found.2

theorem mapValues_bindParams (params : List Name) (args : List Value) :
    bindParams (params.map (·.rename f)) (args.map (·.rename f)) =
      (bindParams params args).mapValues (·.rename f) := by
  have h : ∀ b : Bindings Value,
      ((params.map (·.rename f)).zip (args.map (·.rename f))).foldl
        (fun b pair => b.put pair.1.text pair.2) (b.mapValues (·.rename f)) =
      ((params.zip args).foldl (fun b pair => b.put pair.1.text pair.2) b).mapValues (·.rename f) := by
    induction params generalizing args with
    | nil => exact fun b => rfl
    | cons p ps ih =>
      cases args with
      | nil => exact fun b => rfl
      | cons a as =>
        intro b
        have hput := Bindings.mapValues_put (Value.rename f) p.text a b
        simp only [List.map_cons, List.zip_cons_cons, List.foldl_cons, Name.text_rename, ← hput]
        exact ih as _
  exact h []

theorem enter_rename (closure : Closure) (args : List Value) (result : CallResult) :
    enter (closure.rename f) (args.map (·.rename f)) (result.rename f) (k.map (·.rename f))
        (s.rename f t) =
      (enter closure args result k s).rename f t := by
  simp only [enter, Closure.rename, Routine.params_rename, Routine.body_rename,
    mapValues_bindParams]
  have h := sequence_rename (f := f) (t := t) (k := .call s.scope result :: k)
    (s := { s with
      store := s.store.addScope (some closure.scope) (bindParams closure.routine.params args)
      scope := s.store.nextScope
      depth := s.depth + 1 }) closure.routine.body
  rw [← h]
  simp [State.rename, Frame.rename]

theorem resultOf_rename (closure : Closure) :
    resultOf (closure.rename f) = (resultOf closure).rename f := by
  unfold resultOf
  cases h : closure.isInitializer <;> simp [Closure.rename, CallResult.rename, h]

theorem construct_rename (c : Class) (args : List Value) :
    construct (c.rename f) (args.map (·.rename f)) (k.map (·.rename f)) (s.rename f t) =
      (construct c args k s).rename f t := by
  have hs : { s.rename f t with store := (s.rename f t).store.addObject } =
      State.rename f t { s with store := s.store.addObject } := by
    simp [State.rename]
  have hobject : Value.object (s.rename f t).store.nextObject (c.rename f) =
      (Value.object s.store.nextObject c).rename f := by
    simp [State.rename, Value.rename]
  simp only [construct, hs, hobject, Class.method?_rename]
  cases c.method? Routine.initName with
  | none => rfl
  | some m =>
    simp only [Option.map_some, bindMethod_rename, resultOf_rename]
    exact enter_rename _ args (.given _ (.object s.store.nextObject c))

theorem arity?_rename (v : Value) : arity? (v.rename f) = arity? v := by
  cases v with
  | function i closure => simp [arity?, Value.rename, Closure.rename]
  | class_ c =>
    simp only [arity?, Value.rename, Class.method?_rename]
    cases c.method? Routine.initName with
    | none => rfl
    | some m => simp [Closure.rename]
  | _ => rfl

theorem callValue_rename (callee : Value) (args : List Value) (line : Nat) :
    callValue (callee.rename f) (args.map (·.rename f)) (f.line line) (k.map (·.rename f))
        (s.rename f t) =
      (callValue callee args line k s).rename f t := by
  have hdepth : (s.rename f t).depth = s.depth := rfl
  simp only [callValue, arity?_rename, List.length_map, hdepth]
  cases arity? callee with
  | none => rfl
  | some n =>
    dsimp only
    split
    · rfl
    · split
      · rfl
      · cases callee with
        | native g => cases g; rfl
        | function i closure =>
          simp only [Value.rename, resultOf_rename]
          exact enter_rename closure args (resultOf closure)
        | class_ c => exact construct_rename c args
        | _ => rfl

theorem callWith_rename (line : Nat) (callee : Value) (done : List Value) (rest : List Expr) :
    callWith (f.line line) (callee.rename f) (done.map (·.rename f)) (rest.map (·.rename f))
        (k.map (·.rename f)) (s.rename f t) =
      (callWith line callee done rest k s).rename f t := by
  cases rest with
  | nil =>
    simp only [callWith, List.map_nil, ← List.map_reverse]
    exact callValue_rename callee done.reverse line
  | cons e es => rfl

theorem CallResult.value_rename (st : Store) (v : Value) (result : CallResult) :
    (result.rename f).value (st.rename f) (v.rename f) =
      (result.value st v).map (·.rename f) := by
  induction result with
  | returned => rfl
  | receiver scope => exact Store.getAt_rename f st scope 0 _
  | given dropped w ih =>
    simp only [CallResult.rename, CallResult.value, ih]
    cases dropped.value st v <;> rfl

theorem finishCall_rename (outer : ScopeId) (result : CallResult) (v : Value) :
    finishCall (result.rename f) (v.rename f) (k.map (·.rename f))
        (leaveCall outer (s.rename f t)) =
      (finishCall result v k (leaveCall outer s)).rename f t := by
  have hvalue : (result.rename f).value (leaveCall outer (s.rename f t)).store (v.rename f) =
      (result.value s.store v).map (·.rename f) := CallResult.value_rename s.store v result
  have hstore : (leaveCall outer s).store = s.store := rfl
  simp only [finishCall, hvalue, hstore]
  cases result.value s.store v <;> rfl

/-! ### Classes -/

theorem mapValues_methodTable (methods : List Routine) (scope : ScopeId) :
    methodTable (methods.map (·.rename f)) scope =
      (methodTable methods scope).mapValues (·.rename f) := by
  have h : ∀ b : Bindings Closure,
      (methods.map (·.rename f)).foldl (fun b r => b.put r.name.text ⟨r, scope, r.isInit⟩)
        (b.mapValues (·.rename f)) =
      (methods.foldl (fun b r => b.put r.name.text ⟨r, scope, r.isInit⟩) b).mapValues
        (·.rename f) := by
    induction methods with
    | nil => exact fun b => rfl
    | cons r rs ih =>
      intro b
      have hput := Bindings.mapValues_put (Closure.rename f) r.name.text ⟨r, scope, r.isInit⟩ b
      simp only [List.map_cons, List.foldl_cons, Routine.name_rename, Name.text_rename,
        Routine.isInit_rename]
      rw [← ih, hput]
      rfl
  exact h []

theorem declareClass_rename (name : Name) (parent : Option Class) (methods : List Routine) :
    declareClass (name.rename f) (parent.map (·.rename f)) (methods.map (·.rename f))
        (s.rename f t) =
      (declareClass name parent methods s).rename f t := by
  cases parent with
  | none => simp [declareClass, classScope, mapValues_methodTable, State.rename, Value.rename]
  | some c =>
    simp [declareClass, classScope, mapValues_methodTable, State.rename, Value.rename,
      Bindings.mapValues]
    rfl

/-! ### Whole steps -/

theorem define_rename (name : String) (v : Value) :
    (s.rename f t).define name (v.rename f) = (s.define name v).rename f t := by
  simp [State.define, State.rename]

theorem evalStep_rename (e : Expr)
    (ht : ∀ site, t.hops? (f.site site) = s.table.hops? site) :
    evalStep (e.rename f) (k.map (·.rename f)) (s.rename f t) = (evalStep e k s).rename f t := by
  cases e with
  | literal l => exact congrArg (give · _ _) (Literal.value_rename f l).symm
  | «variable» site name => exact readName_rename name.text name.line (ht site)
  | this site line => exact readName_rename _ line (ht site)
  | super site line method => exact getSuper_rename line method (ht site)
  | call callee line args =>
    simp only [evalStep, Expr.rename, Expr.renameEach_eq_map]
    rfl
  | _ => rfl

theorem execStep_rename (stmt : Stmt) :
    execStep (stmt.rename f) (k.map (·.rename f)) (s.rename f t) =
      (execStep stmt k s).rename f t := by
  cases stmt with
  | var name init =>
    cases init with
    | none =>
      simp only [execStep, Stmt.rename, Option.map_none]
      exact congrArg (give .nil _) (define_rename name.text .nil)
    | some e => rfl
  | block body =>
    simp only [execStep, Stmt.rename, Stmt.renameEach_eq_map]
    rw [← sequence_rename]
    simp [State.rename, Frame.rename, Bindings.mapValues]
  | if_ condition then_ else_ => cases else_ <;> rfl
  | function routine =>
    simp only [execStep, Stmt.rename, Routine.name_rename, Name.text_rename]
    exact congrArg (give .nil _) (define_rename (s := { s with store := s.store.takeIdentity })
      routine.name.text (.function s.store.nextIdentity ⟨routine, s.scope, false⟩))
  | return_ line value => cases value <;> rfl
  | class_ name parent methods =>
    simp only [Stmt.rename, Routine.renameEach_eq_map]
    cases parent with
    | none => exact congrArg (give .nil _) (declareClass_rename name none methods)
    | some parent => rfl
  | _ => rfl

theorem unaryApply_rename (op : UnaryOp) (v : Value) :
    op.apply (v.rename f) = (op.apply v).map (·.rename f) := by
  cases op <;> cases v <;> rfl

theorem binaryApply_rename (op : BinaryOp) (v w : Value) :
    op.apply (v.rename f) (w.rename f) = (op.apply v w).map (·.rename f) := by
  cases op with
  | equal | notEqual =>
    simp only [BinaryOp.apply, Value.equals_rename]
    rfl
  | _ => cases v <;> cases w <;> rfl

theorem resume_rename (v : Value) (frame : Frame)
    (ht : ∀ site, t.hops? (f.site site) = s.table.hops? site) :
    resume (v.rename f) (frame.rename f) (k.map (·.rename f)) (s.rename f t) =
      (resume v frame k s).rename f t := by
  cases frame with
  | unary op line =>
    simp only [resume, Frame.rename, unaryApply_rename]
    exact giveOrRaise_rename _ _
  | binaryRight op line left =>
    simp only [resume, Frame.rename, binaryApply_rename]
    exact giveOrRaise_rename _ _
  | logical op right =>
    have hdecides : op.decides (v.rename f) = op.decides v := by
      cases op <;> simp [LogicalOp.decides]
    simp only [resume, Frame.rename, hdecides]
    split <;> rfl
  | assign site name => exact writeName_rename name v (ht site)
  | callee line args => exact callWith_rename line v [] args
  | argument line callee done rest => exact callWith_rename line callee (v :: done) rest
  | get name => exact getProperty_rename v name
  | setObject name value => cases v <;> rfl
  | setValue name object =>
    simp [resume, Frame.rename, give, Config.rename, Control.rename, State.rename]
  | print =>
    have houtput : (s.rename f t).output = s.output := rfl
    simp only [resume, Frame.rename, houtput, Value.text_rename]
    cases s.output.print? v.text <;> rfl
  | var name => exact congrArg (give .nil _) (define_rename name.text v)
  | if_ then_ else_ =>
    simp only [resume, Frame.rename, Value.isTruthy_rename]
    split
    · rfl
    · cases else_ <;> rfl
  | whileCondition condition body =>
    simp only [resume, Frame.rename, Value.isTruthy_rename]
    split <;> rfl
  | superclass name line methods =>
    cases v with
    | class_ c => exact congrArg (give .nil _) (declareClass_rename name (some c) methods)
    | _ => rfl
  | sequence rest => exact sequence_rename rest
  | call outer result => exact finishCall_rename outer result .nil
  | program rest => cases rest <;> rfl
  | _ => rfl

theorem returnThrough_rename (v : Value) (frame : Frame) :
    returnThrough (v.rename f) (frame.rename f) (k.map (·.rename f)) (s.rename f t) =
      (returnThrough v frame k s).rename f t := by
  cases frame with
  | call outer result => exact finishCall_rename outer result v
  | _ => rfl

theorem failThrough_rename (e : Failure) (frame : Frame) :
    failThrough (e.rename f) (frame.rename f) (k.map (·.rename f)) (s.rename f t) =
      (failThrough e frame k s).rename f t := by
  cases frame <;> rfl

end Steps

/-- A renamed machine takes the renamed step, if its table has for the renamed sites what the table
of the machine has for the sites. -/
theorem step_rename {f : Renaming} {t : BindingTable} (c : Config)
    (ht : ∀ site, t.hops? (f.site site) = c.state.table.hops? site) :
    step (c.rename f t) = (step c).rename f t := by
  obtain ⟨control, frames, s⟩ := c
  cases control with
  | eval e => exact evalStep_rename e ht
  | exec stmt => exact execStep_rename stmt
  | value v =>
    cases frames with
    | nil => rfl
    | cons frame k => exact resume_rename v frame ht
  | returning v =>
    cases frames with
    | nil => rfl
    | cons frame k => exact returnThrough_rename v frame
  | failing e =>
    cases frames with
    | nil => rfl
    | cons frame k => exact failThrough_rename e frame

theorem run_rename {f : Renaming} {t : BindingTable} (c : Config)
    (ht : ∀ site, t.hops? (f.site site) = c.state.table.hops? site) (n : Nat) :
    run n (c.rename f t) = (run n c).rename f t := by
  induction n generalizing c with
  | zero => rfl
  | succ n ih =>
    rw [run_succ, run_succ, step_rename c ht]
    refine ih (step c) fun site => ?_
    rw [table_step]
    exact ht site

def Outcome.rename (f : Renaming) : Outcome → Outcome
  | .value v => .value (v.rename f)
  | .returned v => .returned (v.rename f)
  | .failed e => .failed (e.rename f)

theorem outcome?_rename (f : Renaming) (t : BindingTable) (c : Config) :
    (c.rename f t).outcome? = c.outcome?.map (·.rename f) := by
  obtain ⟨control, frames, s⟩ := c
  cases control <;> cases frames <;> rfl

end Machine

end LoxLang
