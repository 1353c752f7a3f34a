import LoxLang.Machine.Access

/-!
# Calls and classes

Functions run their body in a new scope within the one they were declared in. A call of a class makes
an object and runs the initializer on it. Calls may nest up to a fixed depth.
-/

namespace LoxLang.Machine

/-! ## Calls -/

/-- The number of arguments that a value takes when it is called. -/
def arity? : Value → Option Nat
  | .native .clock => some 0
  | .function _ closure => some closure.routine.arity
  | .class_ c =>
    match c.method? Routine.initName with
    | some m => some m.routine.arity
    | none => some 0
  | _ => none

/-- Parameters with their arguments; of equal names the last one counts. -/
def bindParams (params : List Name) (args : List Value) : Bindings Value :=
  (params.zip args).foldl (fun b (p, v) => b.put p.text v) []

/-- Starts the body of a routine in a new scope. -/
def enter (closure : Closure) (args : List Value) (result : CallResult) (k : List Frame)
    (s : State) : Config :=
  let inner := s.store.nextScope
  let bindings := bindParams closure.routine.params args
  sequence closure.routine.body (.call s.scope result :: k)
    { s with
      store := s.store.addScope (some closure.scope) bindings
      scope := inner
      depth := s.depth + 1 }

/-- What a call of a closure gives: an initializer gives the object that it was bound to. -/
def resultOf (closure : Closure) : CallResult :=
  if closure.isInitializer then .receiver closure.scope else .returned

/-- Makes an object of a class and runs its initializer. The object is the result, whatever the
initializer gives. -/
def construct (c : Class) (args : List Value) (k : List Frame) (s : State) : Config :=
  let object := Value.object s.store.nextObject c
  let s := { s with store := s.store.addObject }
  match c.method? Routine.initName with
  | none => give object k s
  | some m =>
    let (closure, s) := bindMethod m object s
    enter closure args (.given (resultOf closure) object) k s

/-- Gives the time. -/
def readClock (k : List Frame) (s : State) : Config :=
  give (.number s.clock.now) k { s with clock := s.clock.next }

/-- Calls a value. -/
def callValue (callee : Value) (args : List Value) (line : Nat) (k : List Frame) (s : State) :
    Config :=
  match arity? callee with
  | none => raise .notCallable line k s
  | some n =>
    if args.length ≠ n then raise (.wrongArity n args.length) line k s
    else if maxDepth ≤ s.depth then raise .stackOverflow line k s
    else
      match callee with
      | .native .clock => readClock k s
      | .function _ closure => enter closure args (resultOf closure) k s
      | .class_ c => construct c args k s
      | _ => raise .notCallable line k s

/-- Evaluates the next argument, or calls when there is none. -/
def callWith (line : Nat) (callee : Value) (done : List Value) (rest : List Expr)
    (k : List Frame) (s : State) : Config :=
  match rest with
  | [] => callValue callee done.reverse line k s
  | e :: es => ⟨.eval e, .argument line callee done es :: k, s⟩

/-- The value of a call whose body has ended with a value. -/
def CallResult.value (st : Store) (v : Value) : CallResult → Except Fault Value
  | returned => .ok v
  | receiver scope => st.getAt scope 0 Keyword.this.spelling
  | given dropped w => (dropped.value st v).map fun _ => w

theorem CallResult.eq_of_value_given {st : Store} {v w u : Value} {dropped : CallResult}
    (h : (given dropped w).value st v = .ok u) : u = w := by
  rw [value] at h
  cases hd : dropped.value st v with
  | error f =>
    rw [hd] at h
    cases h
  | ok x =>
    rw [hd] at h
    cases h
    rfl

/-- A call gives what its body returned, the object of an initializer or a value known beforehand. -/
theorem CallResult.cases_of_value_eq_ok {st : Store} {v w : Value} {result : CallResult}
    (h : result.value st v = .ok w) :
    w = v ∨ (∃ scope, st.getAt scope 0 Keyword.this.spelling = .ok w) ∨
      ∃ dropped, result = .given dropped w := by
  cases result with
  | returned =>
    cases h
    exact .inl rfl
  | receiver scope => exact .inr (.inl ⟨scope, h⟩)
  | given dropped u =>
    obtain rfl := eq_of_value_given h
    exact .inr (.inr ⟨dropped, rfl⟩)

/-- Goes on with what a call gives. -/
def finishCall (result : CallResult) (v : Value) (k : List Frame) (s : State) : Config :=
  match result.value s.store v with
  | .ok w => give w k s
  | .error f => ⟨.failing (.fault f), k, s⟩

/-- Makes the scope around a call current again. -/
def leaveCall (outer : ScopeId) (s : State) : State :=
  { s with scope := outer, depth := s.depth - 1 }

/-! ## Classes -/

/-- The methods of a class; of equal names the last one counts. -/
def methodTable (methods : List Routine) (scope : ScopeId) : Bindings Closure :=
  methods.foldl (fun b r => b.put r.name.text ⟨r, scope, r.isInit⟩) []

/-- The scope around the methods of a class. With a superclass it is a new one, in which `super` is
that class. -/
def classScope (parent : Option Class) (s : State) : ScopeId × State :=
  match parent with
  | none => (s.scope, s)
  | some c =>
    (s.store.nextScope,
      { s with store := s.store.addScope (some s.scope) [(Keyword.super.spelling, .class_ c)] })

/-- Makes a class and defines its name. -/
def declareClass (name : Name) (parent : Option Class) (methods : List Routine) (s : State) :
    State :=
  let (scope, s) := classScope parent s
  let c := Class.mk s.store.nextIdentity name.text parent (methodTable methods scope)
  { s with store := s.store.takeIdentity.define s.scope name.text (.class_ c) }

end LoxLang.Machine
