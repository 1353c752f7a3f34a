import LoxLang.Failure
import LoxLang.Value

/-!
# The store

Scopes and objects, numbered in the order in which they are made. A scope holds names with values
and knows the scope around it. There are two ways to a name: outwards from scope to scope until it
is found, or straight to the scope at a known distance.
-/

namespace LoxLang

structure Scope where
  bindings : Bindings Value
  enclosing : Option ScopeId

structure Store where
  scopes : Array Scope
  /-- The fields of each object. -/
  objects : Array (Bindings Value)
  /-- The identity of the next function or class. -/
  nextIdentity : Nat

namespace Store

def empty : Store := ⟨#[], #[], 0⟩

/-! ## Scopes -/

/-- The number of the scope that is made next. -/
def nextScope (s : Store) : ScopeId := s.scopes.size

/-- Makes a scope with the given names. -/
def addScope (s : Store) (enclosing : Option ScopeId) (bindings : Bindings Value) : Store :=
  { s with scopes := s.scopes.push ⟨bindings, enclosing⟩ }

/-- Gives a name a value in a scope, whether it is there already or not. -/
def define (s : Store) (scope : ScopeId) (name : String) (value : Value) : Store :=
  { s with scopes := s.scopes.modify scope fun sc =>
      { sc with bindings := sc.bindings.put name value } }

/-- The value of a name in a scope itself. -/
def lookup? (s : Store) (scope : ScopeId) (name : String) : Option Value :=
  s.scopes[scope]?.bind fun sc => sc.bindings.get? name

def enclosing? (s : Store) (scope : ScopeId) : Option ScopeId :=
  s.scopes[scope]?.bind (·.enclosing)

/-- The scope that is the given number of scopes outwards. -/
def ancestor? (s : Store) (scope : ScopeId) : Nat → Option ScopeId
  | 0 => some scope
  | d + 1 =>
    match s.enclosing? scope with
    | some outer => s.ancestor? outer d
    | none => none

theorem lookup?_addScope (s : Store) (enclosing : Option ScopeId) (b : Bindings Value)
    (scope : ScopeId) (name : String) :
    (s.addScope enclosing b).lookup? scope name =
      if scope = s.nextScope then b.get? name else s.lookup? scope name := by
  unfold lookup? addScope nextScope
  rw [Array.getElem?_push]
  split <;> simp_all

theorem enclosing?_addScope (s : Store) (enclosing : Option ScopeId) (b : Bindings Value)
    (scope : ScopeId) :
    (s.addScope enclosing b).enclosing? scope =
      if scope = s.nextScope then enclosing else s.enclosing? scope := by
  unfold enclosing? addScope nextScope
  rw [Array.getElem?_push]
  split <;> simp_all

theorem lookup?_define (s : Store) (scope other : ScopeId) (name word : String) (value : Value) :
    (s.define scope name value).lookup? other word =
      if other = scope ∧ word = name ∧ scope < s.nextScope then some value
      else s.lookup? other word := by
  unfold lookup? define nextScope
  rw [Array.getElem?_modify]
  by_cases h : scope = other
  · subst h
    by_cases hs : scope < s.scopes.size
    · simp [hs, Bindings.get?_put]
    · simp [hs]
  · simp [h, Ne.symm h]

@[simp] theorem enclosing?_define (s : Store) (scope other : ScopeId) (name : String)
    (value : Value) : (s.define scope name value).enclosing? other = s.enclosing? other := by
  unfold enclosing? define
  rw [Array.getElem?_modify]
  split
  · cases s.scopes[other]? <;> rfl
  · rfl

@[simp] theorem ancestor?_define (s : Store) (scope other : ScopeId) (name : String)
    (value : Value) (hops : Nat) :
    (s.define scope name value).ancestor? other hops = s.ancestor? other hops := by
  induction hops generalizing other with
  | zero => rfl
  | succ d ih => simp [ancestor?, ih]

@[simp] theorem nextScope_define (s : Store) (scope : ScopeId) (name : String) (value : Value) :
    (s.define scope name value).nextScope = s.nextScope := by
  simp [nextScope, define]

@[simp] theorem nextScope_addScope (s : Store) (outer : Option ScopeId) (b : Bindings Value) :
    (s.addScope outer b).nextScope = s.nextScope + 1 := by
  simp [nextScope, addScope]

theorem scopes_define_of_ne (s : Store) {scope other : ScopeId} (h : other ≠ scope) (name : String)
    (value : Value) : (s.define scope name value).scopes[other]? = s.scopes[other]? := by
  unfold define
  rw [Array.getElem?_modify, if_neg h.symm]

theorem scopes_addScope_of_lt (s : Store) {scope : ScopeId} (h : scope < s.nextScope)
    (outer : Option ScopeId) (b : Bindings Value) :
    (s.addScope outer b).scopes[scope]? = s.scopes[scope]? := by
  unfold addScope
  exact (Array.getElem?_push ..).trans (if_neg (Nat.ne_of_lt h))

/-! ## Names, scope by scope outwards -/

/-- The first of at most `n` scopes outwards that has a name. -/
def ownerWithin? (s : Store) (name : String) : Nat → ScopeId → Option ScopeId
  | 0, _ => none
  | n + 1, scope =>
    match s.lookup? scope name, s.enclosing? scope with
    | some _, _ => some scope
    | none, some outer => s.ownerWithin? name n outer
    | none, none => none

/-- The first scope outwards that has a name. -/
def owner? (s : Store) (scope : ScopeId) (name : String) : Option ScopeId :=
  s.ownerWithin? name s.scopes.size scope

/-- The value of a name, of the first scope outwards that has it. -/
def get (s : Store) (scope : ScopeId) (name : String) : Except RuntimeError Value :=
  match (s.owner? scope name).bind fun owner => s.lookup? owner name with
  | some value => .ok value
  | none => .error (.undefinedVariable name)

/-- Changes the value of a name in the first scope outwards that has it. -/
@[inline] def assign (s : Store) (scope : ScopeId) (name : String) (value : Value) :
    Except RuntimeError Store :=
  match s.owner? scope name with
  | some owner => .ok (s.define owner name value)
  | none => .error (.undefinedVariable name)

/-! ## Names at a known distance -/

def getAt (s : Store) (scope : ScopeId) (hops : Nat) (name : String) : Except Fault Value :=
  match s.ancestor? scope hops with
  | none => .error .missingScope
  | some owner =>
    match s.lookup? owner name with
    | some value => .ok value
    | none => .error .missingName

@[inline] def assignAt (s : Store) (scope : ScopeId) (hops : Nat) (name : String) (value : Value) :
    Except Fault Store :=
  match s.ancestor? scope hops with
  | none => .error .missingScope
  | some owner => .ok (s.define owner name value)

/-! ## Objects and identities -/

/-- The number of the object that is made next. -/
def nextObject (s : Store) : ObjectId := s.objects.size

/-- Makes an object without fields. -/
def addObject (s : Store) : Store := { s with objects := s.objects.push [] }

def field? (s : Store) (object : ObjectId) (name : String) : Option Value :=
  s.objects[object]?.bind (·.get? name)

def setField (s : Store) (object : ObjectId) (name : String) (value : Value) : Store :=
  { s with objects := s.objects.modify object (·.put name value) }

theorem field?_setField (s : Store) (object other : ObjectId) (name word : String)
    (value : Value) :
    (s.setField object name value).field? other word =
      if other = object ∧ word = name ∧ object < s.nextObject then some value
      else s.field? other word := by
  unfold field? setField nextObject
  rw [Array.getElem?_modify]
  by_cases h : object = other
  · subst h
    by_cases hs : object < s.objects.size
    · simp [hs, Bindings.get?_put]
    · simp [hs]
  · simp [h, Ne.symm h]

theorem field?_addObject (s : Store) (object : ObjectId) (name : String) :
    s.addObject.field? object name = s.field? object name := by
  unfold field? addObject
  rw [Array.getElem?_push]
  split
  · next h => simp [h, Bindings.get?]
  · rfl

/-- Uses up an identity. -/
def takeIdentity (s : Store) : Store := { s with nextIdentity := s.nextIdentity + 1 }

end Store

end LoxLang
