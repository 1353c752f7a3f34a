import LoxLang.Machine.Frame

/-!
# Names and properties

How a machine reads and writes names, and how it finds the fields and methods of objects.
-/

namespace LoxLang.Machine

/-! ## Outcomes of a step -/

def give (v : Value) (k : List Frame) (s : State) : Config := ⟨.value v, k, s⟩

def raise (e : RuntimeError) (line : Nat) (k : List Frame) (s : State) : Config :=
  ⟨.failing (.error e line), k, s⟩

/-- Goes on with a value, or raises an error at a line. -/
def giveOrRaise (r : Except RuntimeError Value) (line : Nat) (k : List Frame) (s : State) :
    Config :=
  match r with
  | .ok v => give v k s
  | .error e => raise e line k s

/-- Runs statements one after the other. -/
def sequence (body : List Stmt) (k : List Frame) (s : State) : Config :=
  match body with
  | [] => give .nil k s
  | first :: rest => ⟨.exec first, .sequence rest :: k, s⟩

/-! ## Names -/

/-- Reads a name: straight from its scope if its distance is known, else from the global scope. -/
def readName (site : Site) (name : String) (line : Nat) (k : List Frame) (s : State) : Config :=
  match s.table.hops? site with
  | some d =>
    match s.store.getAt s.scope d name with
    | .ok v => give v k s
    | .error f => ⟨.failing (.fault f), k, s⟩
  | none => giveOrRaise (s.store.get globalScope name) line k s

/-- Changes the value of a name, found as for reading. -/
def writeName (site : Site) (name : Name) (v : Value) (k : List Frame) (s : State) : Config :=
  match s.table.hops? site with
  | some d =>
    match s.store.assignAt s.scope d name.text v with
    | .ok store => give v k { s with store := store }
    | .error f => ⟨.failing (.fault f), k, s⟩
  | none =>
    match s.store.assign globalScope name.text v with
    | .ok store => give v k { s with store := store }
    | .error e => raise e name.line k s

/-! ## Methods -/

/-- A method of an object: its scope is a new one in which `this` is the object. -/
def bindMethod (m : Closure) (receiver : Value) (s : State) : Closure × State :=
  let scope := s.store.nextScope
  ({ m with scope := scope },
    { s with store := s.store.addScope (some m.scope) [(Keyword.this.spelling, receiver)] })

/-- Gives a function for a method of an object. -/
def giveMethod (m : Closure) (receiver : Value) (k : List Frame) (s : State) : Config :=
  let (closure, s) := bindMethod m receiver s
  give (.function s.store.nextIdentity closure) k { s with store := s.store.takeIdentity }

/-- Reads a property of a value: a field or else a method of its class. -/
def getProperty (v : Value) (name : Name) (k : List Frame) (s : State) : Config :=
  match v with
  | .object id c =>
    match s.store.field? id name.text with
    | some field => give field k s
    | none =>
      match c.method? name.text with
      | some m => giveMethod m v k s
      | none => raise (.undefinedProperty name.text) name.line k s
  | _ => raise .noProperties name.line k s

/-- The class that `super` and the object that `this` stand for, when `super` is `hops` scopes
outwards. The scope of `this` lies within that of `super`. -/
def superAndThis (hops : Nat) (s : State) : Except Fault (Class × Value) := do
  match ← s.store.getAt s.scope hops Keyword.super.spelling with
  | .class_ c =>
    match hops with
    | 0 => throw .missingScope
    | d + 1 =>
      match ← s.store.getAt s.scope d Keyword.this.spelling with
      | .object id own => return (c, .object id own)
      | _ => throw .thisNotObject
  | _ => throw .superNotClass

/-- Reads a method of the superclass. -/
def getSuper (site : Site) (line : Nat) (method : Name) (k : List Frame) (s : State) : Config :=
  match s.table.hops? site with
  | none => raise .superOutsideClass line k s
  | some hops =>
    match superAndThis hops s with
    | .error f => ⟨.failing (.fault f), k, s⟩
    | .ok (c, receiver) =>
      match c.method? method.text with
      | some m => giveMethod m receiver k s
      | none => raise (.undefinedProperty method.text) method.line k s

end LoxLang.Machine
