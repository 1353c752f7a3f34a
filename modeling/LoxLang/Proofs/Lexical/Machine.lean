import LoxLang.Machine.Run

/-!
# A machine with environments

The same language on a machine that knows no distances. An environment is a map from local names to
cells, and it never changes: a declaration makes a new cell and a new environment, which is the
current one with one name more, and code that comes later runs in the new environment. A closure
keeps the environment of its declaration. A name that the environment does not have is global.

Environments are numbered in the order in which they are made. The first one is that of the top
level; it has no names, and a declaration there goes to the table of globals. Where a closure or a
frame has the number of a scope, on this machine it is the number of an environment. All else is
done as on the machine with scopes.

## Main definitions

* `Lexical.State`: environments, cells and globals.
* `Lexical.step`, `Lexical.run`: the machine.

## Main results

* `cell?_run`: the names of an environment and their cells stay as they are.
-/

namespace LoxLang.Lexical

open Machine (Frame Control CallResult Outcome maxDepth)

/-- The number of a cell. -/
abbrev Cell := Nat

/-- Local names with their cells; of equal names the first one counts. -/
abbrev Env := Bindings Cell

/-- The number of an environment. -/
abbrev EnvId := ScopeId

/-- The environment of the top level. -/
def topLevel : EnvId := 0

structure State where
  /-- The environments made so far. -/
  envs : Array Env
  cells : Array Value
  globals : Bindings Value
  /-- The fields of each object. -/
  objects : Array (Bindings Value)
  /-- The identity of the next function or class. -/
  nextIdentity : Nat
  /-- The current environment. -/
  env : EnvId
  /-- The number of calls that are not finished. -/
  depth : Nat
  output : Output
  clock : Clock

structure Config where
  control : Control
  frames : List Frame
  state : State

namespace State

/-- A machine that has not run anything. -/
def initial (clock : Clock) (room : Option Room) : State where
  envs := #[[]]
  cells := #[]
  globals := [("clock", .native .clock)]
  objects := #[]
  nextIdentity := 0
  env := topLevel
  depth := 0
  output := ⟨[], room⟩
  clock := clock

/-! ## Environments -/

/-- The cell of a name in an environment. -/
def cell? (s : State) (env : EnvId) (name : String) : Option Cell :=
  s.envs[env]?.bind (·.get? name)

/-- The value of a local name in an environment. -/
def local? (s : State) (env : EnvId) (name : String) : Option Value :=
  (s.cell? env name).bind fun cell => s.cells[cell]?

/-- The number of the environment that is made next. -/
def nextEnv (s : State) : EnvId := s.envs.size

/-- Makes the environment that has one name more than the given one, with a new cell. -/
def bind (s : State) (env : EnvId) (name : String) (v : Value) : State :=
  { s with
    envs := s.envs.push ((name, s.cells.size) :: s.envs[env]?.getD [])
    cells := s.cells.push v }

/-- Goes on in the environment that has one name more. -/
def extend (s : State) (name : String) (v : Value) : State :=
  { s.bind s.env name v with env := s.nextEnv }

/-- Goes on in a local environment that has the names of the given one. -/
def enter (s : State) (env : EnvId) : State :=
  { s with
    envs := s.envs.push (s.envs[env]?.getD [])
    env := s.nextEnv }

/-- Begins the declaration of a name. A local one gets its cell. -/
def declare (s : State) (name : String) : State :=
  if s.env = topLevel then s else s.extend name .nil

/-- Gives a declared name its value. -/
def define (s : State) (name : String) (v : Value) : State :=
  if s.env = topLevel then { s with globals := s.globals.put name v }
  else
    match s.cell? s.env name with
    | some cell => { s with cells := s.cells.setIfInBounds cell v }
    | none => s

/-! ## Objects and identities -/

def field? (s : State) (object : ObjectId) (name : String) : Option Value :=
  s.objects[object]?.bind (·.get? name)

def setField (s : State) (object : ObjectId) (name : String) (v : Value) : State :=
  { s with objects := s.objects.modify object (·.put name v) }

def takeIdentity (s : State) : State := { s with nextIdentity := s.nextIdentity + 1 }

end State

/-! ## Outcomes of a step -/

def give (v : Value) (k : List Frame) (s : State) : Config := ⟨.value v, k, s⟩

def raise (e : RuntimeError) (line : Nat) (k : List Frame) (s : State) : Config :=
  ⟨.failing (.error e line), k, s⟩

def giveOrRaise (r : Except RuntimeError Value) (line : Nat) (k : List Frame) (s : State) :
    Config :=
  match r with
  | .ok v => give v k s
  | .error e => raise e line k s

def sequence (body : List Stmt) (k : List Frame) (s : State) : Config :=
  match body with
  | [] => give .nil k s
  | first :: rest => ⟨.exec first, .sequence rest :: k, s⟩

/-! ## Names -/

/-- Reads a name: from its cell if it is local, else from the globals. -/
def readName (name : String) (line : Nat) (k : List Frame) (s : State) : Config :=
  match s.local? s.env name with
  | some v => give v k s
  | none =>
    match s.globals.get? name with
    | some v => give v k s
    | none => raise (.undefinedVariable name) line k s

/-- Changes the value of a name, found as for reading. -/
def writeName (name : Name) (v : Value) (k : List Frame) (s : State) : Config :=
  match s.cell? s.env name.text with
  | some cell => give v k { s with cells := s.cells.setIfInBounds cell v }
  | none =>
    match s.globals.get? name.text with
    | some _ => give v k { s with globals := s.globals.put name.text v }
    | none => raise (.undefinedVariable name.text) name.line k s

/-! ## Methods -/

/-- A method of an object: its environment has `this` with a cell of its own. -/
def bindMethod (m : Closure) (receiver : Value) (s : State) : Closure × State :=
  ({ m with scope := s.nextEnv }, s.bind m.scope Keyword.this.spelling receiver)

def giveMethod (m : Closure) (receiver : Value) (k : List Frame) (s : State) : Config :=
  let (closure, s) := bindMethod m receiver s
  give (.function s.nextIdentity closure) k s.takeIdentity

def getProperty (v : Value) (name : Name) (k : List Frame) (s : State) : Config :=
  match v with
  | .object id c =>
    match s.field? id name.text with
    | some field => give field k s
    | none =>
      match c.method? name.text with
      | some m => giveMethod m v k s
      | none => raise (.undefinedProperty name.text) name.line k s
  | _ => raise .noProperties name.line k s

/-- Reads a method of the class that `super` stands for, for the object that `this` stands for. -/
def getSuper (line : Nat) (method : Name) (k : List Frame) (s : State) : Config :=
  match s.local? s.env Keyword.super.spelling, s.local? s.env Keyword.this.spelling with
  | some (.class_ c), some receiver =>
    match c.method? method.text with
    | some m => giveMethod m receiver k s
    | none => raise (.undefinedProperty method.text) method.line k s
  | _, _ => raise .superOutsideClass line k s

/-! ## Calls -/

/-- Starts the body of a routine. Each parameter has a cell of its own. -/
def enterRoutine (closure : Closure) (args : List Value) (result : CallResult) (k : List Frame)
    (s : State) : Config :=
  let inner := (closure.routine.params.zip args).foldl (fun s (p, v) => s.extend p.text v)
    (s.enter closure.scope)
  sequence closure.routine.body (.call s.env result :: k) { inner with depth := s.depth + 1 }

def construct (c : Class) (args : List Value) (k : List Frame) (s : State) : Config :=
  let object := Value.object s.objects.size c
  let s := { s with objects := s.objects.push [] }
  match c.method? Routine.initName with
  | none => give object k s
  | some m =>
    let (closure, s) := bindMethod m object s
    enterRoutine closure args (.given (Machine.resultOf closure) object) k s

def readClock (k : List Frame) (s : State) : Config :=
  give (.number s.clock.now) k { s with clock := s.clock.next }

def callValue (callee : Value) (args : List Value) (line : Nat) (k : List Frame) (s : State) :
    Config :=
  match Machine.arity? callee with
  | none => raise .notCallable line k s
  | some n =>
    if args.length ≠ n then raise (.wrongArity n args.length) line k s
    else if maxDepth ≤ s.depth then raise .stackOverflow line k s
    else
      match callee with
      | .native .clock => readClock k s
      | .function _ closure => enterRoutine closure args (Machine.resultOf closure) k s
      | .class_ c => construct c args k s
      | _ => raise .notCallable line k s

def callWith (line : Nat) (callee : Value) (done : List Value) (rest : List Expr)
    (k : List Frame) (s : State) : Config :=
  match rest with
  | [] => callValue callee done.reverse line k s
  | e :: es => ⟨.eval e, .argument line callee done es :: k, s⟩

/-- What a call gives after its body has ended with a value. -/
def finishCall (result : CallResult) (v : Value) (k : List Frame) (s : State) : Config :=
  match result with
  | .returned => give v k s
  | .given _ w => give w k s
  | .receiver env => give ((s.local? env Keyword.this.spelling).getD .nil) k s

/-- Makes the environment around a call current again. -/
def leaveCall (outer : EnvId) (s : State) : State := { s with env := outer, depth := s.depth - 1 }

/-! ## Classes -/

/-- Makes a class and gives its declared name this value. Methods of a class with a superclass find
it in a cell of its own. -/
def defineClass (name : Name) (parent : Option Class) (methods : List Routine) (s : State) :
    State :=
  let (env, s) := match parent with
    | none => (s.env, s)
    | some c => (s.nextEnv, s.bind s.env Keyword.super.spelling (.class_ c))
  let c := Class.mk s.nextIdentity name.text parent (Machine.methodTable methods env)
  s.takeIdentity.define name.text (.class_ c)

/-! ## Steps -/

def evalStep (e : Expr) (k : List Frame) (s : State) : Config :=
  match e with
  | .literal l => give l.value k s
  | .group inner => ⟨.eval inner, k, s⟩
  | .unary op line operand => ⟨.eval operand, .unary op line :: k, s⟩
  | .binary op line left right => ⟨.eval left, .binaryLeft op line right :: k, s⟩
  | .logical op _ left right => ⟨.eval left, .logical op right :: k, s⟩
  | .variable _ name => readName name.text name.line k s
  | .assign site name value => ⟨.eval value, .assign site name :: k, s⟩
  | .call callee line args => ⟨.eval callee, .callee line args :: k, s⟩
  | .get object name => ⟨.eval object, .get name :: k, s⟩
  | .set object name value => ⟨.eval object, .setObject name value :: k, s⟩
  | .this _ line => readName Keyword.this.spelling line k s
  | .super _ line method => getSuper line method k s

/-- Takes a statement apart. A declared name is there for the code after it: its initializer or
superclass, its own body, and the statements that follow. -/
def execStep (stmt : Stmt) (k : List Frame) (s : State) : Config :=
  match stmt with
  | .expression e => ⟨.eval e, k, s⟩
  | .print e => ⟨.eval e, .print :: k, s⟩
  | .var name none => give .nil k ((s.declare name.text).define name.text .nil)
  | .var name (some e) => ⟨.eval e, .var name :: k, s.declare name.text⟩
  | .block body => sequence body (.block s.env :: k) (s.enter s.env)
  | .if_ condition then_ else_ => ⟨.eval condition, .if_ then_ else_ :: k, s⟩
  | .while_ condition body => ⟨.eval condition, .whileCondition condition body :: k, s⟩
  | .function routine =>
    let s := s.declare routine.name.text
    let f := Value.function s.nextIdentity ⟨routine, s.env, false⟩
    give .nil k (s.takeIdentity.define routine.name.text f)
  | .return_ _ none => ⟨.returning .nil, k, s⟩
  | .return_ _ (some e) => ⟨.eval e, .return_ :: k, s⟩
  | .class_ name none methods => give .nil k (defineClass name none methods (s.declare name.text))
  | .class_ name (some parent) methods =>
    ⟨.eval (.variable parent.site parent.name),
      .superclass name parent.name.line methods :: k, s.declare name.text⟩

/-- Hands a value to a frame. -/
def resume (v : Value) (f : Frame) (k : List Frame) (s : State) : Config :=
  match f with
  | .unary op line => giveOrRaise (op.apply v) line k s
  | .binaryLeft op line right => ⟨.eval right, .binaryRight op line v :: k, s⟩
  | .binaryRight op line left => giveOrRaise (op.apply left v) line k s
  | .logical op right => if op.decides v then give v k s else ⟨.eval right, k, s⟩
  | .assign _ name => writeName name v k s
  | .callee line args => callWith line v [] args k s
  | .argument line callee done rest => callWith line callee (v :: done) rest k s
  | .get name => getProperty v name k s
  | .setObject name value =>
    match v with
    | .object id _ => ⟨.eval value, .setValue name id :: k, s⟩
    | _ => raise .noFields name.line k s
  | .setValue name object => give v k (s.setField object name.text v)
  | .print =>
    match s.output.print? v.text with
    | some output => give .nil k { s with output := output }
    | none => ⟨.failing .outputFull, k, s⟩
  | .var name => give .nil k (s.define name.text v)
  | .if_ then_ else_ =>
    if v.isTruthy then ⟨.exec then_, k, s⟩
    else
      match else_ with
      | some stmt => ⟨.exec stmt, k, s⟩
      | none => give .nil k s
  | .whileCondition condition body =>
    if v.isTruthy then ⟨.exec body, .whileBody condition body :: k, s⟩ else give .nil k s
  | .whileBody condition body => ⟨.eval condition, .whileCondition condition body :: k, s⟩
  | .superclass name line methods =>
    match v with
    | .class_ c => give .nil k (defineClass name (some c) methods s)
    | _ => raise .superclassNotClass line k s
  | .return_ => ⟨.returning v, k, s⟩
  | .sequence rest => sequence rest k s
  | .block outer => give .nil k { s with env := outer }
  | .call outer result => finishCall result .nil k (leaveCall outer s)
  | .program rest =>
    match rest with
    | [] => give .nil k s
    | stmt :: rest => ⟨.exec stmt, .program rest :: k, s⟩

/-- Leaves a frame because of a `return`. -/
def returnThrough (v : Value) (f : Frame) (k : List Frame) (s : State) : Config :=
  match f with
  | .call outer result => finishCall result v k (leaveCall outer s)
  | .block outer => ⟨.returning v, k, { s with env := outer }⟩
  | .program rest => ⟨.value .nil, .program rest :: k, s⟩
  | _ => ⟨.returning v, k, s⟩

/-- Leaves a frame because of a failure. -/
def failThrough (e : Failure) (f : Frame) (k : List Frame) (s : State) : Config :=
  match f with
  | .call outer _ => ⟨.failing e, k, leaveCall outer s⟩
  | .block outer => ⟨.failing e, k, { s with env := outer }⟩
  | _ => ⟨.failing e, k, s⟩

def step : Config → Config
  | ⟨.eval e, k, s⟩ => evalStep e k s
  | ⟨.exec stmt, k, s⟩ => execStep stmt k s
  | ⟨.value v, f :: k, s⟩ => resume v f k s
  | ⟨.returning v, f :: k, s⟩ => returnThrough v f k s
  | ⟨.failing e, f :: k, s⟩ => failThrough e f k s
  | ⟨control, [], s⟩ => ⟨control, [], s⟩

/-! ## Runs -/

/-- The outcome, if the machine has ended. -/
def Config.outcome? : Config → Option Outcome
  | ⟨.value v, [], _⟩ => some (.value v)
  | ⟨.returning v, [], _⟩ => some (.returned v)
  | ⟨.failing f, [], _⟩ => some (.failed f)
  | _ => none

/-- Takes `n` steps. A machine that has ended stays as it is. -/
def run : Nat → Config → Config
  | 0, c => c
  | n + 1, c => run n (step c)


/-! ## Environments never change -/

/-- Environments and cells are only added. -/
structure State.Le (s s' : State) : Prop where
  envs : ∀ {e : EnvId} {ρ}, s.envs[e]? = some ρ → s'.envs[e]? = some ρ
  cells : s.cells.size ≤ s'.cells.size

namespace State

variable {s s' s'' : State}

theorem Le.refl (s : State) : s.Le s := ⟨id, Nat.le_refl _⟩

theorem Le.trans (h : s.Le s') (h' : s'.Le s'') : s.Le s'' :=
  ⟨fun he => h'.envs (h.envs he), Nat.le_trans h.cells h'.cells⟩

theorem le_of_push {ρ : Env} (he : s'.envs = s.envs.push ρ)
    (hc : s.cells.size ≤ s'.cells.size) : s.Le s' := by
  refine ⟨fun {e ρ'} h => ?_, hc⟩
  have hlt : e < s.envs.size := (Array.getElem?_eq_some_iff.mp h).1
  rw [he, Array.getElem?_push, if_neg (Nat.ne_of_lt hlt), h]

theorem le_bind (s : State) (env : EnvId) (name : String) (v : Value) : s.Le (s.bind env name v) :=
  le_of_push rfl (by simp [bind])

theorem le_extend (s : State) (name : String) (v : Value) : s.Le (s.extend name v) :=
  le_of_push rfl (by simp [extend, bind])

theorem le_enter (s : State) (env : EnvId) : s.Le (s.enter env) := le_of_push rfl (Nat.le_refl _)

theorem le_declare (s : State) (name : String) : s.Le (s.declare name) := by
  unfold declare
  split
  · exact .refl s
  · exact s.le_extend name .nil

theorem le_define (s : State) (name : String) (v : Value) : s.Le (s.define name v) := by
  unfold define
  split
  · exact ⟨id, Nat.le_refl _⟩
  · split
    · exact ⟨id, by simp⟩
    · exact .refl s

theorem le_extendAll (ps : List (Name × Value)) (s : State) :
    s.Le (ps.foldl (fun s (p, v) => s.extend p.text v) s) := by
  induction ps generalizing s with
  | nil => exact .refl s
  | cons p ps ih => exact (s.le_extend p.1.text p.2).trans (ih _)

end State

section Le

variable {k : List Frame} {s : State}

theorem le_giveMethod (m : Closure) (receiver : Value) :
    s.Le (giveMethod m receiver k s).state := by
  have h := s.le_bind m.scope Keyword.this.spelling receiver
  exact ⟨h.envs, h.cells⟩

theorem le_sequence (body : List Stmt) : s.Le (sequence body k s).state := by
  cases body <;> exact .refl s

theorem le_enterRoutine (f : Closure) (args : List Value) (result : CallResult) :
    s.Le (enterRoutine f args result k s).state := by
  have h := (s.le_enter f.scope).trans (State.le_extendAll (f.routine.params.zip args) _)
  unfold enterRoutine
  refine State.Le.trans ?_ (le_sequence _)
  exact ⟨h.envs, h.cells⟩

theorem le_callValue (callee : Value) (args : List Value) (line : Nat) :
    s.Le (callValue callee args line k s).state := by
  unfold callValue
  split
  · exact .refl s
  · split
    · exact .refl s
    · split
      · exact .refl s
      · split
        · exact ⟨id, Nat.le_refl _⟩
        · exact le_enterRoutine _ _ _
        · unfold construct
          split
          · exact ⟨id, Nat.le_refl _⟩
          · next m _ =>
            have h := State.le_bind { s with objects := s.objects.push [] } m.scope
              Keyword.this.spelling (.object s.objects.size ‹_›)
            exact State.Le.trans ⟨h.envs, h.cells⟩ (le_enterRoutine _ _ _)
        · exact .refl s

theorem le_callWith (line : Nat) (callee : Value) (done : List Value) (rest : List Expr) :
    s.Le (callWith line callee done rest k s).state := by
  cases rest with
  | nil => exact le_callValue _ _ _
  | cons e es => exact .refl s

theorem le_finishCall (outer : EnvId) (result : CallResult) (v : Value) :
    s.Le (finishCall result v k (leaveCall outer s)).state := by
  cases result <;> exact ⟨id, Nat.le_refl _⟩

theorem le_defineClass (name : Name) (parent : Option Class) (methods : List Routine) :
    s.Le (defineClass name parent methods s) := by
  unfold defineClass
  refine State.Le.trans ?_ (State.le_define _ _ _)
  cases parent with
  | none => exact ⟨id, Nat.le_refl _⟩
  | some c =>
    have h := s.le_bind s.env Keyword.super.spelling (.class_ c)
    exact ⟨h.envs, h.cells⟩

theorem le_evalStep (e : Expr) : s.Le (evalStep e k s).state := by
  cases e with
  | «variable» site name | this site line =>
    unfold evalStep readName
    dsimp only
    repeat' split
    all_goals exact .refl s
  | super site line method =>
    unfold evalStep getSuper
    dsimp only
    split
    · split
      · exact le_giveMethod _ _
      · exact .refl s
    · exact .refl s
  | _ => exact .refl s

theorem le_execStep (stmt : Stmt) : s.Le (execStep stmt k s).state := by
  cases stmt with
  | var name init =>
    cases init with
    | none => exact (s.le_declare _).trans (State.le_define _ _ _)
    | some e => exact s.le_declare _
  | block body => exact (s.le_enter s.env).trans (le_sequence _)
  | function routine =>
    have h := s.le_declare routine.name.text
    unfold execStep
    refine State.Le.trans ?_ (State.le_define _ _ _)
    exact ⟨h.envs, h.cells⟩
  | return_ line value => cases value <;> exact .refl s
  | class_ name parent methods =>
    cases parent with
    | none => exact (s.le_declare name.text).trans (le_defineClass name none methods)
    | some parent => exact s.le_declare _
  | _ => exact .refl s

theorem le_resume (v : Value) (f : Frame) : s.Le (resume v f k s).state := by
  cases f with
  | unary op line | binaryRight op line left =>
    unfold resume giveOrRaise
    dsimp only
    split <;> exact .refl s
  | assign site name =>
    unfold resume writeName
    dsimp only
    repeat' split
    · exact ⟨id, by simp [give]⟩
    · exact ⟨id, Nat.le_refl _⟩
    · exact .refl s
  | callee line args => exact le_callWith _ _ _ _
  | argument line callee done rest => exact le_callWith _ _ _ _
  | get name =>
    unfold resume getProperty
    dsimp only
    split
    · split
      · exact .refl s
      · split
        · exact le_giveMethod _ _
        · exact .refl s
    · exact .refl s
  | var name => exact s.le_define _ _
  | superclass name line methods =>
    unfold resume
    dsimp only
    split
    · next c => exact le_defineClass name (some c) methods
    · exact .refl s
  | sequence rest => exact le_sequence _
  | call outer result => exact le_finishCall outer result .nil
  | _ =>
    unfold resume
    dsimp only
    repeat' split
    all_goals exact ⟨id, Nat.le_refl _⟩

theorem le_step (c : Config) : c.state.Le (step c).state := by
  obtain ⟨control, frames, s⟩ := c
  cases control with
  | eval e => exact le_evalStep e
  | exec stmt => exact le_execStep stmt
  | value v =>
    cases frames with
    | nil => exact .refl s
    | cons f k => exact le_resume v f
  | returning v =>
    cases frames with
    | nil => exact .refl s
    | cons f k =>
      cases f with
      | call outer result => exact le_finishCall outer result v
      | _ => exact ⟨id, Nat.le_refl _⟩
  | failing e =>
    cases frames with
    | nil => exact .refl s
    | cons f k => cases f <;> exact ⟨id, Nat.le_refl _⟩

theorem le_run (n : Nat) (c : Config) : c.state.Le (run n c).state := by
  induction n generalizing c with
  | zero => exact .refl c.state
  | succ n ih => exact (le_step c).trans (ih (step c))

end Le

/-- What an environment knows of a name does not depend on what is declared later, so a function
that has captured it never sees later names. -/
theorem cell?_run (n : Nat) (c : Config) {e : EnvId} (he : e < c.state.nextEnv) (name : String) :
    (run n c).state.cell? e name = c.state.cell? e name := by
  have hρ : c.state.envs[e]? = some c.state.envs[e] := Array.getElem?_eq_getElem he
  rw [State.cell?, State.cell?, (le_run n c).envs hρ, hρ]

end LoxLang.Lexical
