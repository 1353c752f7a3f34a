import LoxLang.Grammar.Statement
import LoxLang.Machine.Run
import LoxLang.Scoping.Analysis

/-!
# Sessions

A session runs sources one after the other on one machine. Sites are numbered through all sources,
so that the bindings of one never meet those of another.
-/

namespace LoxLang

/-- Why a source is not run. -/
inductive Rejection where
  /-- It cannot be read: lexical faults, faults of grammar or both. -/
  | unreadable (lexical grammar : List Diagnostic)
  /-- It breaks scoping rules. -/
  | illScoped (faults : List Diagnostic)
  deriving DecidableEq, Repr

def Rejection.diagnostics : Rejection → List Diagnostic
  | unreadable lexical grammar => lexical ++ grammar
  | illScoped faults => faults

/-- Reads a source, with sites from `firstSite` on. The first site not handed out is given with
every result. -/
def readSource {α : Type} (read : List Token → Nat → Site → Grammar.Reading α) (source : String)
    (firstSite : Site) : Except Rejection α × Site :=
  let s := scan source
  let r := read s.tokens s.endLine firstSite
  let result := match r.result with
    | .ok a => if s.diagnostics.isEmpty then .ok a else .error (.unreadable s.diagnostics [])
    | .error ds => .error (.unreadable s.diagnostics ds)
  (result, r.nextSite)

structure Session where
  machine : Machine.State
  /-- The first site not handed out yet. -/
  nextSite : Site

namespace Session

/-- What became of a source. -/
inductive Report where
  | rejected (r : Rejection)
  | ended (o : Machine.Outcome)
  /-- The steps did not suffice. -/
  | unfinished

def start (clock : Clock) (room : Option Room) : Session := ⟨.initial clock room, 0⟩

/-- The text printed since the output was last cleared. -/
def printed (s : Session) : String := s.machine.output.text

/-- Forgets the text printed so far. -/
def clearOutput (s : Session) : Session :=
  { s with machine := { s.machine with output := s.machine.output.clear } }

/-- Sets the clock. -/
def setClock (reading : Nat → Float) (s : Session) : Session :=
  { s with machine := s.machine.setClock reading }

/-- Reads a source as one expression. -/
def readExpression (s : Session) (source : String) : Except Rejection Expr × Session :=
  let (result, nextSite) := readSource Grammar.readExpression source s.nextSite
  (result, { s with nextSite := nextSite })

/-- Reads a source as a program. Unless `tied` is false, its names are tied to their scopes and
the ties added to the machine. -/
def readProgram (s : Session) (source : String) (tied : Bool) :
    Except Rejection Program × Session :=
  let (result, nextSite) := readSource Grammar.readProgram source s.nextSite
  let s := { s with nextSite := nextSite }
  match result with
  | .error r => (.error r, s)
  | .ok p =>
    if tied then
      match Scoping.analyse p with
      | .error ds => (.error (.illScoped ds), s)
      | .ok ties => (.ok p, { s with machine := s.machine.addBindings ties })
    else (.ok p, s)

/-- A session whose machine went on to a configuration, and what this configuration says. -/
def continueWith (s : Session) (c : Machine.Config) : Report × Session :=
  let report := match c.outcome? with
    | some o => .ended o
    | none => .unfinished
  (report, { s with machine := c.state })

/-- Evaluates a source as an expression. Its names are not tied to scopes, so all are global. -/
def evaluate (steps : Nat) (s : Session) (source : String) : Report × Session :=
  match s.readExpression source with
  | (.error r, s) => (.rejected r, s)
  | (.ok e, s) => s.continueWith (Machine.run steps (s.machine.evaluating e))

/-- Runs a source as a program, with or without tying its names to scopes. -/
def interpret (steps : Nat) (s : Session) (source : String) (tied : Bool) : Report × Session :=
  match s.readProgram source tied with
  | (.error r, s) => (.rejected r, s)
  | (.ok p, s) => s.continueWith (Machine.run steps (s.machine.interpreting p))

/-- Runs a source. -/
def run (steps : Nat) (s : Session) (source : String) : Report × Session :=
  s.interpret steps source true

/-- Executes statements one by one up to the first that fails. -/
def executeEach (steps : Nat) (s : Session) : Program → List Report × Session
  | [] => ([], s)
  | stmt :: rest =>
    match s.continueWith (Machine.run steps (s.machine.executing stmt)) with
    | (.ended (.value v), s) =>
      let (reports, s) := executeEach steps s rest
      (.ended (.value v) :: reports, s)
    | (.ended (.returned v), s) =>
      let (reports, s) := executeEach steps s rest
      (.ended (.returned v) :: reports, s)
    | (report, s) => ([report], s)

/-- Executes the statements of a source one by one, with a report for each. -/
def execute (steps : Nat) (s : Session) (source : String) (tied : Bool) :
    Except Rejection (List Report) × Session :=
  match s.readProgram source tied with
  | (.error r, s) => (.error r, s)
  | (.ok p, s) =>
    let (reports, s) := s.executeEach steps p
    (.ok reports, s)

end Session

end LoxLang
