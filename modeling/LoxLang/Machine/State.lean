import LoxLang.Scoping.Table
import LoxLang.Store

/-!
# The state of a run

Beside the store, a run has a current scope, the depth of its calls, the table of bindings, the
output and a clock.
-/

namespace LoxLang

/-- What a limited output still takes. -/
inductive Room where
  /-- Lines, as long as fewer newlines were printed. -/
  | newlines (n : Nat)
  /-- A number of lines, with any newlines in them. -/
  | prints (n : Nat)
  deriving DecidableEq, Repr

namespace Room

/-- What is left after a line. It is refused as a whole. -/
def take? (line : String) : Room → Option Room
  | newlines 0 => none
  | newlines (n + 1) => some (newlines (n - line.toList.count '\n'))
  | prints 0 => none
  | prints (n + 1) => some (prints n)

/-- A number limits the newlines. -/
instance : Coe (Option Nat) (Option Room) := ⟨.map newlines⟩

end Room

/-- Printed text, and what the output still takes; without a limit it takes everything. -/
structure Output where
  lines : List String
  room : Option Room
  deriving DecidableEq, Repr

namespace Output

/-- Adds a line, if it is not refused. The last line printed stands first. -/
def print? (o : Output) (line : String) : Option Output :=
  match o.room with
  | none => some { o with lines := line :: o.lines }
  | some room => (room.take? line).map fun left => ⟨line :: o.lines, some left⟩

/-- The whole text printed. -/
def text (o : Output) : String := String.join (o.lines.reverse.map fun line => line ++ "\n")

/-- The output without the text printed so far. -/
def clear (o : Output) : Output := { o with lines := [] }

end Output

/-- A clock, with the readings that it gives in their order. -/
structure Clock where
  /-- Seconds since 1970. -/
  reading : Nat → Float
  /-- The number of readings that were taken. -/
  taken : Nat

namespace Clock

/-- A clock that stands still. -/
def steady (seconds : Float) : Clock := ⟨fun _ => seconds, 0⟩

instance : Coe Float Clock := ⟨steady⟩

/-- The reading that is taken next. -/
def now (c : Clock) : Float := c.reading c.taken

/-- The clock after a reading. -/
def next (c : Clock) : Clock := { c with taken := c.taken + 1 }

/-- The clock with other readings from now on. -/
def set (reading : Nat → Float) (c : Clock) : Clock := { c with reading := reading }

end Clock

namespace Machine

/-- The deepest nesting of calls. -/
def maxDepth : Nat := 4096

/-- The number of the global scope. -/
def globalScope : ScopeId := 0

structure State where
  store : Store
  /-- The current scope. -/
  scope : ScopeId
  /-- The number of calls that are not finished. -/
  depth : Nat
  table : BindingTable
  output : Output
  clock : Clock

namespace State

/-- A machine that has not run anything. The global scope holds the native functions. -/
def initial (clock : Clock) (room : Option Room) : State where
  store := Store.empty.addScope none [("clock", .native .clock)]
  scope := globalScope
  depth := 0
  table := .empty
  output := ⟨[], room⟩
  clock := clock

def setClock (reading : Nat → Float) (s : State) : State :=
  { s with clock := s.clock.set reading }

def addBindings (s : State) (ties : List (Site × Nat)) : State :=
  { s with table := s.table.insertAll ties }

/-- Gives a name a value in the current scope. -/
def define (s : State) (name : String) (value : Value) : State :=
  { s with store := s.store.define s.scope name value }

end State

end Machine

end LoxLang
