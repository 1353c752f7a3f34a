import LoxLang.Diagnostic
import LoxLang.Program.Basic

/-!
# Reading tokens

A cursor stands before the tokens that are still to be read. A reader takes tokens from it, hands
out sites and reports faults; when it fails, the cursor stays where the failure was found.
-/

namespace LoxLang.Grammar

structure Cursor where
  /-- The tokens that are still to be read. -/
  rest : List Token
  /-- The line on which the source ends. -/
  endLine : Nat
  /-- The first site that is not handed out yet. -/
  nextSite : Site
  /-- The faults found so far, first to last. -/
  reported : List Diagnostic

namespace Cursor

/-- The place of the next token. -/
def place (c : Cursor) : Place :=
  match c.rest with
  | [] => .atEnd c.endLine
  | t :: _ => t.place

/-- The kind of the next token. -/
def kind? (c : Cursor) : Option Token.Kind := c.rest.head?.map (·.kind)

end Cursor

abbrev Reader := EStateM Diagnostic Cursor

namespace Reader

/-- Fails at the next token. -/
def fail {α : Type} (what : Expected) : Reader α := fun c =>
  .error (.grammar (.expected what) c.place) c

/-- Notes a fault and goes on. -/
def report (d : Diagnostic) : Reader Unit := fun c =>
  .ok () { c with reported := c.reported ++ [d] }

/-- Notes a fault at the next token and goes on. -/
def reportHere (fault : GrammarFault) : Reader Unit := fun c =>
  report (.grammar fault c.place) c

def freshSite : Reader Site := fun c =>
  .ok c.nextSite { c with nextSite := c.nextSite + 1 }

/-- Whether the next token is of a kind. -/
def isNext (kind : Token.Kind) : Reader Bool := fun c => .ok (c.kind? = some kind) c

def isAtEnd : Reader Bool := fun c => .ok c.rest.isEmpty c

/-- Takes the next token if a test gives a result for it. -/
def takeIf? {α : Type} (test : Token → Option α) : Reader (Option α) := fun c =>
  match c.rest with
  | [] => .ok none c
  | t :: rest =>
    match test t with
    | some a => .ok (some a) { c with rest := rest }
    | none => .ok none c

/-- Takes the next token if it is of a kind. -/
def take? (kind : Token.Kind) : Reader (Option Token) :=
  takeIf? fun t => if t.kind = kind then some t else none

def takeMark? (m : Mark) : Reader (Option Token) := take? (.mark m)

def takeKeyword? (k : Keyword) : Reader (Option Token) := take? (.keyword k)

/-- Takes a mark that has to come next. -/
def expectMark (m : Mark) (what : Expected) : Reader Token := do
  match ← takeMark? m with
  | some t => return t
  | none => fail what

/-- Takes an identifier that has to come next. -/
def expectName (what : Expected) : Reader Name := do
  match ← take? .identifier with
  | some t => return ⟨t.lexeme, t.line⟩
  | none => fail what

end Reader

/-- A bound on the nesting of readers for the tokens that are left. Between two tokens a reader
calls at most eleven others before it takes a token. -/
def Cursor.depth (c : Cursor) : Nat := 16 * (c.rest.length + 1)

/-- The outcome of reading a whole source: the result or all faults, and the first site that was
not handed out. -/
structure Reading (α : Type) where
  result : Except (List Diagnostic) α
  nextSite : Site

namespace Reading

/-- Reads from the first token on. A result counts only if no fault was reported. -/
def of {α : Type} (reader : Reader α) (tokens : List Token) (endLine : Nat) (firstSite : Site) :
    Reading α :=
  match reader ⟨tokens, endLine, firstSite, []⟩ with
  | .ok a c => ⟨if c.reported.isEmpty then .ok a else .error c.reported, c.nextSite⟩
  | .error d c => ⟨.error (c.reported ++ [d]), c.nextSite⟩

end Reading

end LoxLang.Grammar
