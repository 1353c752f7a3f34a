import LoxLang.Program.Text
import LoxLang.Session
import LoxLang.Text.Utf8
import LoxLang.Token.Listing

/-!
# Commands

The commands of the command line, as functions from what is read to what is written.
-/

namespace LoxLang

/-- What a command writes and how it exits. -/
structure Answer where
  exit : Nat
  stdout : String
  stderr : String
  deriving DecidableEq, Repr

inductive Command where
  | tokenize (file : String) (json : Bool)
  | parse (file : String)
  | evaluate (file : String)
  | run (file : String)
  /-- Runs the lines of the standard input. -/
  | prompt
  deriving DecidableEq, Repr

namespace Command

/-- The command that arguments ask for. Logging may be asked for anywhere. -/
def ofArgs? (args : List String) : Option Command :=
  let words := args.filter (· != "--log")
  let json := words.contains "--json"
  match words.filter (· != "--json") with
  | ["tokenize", file] => some (tokenize file json)
  | ["parse", file] => if json then none else some (parse file)
  | ["evaluate", file] => if json then none else some (evaluate file)
  | ["run", file] => if json then none else some (run file)
  | ["run"] => if json then none else some prompt
  | _ => none

/-- The file that a command reads. -/
def file? : Command → Option String
  | tokenize file _ => some file
  | parse file => some file
  | evaluate file => some file
  | run file => some file
  | prompt => none

end Command

namespace Answer

/-- The source is not acceptable. -/
def exitRejected : Nat := 65

/-- The program failed. -/
def exitFailed : Nat := 70

/-- Something could not be read. -/
def exitUnread : Nat := 1

/-- Text that ends with a newline. -/
def line (text : String) : String := text ++ "\n"

/-- Diagnostics, one per line. -/
def report (ds : List Diagnostic) : String := String.join (ds.map fun d => line d.text)

def rejected (r : Rejection) : Answer := ⟨exitRejected, "", report r.diagnostics⟩

/-- An error with its cause. -/
def unread (problem cause : String) : Answer :=
  ⟨exitUnread, "", "Error: " ++ problem ++ "\n\nCaused by:\n    " ++ cause ++ "\n"⟩

/-- A file that does not exist. -/
def missingFile (file : String) : Answer :=
  unread ("Failed to open file \"" ++ file ++ "\"") "No such file or directory (os error 2)"

/-- A file that is not text. -/
def malformedFile (file : String) (m : Utf8.Malformed) : Answer :=
  unread ("File \"" ++ file ++ "\" is not valid UTF-8") m.message

/-- Lists the tokens of a source. -/
def tokenize (source : String) (json : Bool) : Answer :=
  let s := scan source
  let listing := if json then line s.jsonListing else s.listing
  ⟨if s.diagnostics.isEmpty then 0 else exitRejected, listing, report s.diagnostics⟩

/-- Shows the tree of an expression. -/
def parse (source : String) : Answer :=
  match readSource Grammar.readExpression source 0 with
  | (.ok e, _) => ⟨0, line e.text, ""⟩
  | (.error r, _) => rejected r

/-- What a finished run of a session leaves to write, beside what it printed. -/
def ofReport : Session.Report → Answer
  | .rejected r => rejected r
  | .ended (.failed f) => ⟨exitFailed, "", line f.text⟩
  | .ended _ => ⟨0, "", ""⟩
  | .unfinished => ⟨0, "", ""⟩

/-- Shows the value of an expression. -/
def evaluate (steps : Nat) (clock : Clock) (source : String) : Answer :=
  match (Session.start clock none).evaluate steps source with
  | (.ended (.value v), s) => ⟨0, s.printed ++ line v.text, ""⟩
  | (report, s) =>
    let a := ofReport report
    { a with stdout := s.printed }

/-- Runs a program. -/
def run (steps : Nat) (clock : Clock) (source : String) : Answer :=
  let (report, s) := (Session.start clock none).run steps source
  { ofReport report with stdout := s.printed }

end Answer

/-! ## The prompt -/

namespace Prompt

def mark : String := "> "

/-- Splits bytes into lines. A carriage return before a newline belongs to the end of the line; the
last line may lack a newline. -/
def linesFrom (current : List UInt8) : List UInt8 → List (List UInt8)
  | [] => if current.isEmpty then [] else [current.reverse]
  | b :: bs =>
    if b = 10 then
      let line := match current with
        | 13 :: rest => rest.reverse
        | _ => current.reverse
      line :: linesFrom [] bs
    else linesFrom (b :: current) bs

def lines (input : List UInt8) : List (List UInt8) := linesFrom [] input

/-- What is written to the error output after a line was run. -/
def complaint : Session.Report → String
  | .rejected r => Answer.line (Diagnostic.texts r.diagnostics)
  | .ended (.failed f) => Answer.line f.text
  | _ => ""

/-- A line that is not text ends the prompt. -/
def unreadLine : Answer :=
  Answer.unread "Failed to read from stdin" "stream did not contain valid UTF-8"

/-- Runs lines one after the other in a session. The answer starts with what was written before. -/
def answer (steps : Nat) (s : Session) (stdout stderr : String) : List (List UInt8) → Answer
  | [] => ⟨0, stdout ++ mark ++ "\n", stderr⟩
  | line :: rest =>
    match Utf8.decode line with
    | .error _ => { unreadLine with stdout := stdout ++ mark, stderr := stderr ++ unreadLine.stderr }
    | .ok source =>
      let (report, s) := s.run steps source
      answer steps s.clearOutput (stdout ++ mark ++ s.printed) (stderr ++ complaint report) rest

end Prompt

namespace Command

/-- What a command does with the text of its file. -/
def onSource (steps : Nat) (clock : Clock) (source : String) : Command → Answer
  | tokenize _ json => .tokenize source json
  | parse _ => .parse source
  | evaluate _ => .evaluate steps clock source
  | run _ => .run steps clock source
  | prompt => ⟨0, "", ""⟩

/-- Carries out a command, given the bytes of its file and of the standard input. -/
def answer (steps : Nat) (clock : Clock) (file : Option (List UInt8)) (stdin : List UInt8)
    (c : Command) : Answer :=
  match c.file? with
  | none => Prompt.answer steps (.start clock none) "" "" (Prompt.lines stdin)
  | some name =>
    match file with
    | none => .missingFile name
    | some bytes =>
      match Utf8.decode bytes with
      | .error m => .malformedFile name m
      | .ok source => c.onSource steps clock source

end Command

end LoxLang
