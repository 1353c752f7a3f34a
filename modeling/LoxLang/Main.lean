import LoxLang.Command
import Std.Time.DateTime.Timestamp

/-!
# The command line

Reads files and the standard input, keeps the clock, and writes what the commands answer. A program
runs in stretches; between two of them its output is written and the clock is read.
-/

namespace LoxLang.CommandLine

/-- Seconds since 1970, to the microsecond. -/
def now : IO Float := do
  let t ← Std.Time.Timestamp.now
  return Float.ofInt (t.toNanosecondsSinceUnixEpoch.val / 1000) / 1000000.0

/-- The steps of one stretch. -/
def stretchLength : Nat := 100000

/-- Steps enough for an expression, in which nothing is repeated. -/
def ample : Nat := .pow 2 62

def write (stream : BaseIO IO.FS.Stream) (text : String) : IO Unit := do
  let stream ← stream
  stream.putStr text
  stream.flush

/-- Runs a machine to its end. -/
partial def finish (c : Machine.Config) : IO Machine.Config := do
  let seconds ← now
  let c := Machine.stretch stretchLength (fun _ => seconds) c
  write IO.getStdout c.state.output.text
  if c.outcome?.isSome then return c else finish c

/-- Runs a source in a session. -/
def runSource (s : Session) (source : String) : IO (Session.Report × Session) := do
  match s.readProgram source true with
  | (.error r, s) => return (.rejected r, s)
  | (.ok p, s) =>
    let (report, s) := s.continueWith (← finish (s.machine.interpreting p))
    return (report, s.clearOutput)

/-- Writes an answer and gives its exit code. -/
def deliver (a : Answer) : IO UInt32 := do
  write IO.getStdout a.stdout
  write IO.getStderr a.stderr
  return a.exit.toUInt32

/-- Reads bytes up to a newline or the end of the input. -/
partial def readLine (input : IO.FS.Stream) (line : ByteArray) : IO ByteArray := do
  let b ← input.read 1
  if b.isEmpty then return line
  else if b.toList = [10] then return line ++ b
  else readLine input (line ++ b)

/-- Runs the lines of the standard input as they come in. -/
partial def prompt (s : Session) : IO UInt32 := do
  write IO.getStdout Prompt.mark
  let bytes ← readLine (← IO.getStdin) .empty
  match Prompt.lines bytes.toList with
  | [] => deliver ⟨0, "\n", ""⟩
  | line :: _ =>
    match Utf8.decode line with
    | .error _ => deliver Prompt.unreadLine
    | .ok source =>
      let (report, s) ← runSource s source
      write IO.getStderr (Prompt.complaint report)
      prompt s

/-- The bytes of a file, or nothing if there is none. -/
def readFile? (file : String) : IO (Option (List UInt8)) := do
  try
    return some (← IO.FS.readBinFile file).toList
  catch
    | .noFileOrDirectory .. => return none
    | e => throw e

/-- Carries out a command. -/
def perform (c : Command) : IO UInt32 := do
  let start := Session.start (← now) none
  match c.file? with
  | none => prompt start
  | some file =>
    match ← readFile? file with
    | none => deliver (.missingFile file)
    | some bytes =>
      match Utf8.decode bytes, c with
      | .error m, _ => deliver (.malformedFile file m)
      | .ok source, .run _ =>
        let (report, _) ← runSource start source
        deliver (.ofReport report)
      | .ok source, c => deliver (c.onSource ample (← now) source)

end LoxLang.CommandLine

def main (args : List String) : IO UInt32 := do
  match LoxLang.Command.ofArgs? args with
  | some c => LoxLang.CommandLine.perform c
  | none =>
    LoxLang.CommandLine.write IO.getStderr
      "usage: tokenize FILE [--json] | parse FILE | evaluate FILE | run [FILE]\n"
    return 2
