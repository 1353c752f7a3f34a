import LoxLang.Number.Text
import LoxLang.Text.Quoted
import LoxLang.Token.Scan

/-!
# Token listings

A listing has an entry for each token and one for the end of the text. An entry is shown as a line
of text or as a JSON object, alone on one line or as an element of an indented array.
-/

namespace LoxLang

/-- One row of a listing. The end of the text has no kind. -/
structure ListEntry where
  kind : Option Token.Kind
  lexeme : String
  line : Nat
  deriving DecidableEq, Repr

namespace ListEntry

def ofToken (t : Token) : ListEntry := ⟨some t.kind, t.lexeme, t.line⟩

def ofEnd (line : Nat) : ListEntry := ⟨none, "", line⟩

def name (e : ListEntry) : String :=
  match e.kind with
  | some k => k.name
  | none => "EOF"

/-- The literal value of an entry. -/
def literal (e : ListEntry) : String :=
  match e.kind with
  | some (.string contents) => contents
  | some (.number x) => Number.listed x
  | _ => "null"

def text (e : ListEntry) : String := e.name ++ " " ++ e.lexeme ++ " " ++ e.literal

/-- The JSON value of a literal. -/
def payload? (e : ListEntry) : Option String :=
  match e.kind with
  | some (.string contents) => some (Quoted.encode contents)
  | some (.number x) => some (Number.inJson x)
  | _ => none

/-- A JSON object on one line. -/
def json (e : ListEntry) : String :=
  let name := Quoted.encode e.name
  let type := match e.payload? with
    | some value => "\x7b" ++ name ++ ":" ++ value ++ "\x7d"
    | none => name
  "\x7b\"token_type\":" ++ type ++ ",\"lexeme\":" ++ Quoted.encode e.lexeme ++
    ",\"line\":" ++ toString e.line ++ "\x7d"

/-- A JSON object as an element of an array, indented by two blanks for each level. -/
def indentedJson (e : ListEntry) : String :=
  let name := Quoted.encode e.name
  let type := match e.payload? with
    | some value => "\x7b\n      " ++ name ++ ": " ++ value ++ "\n    \x7d"
    | none => name
  "  \x7b\n    \"token_type\": " ++ type ++ ",\n    \"lexeme\": " ++ Quoted.encode e.lexeme ++
    ",\n    \"line\": " ++ toString e.line ++ "\n  \x7d"

end ListEntry

namespace Scan

def entries (s : Scan) : List ListEntry :=
  s.tokens.map .ofToken ++ [.ofEnd s.endLine]

/-- The listing as lines of text. -/
def listing (s : Scan) : String :=
  String.join (s.entries.map fun e => e.text ++ "\n")

/-- The listing as an indented JSON array. -/
def jsonListing (s : Scan) : String :=
  "[\n" ++ ",\n".intercalate (s.entries.map (·.indentedJson)) ++ "\n]"

end Scan

end LoxLang
