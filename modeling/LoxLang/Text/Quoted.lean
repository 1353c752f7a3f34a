/-!
# Quoted text

JSON strings: a quote and a backslash are escaped by a backslash, control characters by a letter or
by their code.
-/

namespace LoxLang.Quoted

/-- A digit in base sixteen. -/
def hexDigit (n : Nat) : Char := (Nat.digitChar n)

def encodeChar (c : Char) : List Char :=
  match c with
  | '"' => ['\\', '"']
  | '\\' => ['\\', '\\']
  | '\x08' => ['\\', 'b']
  | '\t' => ['\\', 't']
  | '\n' => ['\\', 'n']
  | '\x0c' => ['\\', 'f']
  | '\r' => ['\\', 'r']
  | c =>
    if c.toNat < 0x20 then
      ['\\', 'u', '0', '0', hexDigit (c.toNat / 16), hexDigit (c.toNat % 16)]
    else [c]

/-- The text between quotes. -/
def encode (s : String) : String :=
  .ofList ('"' :: s.toList.flatMap encodeChar ++ ['"'])

end LoxLang.Quoted
