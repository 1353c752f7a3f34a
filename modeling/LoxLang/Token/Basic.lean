/-!
# Tokens

The words and marks that source text is made of. A token keeps its spelling and the line on which
it ends; literals also carry their value.
-/

namespace LoxLang

/-- Punctuation and operators. -/
inductive Mark where
  | leftParen | rightParen | leftBrace | rightBrace
  | comma | dot | minus | plus | semicolon | slash | star
  | bang | bangEqual | equal | equalEqual
  | greater | greaterEqual | less | lessEqual
  deriving DecidableEq, Repr

/-- Reserved words. -/
inductive Keyword where
  | and | class_ | else_ | false_ | fun_ | for_ | if_ | nil
  | or | print | return_ | super | this | true_ | var | while_
  deriving DecidableEq, Repr

namespace Mark

def spelling : Mark → String
  | leftParen => "("
  | rightParen => ")"
  | leftBrace => "\x7b"
  | rightBrace => "\x7d"
  | comma => ","
  | dot => "."
  | minus => "-"
  | plus => "+"
  | semicolon => ";"
  | slash => "/"
  | star => "*"
  | bang => "!"
  | bangEqual => "!="
  | equal => "="
  | equalEqual => "=="
  | greater => ">"
  | greaterEqual => ">="
  | less => "<"
  | lessEqual => "<="

def name : Mark → String
  | leftParen => "LEFT_PAREN"
  | rightParen => "RIGHT_PAREN"
  | leftBrace => "LEFT_BRACE"
  | rightBrace => "RIGHT_BRACE"
  | comma => "COMMA"
  | dot => "DOT"
  | minus => "MINUS"
  | plus => "PLUS"
  | semicolon => "SEMICOLON"
  | slash => "SLASH"
  | star => "STAR"
  | bang => "BANG"
  | bangEqual => "BANG_EQUAL"
  | equal => "EQUAL"
  | equalEqual => "EQUAL_EQUAL"
  | greater => "GREATER"
  | greaterEqual => "GREATER_EQUAL"
  | less => "LESS"
  | lessEqual => "LESS_EQUAL"

/-- The mark that a character is by itself. -/
def ofChar? : Char → Option Mark
  | '(' => some leftParen
  | ')' => some rightParen
  | '\x7b' => some leftBrace
  | '\x7d' => some rightBrace
  | ',' => some comma
  | '.' => some dot
  | '-' => some minus
  | '+' => some plus
  | ';' => some semicolon
  | '/' => some slash
  | '*' => some star
  | '!' => some bang
  | '=' => some equal
  | '>' => some greater
  | '<' => some less
  | _ => none

/-- The mark that a character makes together with an equals sign after it. -/
def withEqual? : Mark → Option Mark
  | bang => some bangEqual
  | equal => some equalEqual
  | greater => some greaterEqual
  | less => some lessEqual
  | _ => none

end Mark

namespace Keyword

def spelling : Keyword → String
  | and => "and"
  | class_ => "class"
  | else_ => "else"
  | false_ => "false"
  | fun_ => "fun"
  | for_ => "for"
  | if_ => "if"
  | nil => "nil"
  | or => "or"
  | print => "print"
  | return_ => "return"
  | super => "super"
  | this => "this"
  | true_ => "true"
  | var => "var"
  | while_ => "while"

def name : Keyword → String
  | and => "AND"
  | class_ => "CLASS"
  | else_ => "ELSE"
  | false_ => "FALSE"
  | fun_ => "FUN"
  | for_ => "FOR"
  | if_ => "IF"
  | nil => "NIL"
  | or => "OR"
  | print => "PRINT"
  | return_ => "RETURN"
  | super => "SUPER"
  | this => "THIS"
  | true_ => "TRUE"
  | var => "VAR"
  | while_ => "WHILE"

def all : List Keyword :=
  [and, class_, else_, false_, fun_, for_, if_, nil,
    or, print, return_, super, this, true_, var, while_]

/-- The keyword with the given spelling. -/
def ofSpelling? (word : String) : Option Keyword :=
  all.find? fun k => k.spelling == word

end Keyword

namespace Token

/-- What a token is, with the value of a literal. -/
inductive Kind where
  | mark (m : Mark)
  | keyword (k : Keyword)
  | identifier
  | string (contents : String)
  | number (value : Float)
  deriving DecidableEq, Repr

def Kind.name : Kind → String
  | .mark m => m.name
  | .keyword k => k.name
  | .identifier => "IDENTIFIER"
  | .string _ => "STRING"
  | .number _ => "NUMBER"

end Token

structure Token where
  kind : Token.Kind
  lexeme : String
  line : Nat
  deriving DecidableEq, Repr

end LoxLang
