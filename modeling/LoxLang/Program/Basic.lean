import LoxLang.Token.Basic

/-!
# Programs

Expressions, statements and routines. A node keeps the lines that a later message may show. Each
use of a name that has to be looked up, and each `this` and `super`, has a number of its own, its
site, under which the distance to the declaration is recorded.
-/

namespace LoxLang

/-- An identifier as it stands in the source. -/
structure Name where
  text : String
  line : Nat
  deriving DecidableEq, Repr

/-- The number of a use of a name. -/
abbrev Site := Nat

inductive Literal where
  | nil
  | bool (b : Bool)
  | number (x : Float)
  | string (s : String)
  deriving DecidableEq, Repr

inductive UnaryOp where
  | negate
  | not
  deriving DecidableEq, Repr

inductive BinaryOp where
  | add | subtract | multiply | divide
  | equal | notEqual
  | greater | greaterEqual | less | lessEqual
  deriving DecidableEq, Repr

inductive LogicalOp where
  | and
  | or
  deriving DecidableEq, Repr

def UnaryOp.mark : UnaryOp → Mark
  | negate => .minus
  | not => .bang

def BinaryOp.mark : BinaryOp → Mark
  | add => .plus
  | subtract => .minus
  | multiply => .star
  | divide => .slash
  | equal => .equalEqual
  | notEqual => .bangEqual
  | greater => .greater
  | greaterEqual => .greaterEqual
  | less => .less
  | lessEqual => .lessEqual

def LogicalOp.keyword : LogicalOp → Keyword
  | and => .and
  | or => .or

/-- Expressions. The line of an operator, of the closing parenthesis of a call and of a keyword is
kept. -/
inductive Expr where
  | literal (value : Literal)
  | group (inner : Expr)
  | unary (op : UnaryOp) (line : Nat) (operand : Expr)
  | binary (op : BinaryOp) (line : Nat) (left right : Expr)
  | logical (op : LogicalOp) (line : Nat) (left right : Expr)
  | variable (site : Site) (name : Name)
  | assign (site : Site) (name : Name) (value : Expr)
  | call (callee : Expr) (line : Nat) (args : List Expr)
  | get (object : Expr) (name : Name)
  | set (object : Expr) (name : Name) (value : Expr)
  | this (site : Site) (line : Nat)
  | super (site : Site) (line : Nat) (method : Name)
  deriving Repr

/-- The class that a class declaration names as its superclass. -/
structure Superclass where
  site : Site
  name : Name
  deriving DecidableEq, Repr

mutual

/-- Statements. There is no `for`: it is read as a block with a `while`. -/
inductive Stmt where
  | expression (e : Expr)
  | print (e : Expr)
  | var (name : Name) (init : Option Expr)
  | block (body : List Stmt)
  | if_ (condition : Expr) (then_ : Stmt) (else_ : Option Stmt)
  | while_ (condition : Expr) (body : Stmt)
  | function (routine : Routine)
  | return_ (line : Nat) (value : Option Expr)
  | class_ (name : Name) (superclass : Option Superclass) (methods : List Routine)

/-- A named function or method. -/
inductive Routine where
  | mk (name : Name) (params : List Name) (body : List Stmt)

end

namespace Routine

def name : Routine → Name
  | mk name _ _ => name

def params : Routine → List Name
  | mk _ params _ => params

def body : Routine → List Stmt
  | mk _ _ body => body

def arity (r : Routine) : Nat := r.params.length

/-- The name of the method that initializes an object. -/
def initName : String := "init"

/-- Whether a method of this name initializes an object. -/
def isInit (r : Routine) : Bool := r.name.text == initName

end Routine

/-- The statements of a whole source. -/
abbrev Program := List Stmt

end LoxLang
