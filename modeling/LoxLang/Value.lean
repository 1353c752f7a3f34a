import LoxLang.Bindings
import LoxLang.Number.Text
import LoxLang.Program.Basic

/-!
# Values

What expressions evaluate to. Functions, classes and objects are told apart by an identity that each
of them gets when it is made. Classes and functions never change; the fields of an object are kept
in the store.
-/

namespace LoxLang

/-- The number of a scope in the store. -/
abbrev ScopeId := Nat

/-- The number of an object in the store. -/
abbrev ObjectId := Nat

/-- A routine with the scope around it. -/
structure Closure where
  routine : Routine
  scope : ScopeId
  isInitializer : Bool

/-- A class with the methods declared in it. -/
inductive Class where
  | mk (identity : Nat) (name : String) (superclass : Option Class) (methods : Bindings Closure)

namespace Class

def identity : Class → Nat
  | mk identity _ _ _ => identity

def name : Class → String
  | mk _ name _ _ => name

def superclass : Class → Option Class
  | mk _ _ superclass _ => superclass

/-- The method with a given name, of the class itself or else of the nearest class above it. -/
def method? (name : String) : Class → Option Closure
  | mk _ _ none methods => methods.get? name
  | mk _ _ (some parent) methods =>
    match methods.get? name with
    | some m => some m
    | none => method? name parent

end Class

/-- Functions that come with the language. -/
inductive Native where
  | clock
  deriving DecidableEq, Repr

inductive Value where
  | nil
  | bool (b : Bool)
  | number (x : Float)
  | string (s : String)
  | native (f : Native)
  | function (identity : Nat) (closure : Closure)
  | class_ (c : Class)
  | object (id : ObjectId) (c : Class)

def Literal.value : Literal → Value
  | nil => .nil
  | bool b => .bool b
  | number x => .number x
  | string s => .string s

namespace Value

/-- Only `nil` and `false` count as false. -/
def isTruthy : Value → Bool
  | nil => false
  | bool b => b
  | _ => true

/-- Equality as programs see it. Values of different types differ, numbers compare as doubles do,
and functions, classes and objects by identity. -/
def equals : Value → Value → Bool
  | nil, nil => true
  | bool a, bool b => a == b
  | number x, number y => x == y
  | string s, string t => s == t
  | native f, native g => f == g
  | function i _, function j _ => i == j
  | class_ c, class_ d => c.identity == d.identity
  | object i _, object j _ => i == j
  | _, _ => false

def typeName : Value → String
  | nil => "nil"
  | bool _ => "boolean"
  | number _ => "number"
  | string _ => "string"
  | native _ => "function"
  | function _ _ => "function"
  | class_ _ => "class"
  | object _ _ => "instance"

/-- What printing a value shows. -/
def text : Value → String
  | nil => "nil"
  | bool true => "true"
  | bool false => "false"
  | number x => Number.printed x
  | string s => s
  | native _ => "<native fn>"
  | function _ closure => "<fn " ++ closure.routine.name.text ++ ">"
  | class_ c => c.name
  | object _ c => c.name ++ " instance"

end Value

end LoxLang
