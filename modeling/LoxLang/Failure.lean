/-!
# Failures of a run

A program may break a rule of the language or find its output full. Faults are breaches of what the
scoping analysis promises; they stop a run as well.
-/

namespace LoxLang

/-- Rules of the language that a program can break while it runs. -/
inductive RuntimeError where
  | operandNotNumber
  | operandsNotNumbers
  | operandsNotAddable
  | undefinedVariable (name : String)
  | undefinedProperty (name : String)
  | noProperties
  | noFields
  | notCallable
  | wrongArity (expected got : Nat)
  | superclassNotClass
  | superOutsideClass
  | stackOverflow
  deriving DecidableEq, Repr

def RuntimeError.message : RuntimeError → String
  | operandNotNumber => "Operand must be a number."
  | operandsNotNumbers => "Operands must be numbers."
  | operandsNotAddable => "Operands must be two numbers or two strings."
  | undefinedVariable name => "Undefined variable '" ++ name ++ "'."
  | undefinedProperty name => "Undefined property '" ++ name ++ "'."
  | noProperties => "Only instances have properties."
  | noFields => "Only instances have fields."
  | notCallable => "Can only call functions and classes."
  | wrongArity expected got =>
    "Expected " ++ toString expected ++ " arguments but got " ++ toString got ++ "."
  | superclassNotClass => "Superclass must be a class."
  | superOutsideClass => "Can't use 'super' outside of a class."
  | stackOverflow => "Stack overflow."

/-- Breaches of what the scoping analysis promises. -/
inductive Fault where
  /-- A scope lacks a name that should be in it. -/
  | missingName
  /-- There are fewer scopes around a use than its distance says. -/
  | missingScope
  /-- The name `super` does not stand for a class. -/
  | superNotClass
  /-- The name `this` does not stand for an object. -/
  | thisNotObject
  deriving DecidableEq, Repr

def Fault.message : Fault → String
  | missingName => "resolved variable missing from its scope"
  | missingScope => "resolver depth exceeds the scope chain"
  | superNotClass => "'super' is only ever bound to a class"
  | thisNotObject => "'this' is only ever bound to an instance"

/-- Why a run stops early. -/
inductive Failure where
  | error (e : RuntimeError) (line : Nat)
  | outputFull
  | fault (f : Fault)
  deriving DecidableEq, Repr

def Failure.text : Failure → String
  | error e line => e.message ++ "\n[line " ++ toString line ++ "]"
  | outputFull => "sink full"
  | fault f => f.message

end LoxLang
