import LoxLang.Token.Scan

/-!
# Diagnostics

What is wrong with a source before it runs: a lexical fault, a fault of its grammar or a breach of
the scoping rules, each with the place that is shown.
-/

namespace LoxLang

/-- What a routine is called in messages. -/
inductive RoutineKind where
  | function
  | method
  deriving DecidableEq, Repr

def RoutineKind.word : RoutineKind → String
  | function => "function"
  | method => "method"

/-- What the grammar demands at a place. -/
inductive Expected where
  | expression
  | endOfExpression
  | className
  | superclassName
  | classBody
  | classEnd
  | routineName (kind : RoutineKind)
  | parameters (kind : RoutineKind)
  | parameterName
  | parametersEnd
  | routineBody (kind : RoutineKind)
  | variableName
  | variableEnd
  | forClauses
  | forConditionEnd
  | forClausesEnd
  | ifCondition
  | ifConditionEnd
  | printEnd
  | returnEnd
  | whileCondition
  | whileConditionEnd
  | expressionEnd
  | blockEnd
  | argumentsEnd
  | propertyName
  | superDot
  | superMethod
  | groupEnd
  deriving DecidableEq, Repr

def Expected.phrase : Expected → String
  | expression => "expression"
  | endOfExpression => "end of expression"
  | className => "class name"
  | superclassName => "superclass name"
  | classBody => "'\x7b' before class body"
  | classEnd => "'\x7d' after class body"
  | routineName kind => kind.word ++ " name"
  | parameters kind => "'(' after " ++ kind.word ++ " name"
  | parameterName => "parameter name"
  | parametersEnd => "')' after parameters"
  | routineBody kind => "'\x7b' before " ++ kind.word ++ " body"
  | variableName => "variable name"
  | variableEnd => "';' after variable declaration"
  | forClauses => "'(' after 'for'"
  | forConditionEnd => "';' after loop condition"
  | forClausesEnd => "')' after for clauses"
  | ifCondition => "'(' after 'if'"
  | ifConditionEnd => "')' after if condition"
  | printEnd => "';' after value"
  | returnEnd => "';' after return value"
  | whileCondition => "'(' after 'while'"
  | whileConditionEnd => "')' after condition"
  | expressionEnd => "';' after expression"
  | blockEnd => "'\x7d' after block"
  | argumentsEnd => "')' after arguments"
  | propertyName => "property name after '.'"
  | superDot => "'.' after 'super'"
  | superMethod => "superclass method name"
  | groupEnd => "')' after expression"

/-- The most parameters of a routine and arguments of a call. -/
def maxArity : Nat := 255

/-- What is wrong with the order of tokens. -/
inductive GrammarFault where
  | expected (what : Expected)
  | tooManyParameters
  | tooManyArguments
  | invalidAssignmentTarget
  deriving DecidableEq, Repr

def GrammarFault.message : GrammarFault → String
  | expected what => "Expect " ++ what.phrase ++ "."
  | tooManyParameters => "Can't have more than " ++ toString maxArity ++ " parameters."
  | tooManyArguments => "Can't have more than " ++ toString maxArity ++ " arguments."
  | invalidAssignmentTarget => "Invalid assignment target."

/-- Breaches of the scoping rules. -/
inductive ScopeFault where
  | alreadyDeclared
  | readInOwnInitializer
  | returnAtTopLevel
  | returnValueFromInitializer
  | thisOutsideClass
  | superOutsideClass
  | superWithoutSuperclass
  | inheritsFromItself
  deriving DecidableEq, Repr

def ScopeFault.message : ScopeFault → String
  | alreadyDeclared => "Already a variable with this name in this scope."
  | readInOwnInitializer => "Can't read local variable in its own initializer."
  | returnAtTopLevel => "Can't return from top-level code."
  | returnValueFromInitializer => "Can't return a value from an initializer."
  | thisOutsideClass => "Can't use 'this' outside of a class."
  | superOutsideClass => "Can't use 'super' outside of a class."
  | superWithoutSuperclass => "Can't use 'super' in a class with no superclass."
  | inheritsFromItself => "A class can't inherit from itself."

/-- Where a fault is: at a token or at the end of the source. -/
inductive Place where
  | lexeme (text : String) (line : Nat)
  | atEnd (line : Nat)
  deriving DecidableEq, Repr

namespace Place

def line : Place → Nat
  | lexeme _ line => line
  | atEnd line => line

def text : Place → String
  | lexeme text _ => " at '" ++ text ++ "'"
  | atEnd _ => " at end"

end Place

def Token.place (t : Token) : Place := .lexeme t.lexeme t.line

inductive Diagnostic where
  | lexical (fault : LexicalFault) (line : Nat)
  | grammar (fault : GrammarFault) (place : Place)
  | scope (fault : ScopeFault) (place : Place)
  deriving DecidableEq, Repr

namespace Diagnostic

def line : Diagnostic → Nat
  | lexical _ line => line
  | grammar _ place => place.line
  | scope _ place => place.line

def message : Diagnostic → String
  | lexical fault _ => fault.message
  | grammar fault _ => fault.message
  | scope fault _ => fault.message

/-- The place as it is shown; a lexical fault shows none. -/
def location : Diagnostic → String
  | lexical _ _ => ""
  | grammar _ place => place.text
  | scope _ place => place.text

def text (d : Diagnostic) : String :=
  "[line " ++ toString d.line ++ "] Error" ++ d.location ++ ": " ++ d.message

/-- The texts of diagnostics, one per line. -/
def texts (ds : List Diagnostic) : String := "\n".intercalate (ds.map (·.text))

end Diagnostic

def Scan.diagnostics (s : Scan) : List Diagnostic :=
  s.faults.map fun (fault, line) => .lexical fault line

end LoxLang
