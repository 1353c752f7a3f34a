import LoxLang.Number.Text
import LoxLang.Program.Basic

/-!
# Programs as text

Expressions and statements fully parenthesised, operator first.
-/

namespace LoxLang

def Literal.text : Literal → String
  | nil => "nil"
  | bool true => "true"
  | bool false => "false"
  | number x => Number.inTree x
  | string s => s

namespace Expr

mutual

def text : Expr → String
  | literal value => value.text
  | group inner => "(group " ++ inner.text ++ ")"
  | unary op _ operand => "(" ++ op.mark.spelling ++ " " ++ operand.text ++ ")"
  | binary op _ left right =>
    "(" ++ op.mark.spelling ++ " " ++ left.text ++ " " ++ right.text ++ ")"
  | logical op _ left right =>
    "(" ++ op.keyword.spelling ++ " " ++ left.text ++ " " ++ right.text ++ ")"
  | .variable _ name => name.text
  | assign _ name value => "(= " ++ name.text ++ " " ++ value.text ++ ")"
  | call callee _ args => "(call " ++ callee.text ++ argsText args ++ ")"
  | get object name => "(. " ++ object.text ++ " " ++ name.text ++ ")"
  | set object name value =>
    "(= (. " ++ object.text ++ " " ++ name.text ++ ") " ++ value.text ++ ")"
  | this _ _ => "this"
  | super _ _ method => "(super " ++ method.text ++ ")"

def argsText : List Expr → String
  | [] => ""
  | e :: es => " " ++ e.text ++ argsText es

end

end Expr

/-- The names in parentheses. -/
def paramsText (params : List Name) : String :=
  "(" ++ " ".intercalate (params.map (·.text)) ++ ")"

mutual

def Stmt.text : Stmt → String
  | .expression e => "(expr " ++ e.text ++ ")"
  | .print e => "(print " ++ e.text ++ ")"
  | .var name none => "(var " ++ name.text ++ ")"
  | .var name (some e) => "(var " ++ name.text ++ " " ++ e.text ++ ")"
  | .block body => "(block" ++ Stmt.eachText body ++ ")"
  | .if_ condition then_ none => "(if " ++ condition.text ++ " " ++ then_.text ++ ")"
  | .if_ condition then_ (some else_) =>
    "(if " ++ condition.text ++ " " ++ then_.text ++ " " ++ else_.text ++ ")"
  | .while_ condition body => "(while " ++ condition.text ++ " " ++ body.text ++ ")"
  | .function routine => routine.text "fun"
  | .return_ _ none => "(return)"
  | .return_ _ (some e) => "(return " ++ e.text ++ ")"
  | .class_ name none methods => "(class " ++ name.text ++ Routine.eachText methods ++ ")"
  | .class_ name (some superclass) methods =>
    "(class " ++ name.text ++ " (< " ++ superclass.name.text ++ ")" ++
      Routine.eachText methods ++ ")"

/-- Each statement after a blank. -/
def Stmt.eachText : List Stmt → String
  | [] => ""
  | s :: ss => " " ++ s.text ++ Stmt.eachText ss

def Routine.text (keyword : String) : Routine → String
  | .mk name params body =>
    "(" ++ keyword ++ " " ++ name.text ++ " " ++ paramsText params ++ Stmt.eachText body ++ ")"

/-- Each method after a blank. -/
def Routine.eachText : List Routine → String
  | [] => ""
  | r :: rs => " " ++ r.text "method" ++ Routine.eachText rs

end

end LoxLang
