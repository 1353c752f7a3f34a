import LoxLang.Program.Basic

/-!
# Uses of names

The sites of a program with what stands there.
-/

namespace LoxLang

namespace Use

inductive Kind where
  | variable
  | assign
  | this
  | super
  deriving DecidableEq, Repr

end Use

/-- What stands at a site. For `this` and `super` the name is the keyword. -/
structure Use where
  site : Site
  kind : Use.Kind
  name : Name
  deriving DecidableEq, Repr

namespace Expr

mutual

/-- The uses in an expression, from left to right. -/
def uses : Expr → List Use
  | literal _ => []
  | group inner => inner.uses
  | unary _ _ operand => operand.uses
  | binary _ _ left right => left.uses ++ right.uses
  | logical _ _ left right => left.uses ++ right.uses
  | .variable site name => [⟨site, .variable, name⟩]
  | assign site name value => ⟨site, .assign, name⟩ :: value.uses
  | call callee _ args => callee.uses ++ argsUses args
  | get object _ => object.uses
  | set object _ value => object.uses ++ value.uses
  | this site line => [⟨site, .this, ⟨Keyword.this.spelling, line⟩⟩]
  | super site line _ => [⟨site, .super, ⟨Keyword.super.spelling, line⟩⟩]

def argsUses : List Expr → List Use
  | [] => []
  | e :: es => e.uses ++ argsUses es

end

/-- The uses in an optional expression. -/
def optionUses : Option Expr → List Use
  | none => []
  | some e => e.uses

end Expr

def Superclass.use (s : Superclass) : Use := ⟨s.site, .variable, s.name⟩

mutual

def Stmt.uses : Stmt → List Use
  | .expression e => e.uses
  | .print e => e.uses
  | .var _ init => Expr.optionUses init
  | .block body => Stmt.eachUses body
  | .if_ condition then_ none => condition.uses ++ then_.uses
  | .if_ condition then_ (some else_) => condition.uses ++ then_.uses ++ else_.uses
  | .while_ condition body => condition.uses ++ body.uses
  | .function routine => routine.uses
  | .return_ _ value => Expr.optionUses value
  | .class_ _ superclass methods => (superclass.map (·.use)).toList ++ Routine.eachUses methods

def Stmt.eachUses : List Stmt → List Use
  | [] => []
  | s :: ss => s.uses ++ Stmt.eachUses ss

def Routine.uses : Routine → List Use
  | .mk _ _ body => Stmt.eachUses body

def Routine.eachUses : List Routine → List Use
  | [] => []
  | r :: rs => r.uses ++ Routine.eachUses rs

end

/-- Uses in the order of their sites. -/
def Use.sort (us : List Use) : List Use := us.mergeSort fun a b => a.site ≤ b.site

def Expr.sortedUses (e : Expr) : List Use := Use.sort e.uses

def Program.sortedUses (p : Program) : List Use := Use.sort (Stmt.eachUses p)

end LoxLang
