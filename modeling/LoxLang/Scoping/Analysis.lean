import LoxLang.Diagnostic
import LoxLang.Program.Basic

/-!
# Lexical scoping

The analysis of a program ties each use of a local name to its declaration, by the number of scopes
between them, and finds the breaches of the scoping rules. The top level is not a scope: a name that
no scope declares is global.
-/

namespace LoxLang.Scoping

/-- The names declared in the scopes around a place, the innermost scope first. -/
abbrev Scopes := List (List String)

namespace Scopes

/-- The number of scopes between a place and the innermost one that declares a name. -/
def hops? (scopes : Scopes) (name : String) : Option Nat :=
  scopes.findIdx? (·.contains name)

/-- Whether the innermost scope declares a name. -/
def declares (scopes : Scopes) (name : String) : Bool :=
  match scopes with
  | [] => false
  | scope :: _ => scope.contains name

/-- Declares a name in the innermost scope. -/
def declare (scopes : Scopes) (name : String) : Scopes :=
  match scopes with
  | [] => []
  | scope :: outer => (name :: scope) :: outer

end Scopes

/-- The routine around a place. -/
inductive InRoutine where
  | topLevel
  | function
  | method
  | initializer
  deriving DecidableEq, Repr

/-- The class around a place. -/
inductive InClass where
  | noClass
  | base
  | derived
  deriving DecidableEq, Repr

/-- What surrounds a place. -/
structure Context where
  routine : InRoutine
  class_ : InClass
  deriving DecidableEq, Repr

/-- What the analysis finds, in the order of the walk. -/
inductive Finding where
  /-- The use at a site belongs to a declaration some scopes outwards. -/
  | bound (site : Site) (hops : Nat)
  | fault (fault : ScopeFault) (place : Place)
  deriving DecidableEq, Repr

def namePlace (name : Name) : Place := .lexeme name.text name.line

def keywordPlace (k : Keyword) (line : Nat) : Place := .lexeme k.spelling line

/-- Ties the use at a site to the innermost declaration of a name. A global use is left alone. -/
def bind (scopes : Scopes) (site : Site) (name : String) : List Finding :=
  match scopes.hops? name with
  | some d => [.bound site d]
  | none => []

/-- A name read in a scope where `pending` is declared and its value not yet known. -/
def read (scopes : Scopes) (pending : Option String) (site : Site) (name : Name) : List Finding :=
  (if pending = some name.text then [.fault .readInOwnInitializer (namePlace name)] else []) ++
    bind scopes site name.text

/-- Faults of declaring a name: it must be new in the innermost scope. -/
def redeclared (scopes : Scopes) (name : Name) : List Finding :=
  if scopes.declares name.text then [.fault .alreadyDeclared (namePlace name)] else []

mutual

/-- Findings in an expression. While the initializer of a local variable is analysed, `pending` is
that variable. -/
def walkExpr (k : InClass) (scopes : Scopes) (pending : Option String) : Expr → List Finding
  | .literal _ => []
  | .group inner => walkExpr k scopes pending inner
  | .unary _ _ operand => walkExpr k scopes pending operand
  | .binary _ _ left right => walkExpr k scopes pending left ++ walkExpr k scopes pending right
  | .logical _ _ left right => walkExpr k scopes pending left ++ walkExpr k scopes pending right
  | .variable site name => read scopes pending site name
  | .assign site name value => walkExpr k scopes pending value ++ bind scopes site name.text
  | .call callee _ args => walkExpr k scopes pending callee ++ walkExprs k scopes pending args
  | .get object _ => walkExpr k scopes pending object
  | .set object _ value => walkExpr k scopes pending value ++ walkExpr k scopes pending object
  | .this site line =>
    match k with
    | .noClass => [.fault .thisOutsideClass (keywordPlace .this line)]
    | _ => bind scopes site Keyword.this.spelling
  | .super site line _ =>
    match k with
    | .noClass => [.fault .superOutsideClass (keywordPlace .super line)]
    | .base => [.fault .superWithoutSuperclass (keywordPlace .super line)]
    | .derived => bind scopes site Keyword.super.spelling

def walkExprs (k : InClass) (scopes : Scopes) (pending : Option String) : List Expr → List Finding
  | [] => []
  | e :: es => walkExpr k scopes pending e ++ walkExprs k scopes pending es

end

/-- Findings in an optional expression. -/
def walkOption (k : InClass) (scopes : Scopes) (pending : Option String) :
    Option Expr → List Finding
  | none => []
  | some e => walkExpr k scopes pending e

/-- Declares parameters in the innermost scope. -/
def walkParams (scopes : Scopes) : List Name → Scopes × List Finding
  | [] => (scopes, [])
  | p :: ps =>
    let rest := walkParams (scopes.declare p.text) ps
    (rest.1, redeclared scopes p ++ rest.2)

/-- What a method is to its body. -/
def methodContext (r : Routine) : InRoutine := if r.isInit then .initializer else .method

/-- Findings at a `return` keyword. -/
def walkReturn (routine : InRoutine) (line : Nat) (value : Option Expr) : List Finding :=
  let place := keywordPlace .return_ line
  (if routine = .topLevel then [.fault .returnAtTopLevel place] else []) ++
    (if routine = .initializer ∧ value.isSome then
      [.fault .returnValueFromInitializer place] else [])

/-- Findings in the superclass clause of a class. -/
def walkSuperclass (scopes : Scopes) (name : Name) : Option Superclass → List Finding
  | none => []
  | some s =>
    (if s.name.text = name.text then [.fault .inheritsFromItself (namePlace s.name)] else []) ++
      read scopes none s.site s.name

/-- The scopes around the methods of a class. -/
def methodScopes (scopes : Scopes) : Option Superclass → Scopes
  | none => [Keyword.this.spelling] :: scopes
  | some _ => [Keyword.this.spelling] :: [Keyword.super.spelling] :: scopes

/-- What a class is to its methods. -/
def classContext : Option Superclass → InClass
  | none => .base
  | some _ => .derived

mutual

/-- The scopes after a statement, and the findings in it. -/
def walkStmt (ctx : Context) (scopes : Scopes) : Stmt → Scopes × List Finding
  | .expression e => (scopes, walkExpr ctx.class_ scopes none e)
  | .print e => (scopes, walkExpr ctx.class_ scopes none e)
  | .var name init =>
    let inner := scopes.declare name.text
    let pending := if scopes.isEmpty then none else some name.text
    (inner, redeclared scopes name ++ walkOption ctx.class_ inner pending init)
  | .block body => (scopes, (walkStmts ctx ([] :: scopes) body).2)
  | .if_ condition then_ none =>
    let first := walkStmt ctx scopes then_
    (first.1, walkExpr ctx.class_ scopes none condition ++ first.2)
  | .if_ condition then_ (some else_) =>
    let first := walkStmt ctx scopes then_
    let second := walkStmt ctx first.1 else_
    (second.1, walkExpr ctx.class_ scopes none condition ++ first.2 ++ second.2)
  | .while_ condition body =>
    let inner := walkStmt ctx scopes body
    (inner.1, walkExpr ctx.class_ scopes none condition ++ inner.2)
  | .function r =>
    let inner := scopes.declare r.name.text
    (inner, redeclared scopes r.name ++ walkRoutine { ctx with routine := .function } inner r)
  | .return_ line value =>
    (scopes, walkReturn ctx.routine line value ++ walkOption ctx.class_ scopes none value)
  | .class_ name parent methods =>
    let inner := scopes.declare name.text
    (inner, redeclared scopes name ++ walkSuperclass inner name parent ++
      walkMethods (classContext parent) (methodScopes inner parent) methods)

/-- The scopes after statements, and the findings in them. -/
def walkStmts (ctx : Context) (scopes : Scopes) : List Stmt → Scopes × List Finding
  | [] => (scopes, [])
  | s :: ss =>
    let first := walkStmt ctx scopes s
    let rest := walkStmts ctx first.1 ss
    (rest.1, first.2 ++ rest.2)

/-- Findings in a routine. Its parameters and its body share one scope. -/
def walkRoutine (ctx : Context) (scopes : Scopes) : Routine → List Finding
  | .mk _ ps body =>
    let declared := walkParams ([] :: scopes) ps
    declared.2 ++ (walkStmts ctx declared.1 body).2

/-- Findings in the methods of a class. -/
def walkMethods (k : InClass) (scopes : Scopes) : List Routine → List Finding
  | [] => []
  | r :: rs => walkRoutine ⟨methodContext r, k⟩ scopes r ++ walkMethods k scopes rs

end

/-- Findings in a program. -/
def findings (p : Program) : List Finding := (walkStmts ⟨.topLevel, .noClass⟩ [] p).2

/-- The ties among findings. -/
def bindings (fs : List Finding) : List (Site × Nat) :=
  fs.filterMap fun
    | .bound site d => some (site, d)
    | .fault _ _ => none

/-- The breaches of the rules among findings. -/
def faults (fs : List Finding) : List Diagnostic :=
  fs.filterMap fun
    | .bound _ _ => none
    | .fault f place => some (.scope f place)

/-- The ties of a program, or all breaches of the rules. -/
def analyse (p : Program) : Except (List Diagnostic) (List (Site × Nat)) :=
  let fs := findings p
  if (faults fs).isEmpty then .ok (bindings fs) else .error (faults fs)

end LoxLang.Scoping
