import LoxLang.Proofs.Program.Renaming
import LoxLang.Scoping.Analysis

/-!
# Renaming and the analysis

The analysis of a renamed program finds the same ties and faults, at the renamed sites and lines.
-/

namespace LoxLang.Scoping

def Finding.rename (f : Renaming) : Finding → Finding
  | .bound site hops => .bound (f.site site) hops
  | .fault what place => .fault what (place.rename f)

variable {f : Renaming}

theorem bind_rename (scopes : Scopes) (site : Site) (name : String) :
    bind scopes (f.site site) name = (bind scopes site name).map (·.rename f) := by
  unfold bind
  cases scopes.hops? name <;> rfl

theorem read_rename (scopes : Scopes) (pending : Option String) (site : Site) (name : Name) :
    read scopes pending (f.site site) (name.rename f) =
      (read scopes pending site name).map (·.rename f) := by
  simp only [read, Name.text_rename, bind_rename, List.map_append]
  by_cases h : pending = some name.text <;> simp [h, Finding.rename, namePlace, Place.rename]

theorem redeclared_rename (scopes : Scopes) (name : Name) :
    redeclared scopes (name.rename f) = (redeclared scopes name).map (·.rename f) := by
  cases h : scopes.declares name.text <;>
    simp [redeclared, h, Finding.rename, namePlace, Place.rename]

mutual

theorem walkExpr_rename (k : InClass) (scopes : Scopes) (pending : Option String) : ∀ e : Expr,
    walkExpr k scopes pending (e.rename f) = (walkExpr k scopes pending e).map (·.rename f)
  | .literal _ => rfl
  | .group a | .unary _ _ a | .get a _ => by
    simp only [Expr.rename, walkExpr, walkExpr_rename k scopes pending a]
  | .binary _ _ a b | .logical _ _ a b | .set a _ b => by
    simp only [Expr.rename, walkExpr, walkExpr_rename k scopes pending a,
      walkExpr_rename k scopes pending b, List.map_append]
  | .variable site name => read_rename scopes pending site name
  | .assign site name a => by
    simp only [Expr.rename, walkExpr, walkExpr_rename k scopes pending a, Name.text_rename,
      bind_rename, List.map_append]
  | .call a _ args => by
    simp only [Expr.rename, walkExpr, walkExpr_rename k scopes pending a,
      walkExprs_rename k scopes pending args, List.map_append]
  | .this site line => by
    cases k with
    | noClass => rfl
    | base | derived => exact bind_rename scopes site _
  | .super site line _ => by
    cases k with
    | noClass | base => rfl
    | derived => exact bind_rename scopes site _

theorem walkExprs_rename (k : InClass) (scopes : Scopes) (pending : Option String) :
    ∀ es : List Expr, walkExprs k scopes pending (Expr.renameEach f es) =
      (walkExprs k scopes pending es).map (·.rename f)
  | [] => rfl
  | e :: es => by
    simp only [Expr.renameEach, walkExprs, walkExpr_rename k scopes pending e,
      walkExprs_rename k scopes pending es, List.map_append]

end

theorem walkOption_rename (k : InClass) (scopes : Scopes) (pending : Option String)
    (e : Option Expr) :
    walkOption k scopes pending (e.map (·.rename f)) =
      (walkOption k scopes pending e).map (·.rename f) := by
  cases e with
  | none => rfl
  | some e => exact walkExpr_rename k scopes pending e

theorem walkParams_rename (scopes : Scopes) (params : List Name) :
    walkParams scopes (params.map (·.rename f)) =
      ((walkParams scopes params).1, (walkParams scopes params).2.map (·.rename f)) := by
  induction params generalizing scopes with
  | nil => rfl
  | cons p ps ih => simp [walkParams, ih, redeclared_rename]

theorem walkReturn_rename (routine : InRoutine) (line : Nat) (value : Option Expr) :
    walkReturn routine (f.line line) (value.map (·.rename f)) =
      (walkReturn routine line value).map (·.rename f) := by
  cases routine <;> cases value <;> rfl

theorem walkSuperclass_rename (scopes : Scopes) (name : Name) (parent : Option Superclass) :
    walkSuperclass scopes (name.rename f) (parent.map (·.rename f)) =
      (walkSuperclass scopes name parent).map (·.rename f) := by
  cases parent with
  | none => rfl
  | some parent =>
    simp only [Option.map_some, walkSuperclass, Superclass.rename, Name.text_rename, read_rename,
      List.map_append]
    by_cases h : parent.name.text = name.text <;> simp [h, Finding.rename, namePlace, Place.rename]

theorem methodScopes_map (scopes : Scopes) (parent : Option Superclass) :
    methodScopes scopes (parent.map (·.rename f)) = methodScopes scopes parent := by
  cases parent <;> rfl

theorem classContext_map (parent : Option Superclass) :
    classContext (parent.map (·.rename f)) = classContext parent := by
  cases parent <;> rfl

mutual

theorem walkStmt_rename (ctx : Context) (scopes : Scopes) : ∀ s : Stmt,
    walkStmt ctx scopes (s.rename f) =
      ((walkStmt ctx scopes s).1, (walkStmt ctx scopes s).2.map (·.rename f))
  | .expression e | .print e => by simp only [Stmt.rename, walkStmt, walkExpr_rename]
  | .var name init => by
    simp only [Stmt.rename, walkStmt, Name.text_rename, redeclared_rename, walkOption_rename,
      List.map_append]
  | .block body => by simp only [Stmt.rename, walkStmt, walkStmts_rename ctx _ body]
  | .if_ e then_ none => by
    simp only [Stmt.rename, walkStmt, walkExpr_rename, walkStmt_rename ctx scopes then_,
      List.map_append]
  | .if_ e then_ (some else_) => by
    simp only [Stmt.rename, walkStmt, walkExpr_rename, walkStmt_rename ctx scopes then_,
      walkStmt_rename ctx _ else_, List.map_append]
  | .while_ e body => by
    simp only [Stmt.rename, walkStmt, walkExpr_rename, walkStmt_rename ctx scopes body,
      List.map_append]
  | .function r => by
    simp only [Stmt.rename, walkStmt, Routine.name_rename, Name.text_rename, redeclared_rename,
      walkRoutine_rename _ _ r, List.map_append]
  | .return_ line value => by
    simp only [Stmt.rename, walkStmt, walkReturn_rename, walkOption_rename, List.map_append]
  | .class_ name parent methods => by
    simp only [Stmt.rename, walkStmt, Name.text_rename, redeclared_rename, walkSuperclass_rename,
      methodScopes_map, classContext_map, walkMethods_rename _ _ methods, List.map_append]

theorem walkStmts_rename (ctx : Context) (scopes : Scopes) : ∀ ss : List Stmt,
    walkStmts ctx scopes (Stmt.renameEach f ss) =
      ((walkStmts ctx scopes ss).1, (walkStmts ctx scopes ss).2.map (·.rename f))
  | [] => rfl
  | s :: ss => by
    simp only [Stmt.renameEach, walkStmts, walkStmt_rename ctx scopes s, walkStmts_rename ctx _ ss,
      List.map_append]

theorem walkRoutine_rename (ctx : Context) (scopes : Scopes) : ∀ r : Routine,
    walkRoutine ctx scopes (r.rename f) = (walkRoutine ctx scopes r).map (·.rename f)
  | .mk _ params body => by
    simp only [Routine.rename, walkRoutine, walkParams_rename, walkStmts_rename ctx _ body,
      List.map_append]

theorem walkMethods_rename (k : InClass) (scopes : Scopes) : ∀ rs : List Routine,
    walkMethods k scopes (Routine.renameEach f rs) = (walkMethods k scopes rs).map (·.rename f)
  | [] => rfl
  | r :: rs => by
    simp only [Routine.renameEach, walkMethods, methodContext, Routine.isInit_rename,
      walkRoutine_rename _ _ r, walkMethods_rename k scopes rs, List.map_append]

end

theorem bindings_rename (fs : List Finding) :
    bindings (fs.map (·.rename f)) = (bindings fs).map fun tie => (f.site tie.1, tie.2) := by
  induction fs with
  | nil => rfl
  | cons x fs ih =>
    cases x with
    | bound site hops => exact congrArg ((f.site site, hops) :: ·) ih
    | fault what place => exact ih

theorem faults_rename (fs : List Finding) :
    faults (fs.map (·.rename f)) = (faults fs).map (·.rename f) := by
  induction fs with
  | nil => rfl
  | cons x fs ih =>
    cases x with
    | bound site hops => exact ih
    | fault what place => exact congrArg (.scope what (place.rename f) :: ·) ih

/-- The analysis of a renamed program. -/
theorem analyse_rename (f : Renaming) (p : Program) :
    analyse (p.map (·.rename f)) =
      match analyse p with
      | .ok ties => .ok (ties.map fun tie => (f.site tie.1, tie.2))
      | .error ds => .error (ds.map (·.rename f)) := by
  have hfindings : findings (p.map (·.rename f)) = (findings p).map (·.rename f) := by
    rw [findings, ← Stmt.renameEach_eq_map, walkStmts_rename]
    rfl
  simp only [analyse, hfindings, bindings_rename, faults_rename, List.isEmpty_map]
  cases (faults (findings p)).isEmpty <;> rfl

end LoxLang.Scoping
