import LoxLang.Grammar.Statement
import LoxLang.Proofs.Grammar.Passage
import LoxLang.Proofs.Grammar.Sites

/-!
# Programs elsewhere

All readers of the grammar read tokens in the same way at another place. Expressions end before a
token that does not belong to them. Statements end with a token of their own; only the first
statement of an `if` may be followed by an `else`.
-/

namespace LoxLang.Grammar

/-- Nothing changes. -/
def Passage.here : Passage := ⟨0, id, [], id⟩

/-- Bounds on the nesting of readers here and there. Where faults count too they have to agree. -/
def Passage.Fuel (t : Passage) (n m : Nat) : Prop := n ≤ m ∧ (t.Exact → n = m)

theorem Passage.fuel_depth (t : Passage) (c : Cursor) : t.Fuel c.depth (t.cursor c).depth := by
  have hlength : (t.cursor c).rest.length = c.rest.length + t.more.length := by
    simp [Passage.cursor]
  simp only [Passage.Fuel, Cursor.depth, hlength]
  refine ⟨by omega, fun he => ?_⟩
  simp [he.1]

namespace Reader

variable {t : Passage}

/-! ## Expressions -/

theorem Operator.apply_rename (f : Renaming) (op : Operator) (line : Nat) (left right : Expr) :
    op.apply (f.line line) (left.rename f) (right.rename f) = (op.apply line left right).rename f := by
  cases op <;> rfl

theorem stopping_takeOperator? (tier : Tier) :
    Stopping t (Option.map fun (op, line) => (op, t.line line)) (takeOperator? tier)
      (takeOperator? tier) :=
  Stopping.takeIf? (fun token => by
    change (tier.operator? token.kind).map _ = _
    cases tier.operator? token.kind <;> rfl) fun token hkind => by
    rw [hkind]
    cases tier <;> rfl

theorem stopping_takeUnary? :
    Stopping t (Option.map fun (op, line) => (op, t.line line)) takeUnary? takeUnary? :=
  Stopping.takeIf? (fun token => by
    change (unaryOperator? token.kind).map _ = _
    cases unaryOperator? token.kind <;> rfl) fun token hkind => by
    rw [hkind]
    rfl

theorem stopping_takeLiteral? : Stopping t (Option.map id) takeLiteral? takeLiteral? :=
  Stopping.takeIf? (fun _ => Option.map_id.symm ▸ rfl) fun token hkind => by
    rw [hkind]
    rfl

theorem stopping_assignTo (sign : Token) (value target : Expr) :
    Stopping t (Expr.rename t.names) (assignTo sign value target)
      (assignTo (sign.rename t.names) (value.rename t.names) (target.rename t.names)) := by
  cases target with
  | «variable» site name => exact Stopping.bind .freshSite fun site => .pure rfl
  | get object name => exact .pure rfl
  | _ => exact Stopping.bind (.report rfl) fun _ => .pure rfl

/-- The readers of expressions do the same with the given bounds on their nesting. -/
structure ExpressionTracks (t : Passage) (n m : Nat) : Prop where
  assignment : Stopping t (Expr.rename t.names) (assignment n) (assignment m)
  operation : ∀ ts : List Tier, Stopping t (Expr.rename t.names) (operation n ts) (operation m ts)
  operationRest : ∀ (tier : Tier) (ts : List Tier) (left : Expr), Stopping t (Expr.rename t.names)
    (operationRest n tier ts left) (operationRest m tier ts (left.rename t.names))
  unary : Stopping t (Expr.rename t.names) (unary n) (unary m)
  callRest : ∀ e : Expr, Stopping t (Expr.rename t.names) (callRest n e)
    (callRest m (e.rename t.names))
  arguments : ∀ count : Nat, Stopping t (List.map (Expr.rename t.names)) (arguments n count)
    (arguments m count)
  primary : Stopping t (Expr.rename t.names) (primary n) (primary m)

namespace ExpressionTracks

variable {n m : Nat}

theorem stopping_assignment (ih : ExpressionTracks t n m) :
    Stopping t (Expr.rename t.names) (Reader.assignment (n + 1)) (Reader.assignment (m + 1)) := by
  rw [Reader.assignment, Reader.assignment]
  refine Stopping.bind (ih.operation _) fun target => Stopping.bind (.take? (by simp)) fun sign => ?_
  cases sign with
  | none => exact .pure rfl
  | some sign => exact Stopping.bind ih.assignment fun value => stopping_assignTo sign value target

theorem stopping_operation (ih : ExpressionTracks t n m) (ts : List Tier) :
    Stopping t (Expr.rename t.names) (Reader.operation (n + 1) ts) (Reader.operation (m + 1) ts) := by
  cases ts with
  | nil =>
    rw [Reader.operation, Reader.operation]
    exact ih.unary
  | cons tier ts =>
    rw [Reader.operation, Reader.operation]
    exact Stopping.bind (ih.operation ts) fun left => ih.operationRest tier ts left

theorem stopping_operationRest (ih : ExpressionTracks t n m) (tier : Tier) (ts : List Tier)
    (left : Expr) : Stopping t (Expr.rename t.names) (Reader.operationRest (n + 1) tier ts left)
      (Reader.operationRest (m + 1) tier ts (left.rename t.names)) := by
  rw [Reader.operationRest, Reader.operationRest]
  refine Stopping.bind (stopping_takeOperator? tier) fun found => ?_
  cases found with
  | none => exact .pure rfl
  | some found =>
    refine Stopping.bind (ih.operation ts) fun right => ?_
    have h := ih.operationRest tier ts (found.1.apply found.2 left right)
    rwa [← Operator.apply_rename] at h

theorem stopping_unary (ih : ExpressionTracks t n m) :
    Stopping t (Expr.rename t.names) (Reader.unary (n + 1)) (Reader.unary (m + 1)) := by
  rw [Reader.unary, Reader.unary]
  refine Stopping.bind stopping_takeUnary? fun found => ?_
  cases found with
  | none => exact Stopping.bind ih.primary fun e => ih.callRest e
  | some found => exact Stopping.bind ih.unary fun operand => .pure rfl

theorem stopping_callRest (ih : ExpressionTracks t n m) (e : Expr) :
    Stopping t (Expr.rename t.names) (Reader.callRest (n + 1) e)
      (Reader.callRest (m + 1) (e.rename t.names)) := by
  rw [Reader.callRest, Reader.callRest]
  refine Stopping.bind (.take? (by simp)) fun paren => ?_
  cases paren with
  | none =>
    refine Stopping.bind (.take? (by simp)) fun dot => ?_
    cases dot with
    | none => exact .pure rfl
    | some dot =>
      exact Stopping.bind (Firm.expectName _).steady.stopping fun name => ih.callRest (.get e name)
  | some paren =>
    -- What follows the arguments is the same whether there are any or not.
    have hafter : ∀ args : List Expr, Stopping t (Expr.rename t.names)
        (Reader.expectMark .rightParen .argumentsEnd >>= fun paren =>
          Reader.callRest n (.call e paren.line args))
        (Reader.expectMark .rightParen .argumentsEnd >>= fun paren =>
          Reader.callRest m (.call (e.rename t.names) paren.line (args.map (·.rename t.names)))) :=
      fun args => Stopping.bind (Firm.expectMark _ _).steady.stopping fun paren => by
        have h := ih.callRest (.call e paren.line args)
        rwa [Expr.rename, Expr.renameEach_eq_map] at h
    refine Stopping.bind (.isNext (by simp)) fun closes => ?_
    cases closes with
    | true => exact Stopping.bind (.pure rfl) hafter
    | false => exact Stopping.bind (ih.arguments 0) hafter

theorem stopping_arguments (ih : ExpressionTracks t n m) (count : Nat) :
    Stopping t (List.map (Expr.rename t.names)) (Reader.arguments (n + 1) count)
      (Reader.arguments (m + 1) count) := by
  have hitems := Stopping.commaList ih.assignment (ih.arguments (count + 1))
  rw [arguments_succ, arguments_succ]
  split
  · exact Stopping.bind (.reportHere _) fun _ => hitems
  · exact hitems

theorem stopping_primary (ih : ExpressionTracks t n m) :
    Stopping t (Expr.rename t.names) (Reader.primary (n + 1)) (Reader.primary (m + 1)) := by
  rw [Reader.primary, Reader.primary]
  refine Stopping.bind stopping_takeLiteral? fun value => ?_
  cases value with
  | some value => exact .pure rfl
  | none =>
  refine Stopping.bind (.take? (by simp)) fun keyword => ?_
  cases keyword with
  | some keyword =>
    refine Stopping.bind (Firm.expectMark _ _).steady.stopping fun _ => ?_
    refine Stopping.bind (Firm.expectName _).steady.stopping fun name => ?_
    exact Stopping.bind .freshSite fun site => .pure rfl
  | none =>
  refine Stopping.bind (.take? (by simp)) fun keyword => ?_
  cases keyword with
  | some keyword => exact Stopping.bind .freshSite fun site => .pure rfl
  | none =>
  refine Stopping.bind (.take? (by simp)) fun token => ?_
  cases token with
  | some token => exact Stopping.bind .freshSite fun site => .pure rfl
  | none =>
  refine Stopping.bind (.take? (by simp)) fun paren => ?_
  cases paren with
  | some paren =>
    refine Stopping.bind ih.assignment fun inner => ?_
    exact Stopping.bind (Firm.expectMark _ _).steady.stopping fun _ => .pure rfl
  | none => exact .fail fun _ => rfl

end ExpressionTracks

theorem expressionTracks {n m : Nat} (h : t.Fuel n m) : ExpressionTracks t n m := by
  induction n generalizing m with
  | zero =>
    have hzero : t.Exact → m = 0 := fun he => (h.2 he).symm
    constructor <;> intros
    · rw [assignment]; exact .fail fun he => by rw [hzero he, assignment]
    · rw [operation]; exact .fail fun he => by rw [hzero he, operation]
    · rw [operationRest]; exact .fail fun he => by rw [hzero he, operationRest]
    · rw [unary]; exact .fail fun he => by rw [hzero he, unary]
    · rw [callRest]; exact .fail fun he => by rw [hzero he, callRest]
    · rw [arguments]; exact .fail fun he => by rw [hzero he, arguments]
    · rw [primary]; exact .fail fun he => by rw [hzero he, primary]
  | succ n ih =>
    obtain ⟨m, rfl⟩ : ∃ k, m = k + 1 := Nat.exists_eq_succ_of_ne_zero (by have := h.1; omega)
    have ih := @ih m ⟨Nat.le_of_succ_le_succ h.1, fun he => Nat.succ.inj (h.2 he)⟩
    exact ⟨ih.stopping_assignment, ih.stopping_operation, ih.stopping_operationRest, ih.stopping_unary,
      ih.stopping_callRest, ih.stopping_arguments, ih.stopping_primary⟩

theorem stopping_expression : Stopping t (Expr.rename t.names) expression expression :=
  fun c => (expressionTracks (t.fuel_depth c)).assignment c

theorem loose_expression : Loose t (Expr.rename t.names) expression expression :=
  stopping_expression.loose

/-! ## Parts of statements -/

theorem loose_expressionUnless (m : Mark) :
    Loose t (Option.map (Expr.rename t.names)) (expressionUnless m) (expressionUnless m) := by
  unfold expressionUnless
  refine Loose.bind (.isNext _) fun ends => ?_
  cases ends with
  | true => exact .pure rfl
  | false => exact Loose.bind loose_expression fun e => .pure rfl

theorem firm_expressionStatement :
    Firm t (Stmt.rename t.names) expressionStatement expressionStatement :=
  Firm.of_bind loose_expression fun _ => (Firm.expectMark _ _).bind fun _ => .pure rfl

theorem firm_printStatement : Firm t (Stmt.rename t.names) printStatement printStatement :=
  Firm.of_bind loose_expression fun _ => (Firm.expectMark _ _).bind fun _ => .pure rfl

theorem firm_returnStatement (line : Nat) :
    Firm t (Stmt.rename t.names) (returnStatement line) (returnStatement (t.line line)) :=
  Firm.of_bind (loose_expressionUnless _) fun _ => (Firm.expectMark _ _).bind fun _ => .pure rfl

theorem firm_varDeclaration : Firm t (Stmt.rename t.names) varDeclaration varDeclaration := by
  unfold varDeclaration
  refine Firm.of_bind (Firm.expectName _).steady.loose fun name => ?_
  have hend : ∀ init : Option Expr, Firm t (Stmt.rename t.names)
      (expectMark .semicolon .variableEnd >>= fun _ => pure (.var name init))
      (expectMark .semicolon .variableEnd >>= fun _ =>
        pure (.var (name.rename t.names) (init.map (Expr.rename t.names)))) :=
    fun init => (Firm.expectMark _ _).bind fun _ => .pure rfl
  refine Firm.of_bind (.take? _) fun equal => ?_
  cases equal with
  | none => exact Firm.of_bind (.pure rfl) hend
  | some equal =>
    exact Firm.of_bind loose_expression fun e => Firm.of_bind (.pure rfl) hend

theorem stopping_parameters {n m : Nat} (h : t.Fuel n m) (count : Nat) :
    Stopping t (List.map (Name.rename t.names)) (parameters n count) (parameters m count) := by
  induction n generalizing m count with
  | zero => exact .fail fun he => by rw [← h.2 he, parameters]
  | succ n ih =>
    obtain ⟨m, rfl⟩ : ∃ k, m = k + 1 := Nat.exists_eq_succ_of_ne_zero (by have := h.1; omega)
    have ih := @ih m ⟨Nat.le_of_succ_le_succ h.1, fun he => Nat.succ.inj (h.2 he)⟩
    have hitems := Stopping.commaList (Firm.expectName .parameterName).steady.stopping (ih (count + 1))
    rw [parameters_succ, parameters_succ]
    split
    · exact Stopping.bind (.reportHere _) fun _ => hitems
    · exact hitems

theorem parameterList_eq : parameterList = isNext (.mark .rightParen) >>= fun closes =>
    if closes then pure [] else fun c => parameters c.depth 0 c := by
  funext c
  rw [bind_apply]
  simp only [parameterList, isNext]
  by_cases h : c.kind? = some (.mark .rightParen) <;> simp [h, pure, EStateM.pure]

theorem stopping_parameterList :
    Stopping t (List.map (Name.rename t.names)) parameterList parameterList := by
  have hsome : Stopping t (List.map (Name.rename t.names)) (fun c => parameters c.depth 0 c)
      (fun c => parameters c.depth 0 c) := fun c => stopping_parameters (t.fuel_depth c) 0 c
  rw [parameterList_eq]
  refine Stopping.bind (.isNext (by simp)) fun closes => ?_
  cases closes with
  | true => exact .pure rfl
  | false => simpa using hsome

theorem firm_forClauses :
    Firm t (fun (init, cond, incr) => (init.map (Stmt.rename t.names),
      cond.map (Expr.rename t.names), incr.map (Expr.rename t.names))) forClauses forClauses := by
  unfold forClauses
  refine Firm.of_bind (Firm.expectMark _ _).steady.loose fun _ => ?_
  -- What follows the first clause does not depend on its kind.
  have hafter : ∀ init : Option Stmt, Firm t (fun (init, cond, incr) =>
      (init.map (Stmt.rename t.names), cond.map (Expr.rename t.names),
        incr.map (Expr.rename t.names)))
      (do
        let condition ← expressionUnless .semicolon
        let _ ← expectMark .semicolon .forConditionEnd
        let increment ← expressionUnless .rightParen
        let _ ← expectMark .rightParen .forClausesEnd
        return (init, condition, increment))
      (do
        let condition ← expressionUnless .semicolon
        let _ ← expectMark .semicolon .forConditionEnd
        let increment ← expressionUnless .rightParen
        let _ ← expectMark .rightParen .forClausesEnd
        return (init.map (Stmt.rename t.names), condition, increment)) := by
    intro init
    refine Firm.of_bind (loose_expressionUnless _) fun condition => ?_
    refine Firm.of_bind (Firm.expectMark _ _).steady.loose fun _ => ?_
    refine Firm.of_bind (loose_expressionUnless _) fun increment => ?_
    exact (Firm.expectMark _ _).bind fun _ => .pure rfl
  refine Firm.of_bind (.take? _) fun semicolon => ?_
  cases semicolon with
  | some semicolon => exact Firm.of_bind (.pure rfl) hafter
  | none =>
    refine Firm.of_bind (.take? _) fun keyword => ?_
    cases keyword with
    | some keyword =>
      exact Firm.of_bind (Loose.map firm_varDeclaration.steady.loose fun _ => rfl) hafter
    | none =>
      exact Firm.of_bind (Loose.map firm_expressionStatement.steady.loose fun _ => rfl) hafter

theorem forLoop_rename (f : Renaming) (init : Option Stmt) (cond incr : Option Expr) (body : Stmt) :
    forLoop (init.map (Stmt.rename f)) (cond.map (Expr.rename f)) (incr.map (Expr.rename f))
      (body.rename f) = (forLoop init cond incr body).rename f := by
  cases init <;> cases cond <;> cases incr <;> simp [forLoop, Stmt.rename, Expr.rename]

theorem firm_condition (opening closing : Expected) :
    Firm t (Expr.rename t.names) (condition opening closing) (condition opening closing) := by
  unfold condition
  refine Firm.of_bind (Firm.expectMark _ _).steady.loose fun _ => ?_
  exact Firm.of_bind loose_expression fun e => (Firm.expectMark _ _).bind fun _ => .pure rfl

theorem loose_superclass :
    Loose t (Option.map (Superclass.rename t.names)) superclass superclass := by
  unfold superclass
  refine Loose.bind (.take? _) fun less => ?_
  cases less with
  | none => exact .pure rfl
  | some less =>
    refine Loose.bind (Firm.expectName _).steady.loose fun name => ?_
    exact Loose.bind .freshSite fun site => .pure rfl

/-! ## Statements -/

theorem recover_map (f : Renaming) (ts : List Token) :
    recover (ts.map (·.rename f)) = (recover ts).map (·.rename f) := by
  have hskip : ∀ (ts : List Token) (last : Token), skipToBorder (last.rename f)
      (ts.map (·.rename f)) = (skipToBorder last ts).map (·.rename f) := by
    intro ts
    induction ts with
    | nil => exact fun last => rfl
    | cons token rest ih =>
      intro last
      simp only [List.map_cons, skipToBorder]
      change (if (decide (last.kind = _) || beginsStatement token.kind) then _ else _) = _
      split
      · rfl
      · exact ih token
  cases ts with
  | nil => rfl
  | cons token rest => exact hskip rest token

/-- A failure that is reported is noticed only where nothing follows. -/
theorem steady_recovering {r r' : Reader Stmt} (h : Steady t (Stmt.rename t.names) r r') :
    Steady t (Option.map (Stmt.rename t.names)) (recovering r) (recovering r') := by
  intro c
  unfold recovering
  cases hr : r c with
  | ok s c' =>
    refine ⟨h.leads hr, fun hready => ?_⟩
    simp only [h.ok hr hready]
    rfl
  | error d c' =>
    have hl := h.leads_of_error hr
    refine ⟨⟨(recover_suffix _).trans hl.rest, hl.nextSite,
      hl.reported.trans (List.prefix_append _ _)⟩, ?_⟩
    rintro (he | ⟨hquiet, -⟩)
    · simp only [h.error hr he, he.rest_cursor, recover_map]
      simp [Passage.cursor, he.1]
    · simp at hquiet

/-- The cursor stands before a closing brace. -/
def AtBrace (c : Cursor) : Prop := c.kind? = some (.mark .rightBrace)

theorem AtBrace.rest_ne_nil {c c' : Cursor} (hl : c.Leads c') (h : AtBrace c') : c.rest ≠ [] := by
  refine Cursor.Leads.rest_ne_nil hl fun hnil => ?_
  simp [AtBrace, Cursor.kind?, hnil] at h

/-- The readers of statements do the same with the given bounds on their nesting. -/
structure StatementTracks (t : Passage) (n m : Nat) : Prop where
  declaration : Firm t (Stmt.rename t.names) (declaration n) (declaration m)
  classDeclaration : Firm t (Stmt.rename t.names) (classDeclaration n) (classDeclaration m)
  methods : Loose t (List.map (Routine.rename t.names)) (methods n) (methods m)
  routine : ∀ kind : RoutineKind,
    Firm t (Routine.rename t.names) (routine n kind) (routine m kind)
  statement : Firm t (Stmt.rename t.names) (statement n) (statement m)
  block : Firm t (List.map (Stmt.rename t.names)) (block n) (block m)
  blockItems : Tracks t AtBrace (List.map (Stmt.rename t.names)) (blockItems n) (blockItems m)

namespace StatementTracks

variable {n m : Nat}

theorem firm_declaration (ih : StatementTracks t n m) :
    Firm t (Stmt.rename t.names) (Reader.declaration (n + 1)) (Reader.declaration (m + 1)) := by
  rw [Reader.declaration, Reader.declaration]
  refine Firm.of_bind (.take? _) fun keyword => ?_
  cases keyword with
  | some keyword => exact ih.classDeclaration
  | none =>
  refine Firm.of_bind (.take? _) fun keyword => ?_
  cases keyword with
  | some keyword => exact (ih.routine .function).map fun _ => rfl
  | none =>
  refine Firm.of_bind (.take? _) fun keyword => ?_
  cases keyword with
  | some keyword => exact firm_varDeclaration
  | none => exact ih.statement

theorem firm_classDeclaration (ih : StatementTracks t n m) :
    Firm t (Stmt.rename t.names) (Reader.classDeclaration (n + 1))
      (Reader.classDeclaration (m + 1)) := by
  rw [Reader.classDeclaration, Reader.classDeclaration]
  refine Firm.of_bind (Firm.expectName _).steady.loose fun name => ?_
  refine Firm.of_bind loose_superclass fun parent => ?_
  refine Firm.of_bind (Firm.expectMark _ _).steady.loose fun _ => ?_
  refine Firm.of_bind ih.methods fun methods => ?_
  exact (Firm.expectMark _ _).bind fun _ => .pure (by simp [Stmt.rename])

theorem loose_methods (ih : StatementTracks t n m) :
    Loose t (List.map (Routine.rename t.names)) (Reader.methods (n + 1))
      (Reader.methods (m + 1)) := by
  rw [Reader.methods, Reader.methods]
  refine Loose.bind (.isNext _) fun closes => ?_
  cases closes with
  | true => exact .pure rfl
  | false =>
  refine Loose.bind .isAtEnd fun ends => ?_
  cases ends with
  | true => exact .pure rfl
  | false =>
    refine Loose.bind (ih.routine .method).steady.loose fun method => ?_
    exact Loose.bind ih.methods fun methods => .pure rfl

theorem firm_routine (ih : StatementTracks t n m) (kind : RoutineKind) :
    Firm t (Routine.rename t.names) (Reader.routine (n + 1) kind)
      (Reader.routine (m + 1) kind) := by
  rw [Reader.routine, Reader.routine]
  refine Firm.of_bind (Firm.expectName _).steady.loose fun name => ?_
  refine Firm.of_bind (Firm.expectMark _ _).steady.loose fun _ => ?_
  refine Firm.of_bind stopping_parameterList.loose fun params => ?_
  refine Firm.of_bind (Firm.expectMark _ _).steady.loose fun _ => ?_
  refine Firm.of_bind (Firm.expectMark _ _).steady.loose fun _ => ?_
  exact ih.block.bind fun body => .pure (by simp [Routine.rename])

theorem firm_statement (ih : StatementTracks t n m)
    (hm : t.more.head?.map (·.kind) ≠ some (.keyword .else_)) :
    Firm t (Stmt.rename t.names) (Reader.statement (n + 1)) (Reader.statement (m + 1)) := by
  rw [Reader.statement, Reader.statement]
  -- The reserved words are tried one after the other.
  refine Firm.of_bind (.take? _) fun keyword => ?_
  cases keyword with
  | some keyword =>
    refine Firm.of_bind firm_forClauses.steady.loose fun clauses => ?_
    exact ih.statement.bind fun body => .pure (forLoop_rename _ _ _ _ _)
  | none =>
  refine Firm.of_bind (.take? _) fun keyword => ?_
  cases keyword with
  | some keyword =>
    refine Firm.of_bind (firm_condition _ _).steady.loose fun condition => ?_
    refine ih.statement.bind fun then_ => Steady.bind (.take? hm) fun else_ => ?_
    cases else_ with
    | some else_ => exact ih.statement.steady.bind fun else_ => .pure rfl
    | none => exact .pure rfl
  | none =>
  refine Firm.of_bind (.take? _) fun keyword => ?_
  cases keyword with
  | some keyword => exact firm_printStatement
  | none =>
  refine Firm.of_bind (.take? _) fun keyword => ?_
  cases keyword with
  | some keyword => exact firm_returnStatement keyword.line
  | none =>
  refine Firm.of_bind (.take? _) fun keyword => ?_
  cases keyword with
  | some keyword =>
    refine Firm.of_bind (firm_condition _ _).steady.loose fun condition => ?_
    exact ih.statement.bind fun body => .pure rfl
  | none =>
  refine Firm.of_bind (.take? _) fun brace => ?_
  cases brace with
  | some brace => exact ih.block.bind fun body => .pure (by simp [Stmt.rename])
  | none => exact firm_expressionStatement

theorem firm_block (ih : StatementTracks t n m) :
    Firm t (List.map (Stmt.rename t.names)) (Reader.block (n + 1)) (Reader.block (m + 1)) := by
  rw [Reader.block, Reader.block]
  have hend : ∀ body : List Stmt, Firm t (List.map (Stmt.rename t.names))
      (expectMark .rightBrace .blockEnd >>= fun _ => pure body)
      (expectMark .rightBrace .blockEnd >>= fun _ => pure (body.map (Stmt.rename t.names))) :=
    fun body => (Firm.expectMark _ _).bind fun _ => .pure rfl
  -- What is read after the items shows that they end before a brace.
  have hbrace : ∀ (body : List Stmt) (c : Cursor) (a : List Stmt) (c' : Cursor),
      (expectMark .rightBrace .blockEnd >>= fun _ => pure body) c = .ok a c' → AtBrace c := by
    intro body c a c' he
    rw [bind_apply] at he
    cases hc : expectMark .rightBrace .blockEnd c with
    | error d c₁ => simp [hc] at he
    | ok token c₁ =>
      obtain ⟨hrest, hkind⟩ := expectMark_eq_ok hc
      simp [AtBrace, Cursor.kind?, hrest, hkind]
  refine ⟨Tracks.bind ih.blockItems (fun body => (hend body).steady)
    fun body c a c' he _ _ => hbrace body c a c' he, fun {c a c'} he => ?_⟩
  rw [bind_apply] at he
  cases hc : Reader.blockItems n c with
  | error d c₁ => simp [hc] at he
  | ok body c₁ =>
    simp only [hc] at he
    exact Nat.lt_of_lt_of_le ((hend body).takes he) (ih.blockItems.leads hc).rest.length_le

theorem tracks_blockItems (ih : StatementTracks t n m) :
    Tracks t AtBrace (List.map (Stmt.rename t.names)) (Reader.blockItems (n + 1))
      (Reader.blockItems (m + 1)) := by
  rw [Reader.blockItems, Reader.blockItems]
  refine Tracks.bind (Loose.isNext _) (fun closes => ?_) fun _ _ _ _ _ => AtBrace.rest_ne_nil
  cases closes with
  | true => exact .pure rfl
  | false =>
  refine Tracks.bind Loose.isAtEnd (fun ends => ?_) fun _ _ _ _ _ => AtBrace.rest_ne_nil
  cases ends with
  | true => exact .pure rfl
  | false =>
  refine Tracks.bind (steady_recovering ih.declaration.steady) (fun s => ?_)
    fun _ _ _ _ _ _ _ => trivial
  refine Tracks.bind ih.blockItems (fun body => ?_) fun body c a c' he _ hbrace => ?_
  · exact .pure (by cases s <;> rfl)
  · cases he
    exact hbrace

end StatementTracks

theorem statementTracks (hm : t.more.head?.map (·.kind) ≠ some (.keyword .else_)) {n m : Nat}
    (h : t.Fuel n m) : StatementTracks t n m := by
  induction n generalizing m with
  | zero =>
    have hzero : t.Exact → m = 0 := fun he => (h.2 he).symm
    have hfirm : ∀ {α : Type} {φ : α → α} {what : Expected} {r' : Reader α},
        (t.Exact → r' = fail what) → Firm t φ (fail what) r' := fun h => ⟨.fail h, nofun⟩
    constructor <;> intros
    · rw [declaration]; exact hfirm fun he => by rw [hzero he, declaration]
    · rw [classDeclaration]; exact hfirm fun he => by rw [hzero he, classDeclaration]
    · rw [methods]; exact .fail fun he => by rw [hzero he, methods]
    · rw [routine]; exact hfirm fun he => by rw [hzero he, routine]
    · rw [statement]; exact hfirm fun he => by rw [hzero he, statement]
    · rw [block]; exact hfirm fun he => by rw [hzero he, block]
    · rw [blockItems]
      refine fun c => ⟨.refl c, fun hready => ?_⟩
      cases m with
      | zero => rw [blockItems]; rfl
      | succ m =>
        obtain he | ⟨-, hbrace⟩ := hready
        · exact absurd (hzero he) (Nat.succ_ne_zero m)
        · have hkind : (t.cursor c).kind? = some (.mark .rightBrace) :=
            (Passage.kind?_cursor (.inr (hbrace.rest_ne_nil (.refl c)))).trans hbrace
          rw [blockItems, bind_apply]
          simp [isNext, hkind]
          rfl
  | succ n ih =>
    obtain ⟨m, rfl⟩ : ∃ k, m = k + 1 := Nat.exists_eq_succ_of_ne_zero (by have := h.1; omega)
    have ih := @ih m ⟨Nat.le_of_succ_le_succ h.1, fun he => Nat.succ.inj (h.2 he)⟩
    exact ⟨ih.firm_declaration, ih.firm_classDeclaration, ih.loose_methods, ih.firm_routine,
      ih.firm_statement hm, ih.firm_block, ih.tracks_blockItems⟩

/-! ## Programs -/

/-- Where nothing follows, a whole program is read in the same way. -/
theorem tracks_declarations (he : t.Exact) (n : Nat) :
    Steady t (List.map (Stmt.rename t.names)) (declarations n) (declarations n) := by
  have hm : t.more.head?.map (·.kind) ≠ some (.keyword .else_) := by simp [he.1]
  have hend : ∀ {ready : Cursor → Prop}, Tracks t ready id isAtEnd isAtEnd :=
    fun c => ⟨.refl c, fun _ => by simp [isAtEnd, Passage.isEmpty_cursor (.inl he)]⟩
  have hdeclaration : Steady t (Stmt.rename t.names) (fun c => declaration c.depth c)
      (fun c => declaration c.depth c) :=
    fun c => (statementTracks hm (t.fuel_depth c)).declaration.steady c
  induction n with
  | zero => exact .pure rfl
  | succ n ih =>
    rw [declarations]
    refine Steady.bind hend fun ends => ?_
    cases ends with
    | true => exact .pure rfl
    | false =>
      refine Steady.bind (steady_recovering hdeclaration) fun s => Steady.bind ih fun body => ?_
      exact .pure (by cases s <;> rfl)

theorem leads_declarations {n : Nat} {c c' : Cursor} {p : Program}
    (h : declarations n c = .ok p c') : c.Leads c' :=
  (tracks_declarations (t := .here) ⟨rfl, rfl⟩ n).leads h

/-- A declaration that is read without a fault is read in the same way when others follow. -/
theorem recovering_declaration_cursor
    (hm : t.more.head?.map (·.kind) ≠ some (.keyword .else_)) {c c' : Cursor} {s : Option Stmt}
    (h : recovering (fun c => declaration c.depth c) c = .ok s c') (hquiet : c'.reported = []) :
    c'.rest.length < c.rest.length ∧
      recovering (fun c => declaration c.depth c) (t.cursor c) =
        .ok (s.map (Stmt.rename t.names)) (t.cursor c') := by
  have hfirm := (statementTracks hm (t.fuel_depth c)).declaration
  unfold recovering at h ⊢
  cases hd : declaration c.depth c with
  | error d c₁ =>
    simp only [hd] at h
    cases h
    simp at hquiet
  | ok stmt c₁ =>
    simp only [hd] at h
    cases h
    refine ⟨hfirm.takes hd, ?_⟩
    simp only [hfirm.steady.ok hd (.inr ⟨hquiet, trivial⟩)]
    rfl

theorem map_apply {α β : Type} (g : α → β) (x : Reader α) (c : Cursor) :
    (g <$> x) c = match x c with
      | .ok a c' => .ok (g a) c'
      | .error d c' => .error d c' :=
  bind_apply x (fun a => pure (g a)) c

theorem declarations_of_nil {n : Nat} {c : Cursor} (h : c.rest = []) :
    declarations n c = .ok [] c := by
  cases n with
  | zero => rfl
  | succ n =>
    rw [declarations, bind_apply]
    simp only [isAtEnd, h, List.isEmpty_nil, if_true]
    rfl

/-- Before the end there is one more declaration, which is read or given up. -/
theorem declarations_of_ne_nil {n : Nat} {c : Cursor} (h : c.rest ≠ []) :
    declarations (n + 1) c = match recovering (fun c => declaration c.depth c) c with
      | .ok s c' => ((s.toList ++ ·) <$> declarations n) c'
      | .error d c' => .error d c' := by
  rw [declarations, bind_apply]
  simp only [isAtEnd, List.isEmpty_eq_false_iff.mpr h, Bool.false_eq_true, if_false, bind_apply]
  cases recovering (fun c => declaration c.depth c) c with
  | error d c' => rfl
  | ok s c' => exact (map_apply (s.toList ++ ·) (declarations n) c').symm

/-- A program is read in the same way when another one follows it. -/
theorem declarations_cursor (hm : t.more.head?.map (·.kind) ≠ some (.keyword .else_)) {n : Nat}
    {c c' : Cursor} {p : Program} (h : declarations n c = .ok p c') (hquiet : c'.reported = [])
    (hn : c.rest.length < n) :
    c'.rest = [] ∧ ∀ m ≥ c.rest.length, ∃ k ≥ m - c.rest.length, declarations m (t.cursor c) =
      ((p.map (Stmt.rename t.names) ++ ·) <$> declarations k) (t.cursor c') := by
  induction n generalizing c p with
  | zero => exact absurd hn (Nat.not_lt_zero _)
  | succ n ih =>
    cases hrest : c.rest with
    | nil =>
      rw [declarations_of_nil hrest] at h
      cases h
      refine ⟨hrest, fun m _ => ⟨m, Nat.sub_le _ _, ?_⟩⟩
      simp
    | cons token l =>
      rw [declarations_of_ne_nil (by simp [hrest])] at h
      cases hs : recovering (fun c => declaration c.depth c) c with
      | error d c₁ => simp [hs] at h
      | ok s c₁ =>
        simp only [hs, map_apply] at h
        cases hd : declarations n c₁ with
        | error d c₂ => simp [hd] at h
        | ok q c₂ =>
          simp only [hd] at h
          cases h
          have hquiet₁ : c₁.reported = [] :=
            List.prefix_nil.mp (hquiet ▸ (leads_declarations hd).reported)
          obtain ⟨hlt, hcursor⟩ := recovering_declaration_cursor hm hs hquiet₁
          obtain ⟨hend, hmore⟩ := ih hd (by omega)
          refine ⟨hend, fun m hge => ?_⟩
          rw [← hrest] at hge ⊢
          obtain ⟨m, rfl⟩ : ∃ i, m = i + 1 := Nat.exists_eq_succ_of_ne_zero (by omega)
          obtain ⟨k, hk, heq⟩ := hmore m (by omega)
          refine ⟨k, by omega, ?_⟩
          have hnonempty : (t.cursor c).rest ≠ [] := by simp [Passage.cursor, hrest]
          rw [declarations_of_ne_nil hnonempty]
          simp only [hcursor, map_apply, heq]
          cases declarations k (t.cursor c') with
          | error d c'' => rfl
          | ok rest c'' => cases s <;> simp

/-! ### What does not begin a program -/

def Fails {α : Type} (r : Reader α) (c : Cursor) : Prop := ∃ d c', r c = .error d c'

namespace Fails

variable {α β : Type} {c : Cursor}

theorem fail (what : Expected) : Fails (fail (α := α) what) c := ⟨_, _, rfl⟩

protected theorem bind {x : Reader β} {f : β → Reader α} (h : Fails x c) : Fails (x >>= f) c := by
  obtain ⟨d, c', h⟩ := h
  exact ⟨d, c', by rw [bind_apply, h]⟩

/-- The next token is not taken. -/
theorem of_takeIf? {test : Token → Option β} {f : Option β → Reader α} {token : Token}
    {l : List Token} (hrest : c.rest = token :: l) (ht : test token = none)
    (h : Fails (f none) c) : Fails (takeIf? test >>= f) c := by
  obtain ⟨d, c', h⟩ := h
  refine ⟨d, c', ?_⟩
  rw [bind_apply]
  simpa [takeIf?, hrest, ht] using h

theorem of_take? {kind : Token.Kind} {f : Option Token → Reader α} {token : Token}
    {l : List Token} (hrest : c.rest = token :: l) (ht : token.kind ≠ kind)
    (h : Fails (f none) c) : Fails (take? kind >>= f) c :=
  of_takeIf? hrest (by simp [ht]) h

end Fails

section Else

variable {c : Cursor} {token : Token} {l : List Token} (hrest : c.rest = token :: l)
  (hk : token.kind = .keyword .else_)
include hrest hk

theorem fails_primary (n : Nat) : Fails (primary n) c := by
  cases n with
  | zero => exact .fail _
  | succ n =>
    rw [primary]
    refine .of_takeIf? hrest (by simp [hk, literal?]) ?_
    refine .of_take? hrest (by simp [hk]) (.of_take? hrest (by simp [hk]) ?_)
    refine .of_take? hrest (by simp [hk]) (.of_take? hrest (by simp [hk]) ?_)
    exact .fail _

theorem fails_operation (n : Nat) (ts : List Tier) : Fails (operation n ts) c := by
  induction n generalizing ts with
  | zero => exact .fail _
  | succ n ih =>
    cases ts with
    | cons tier ts =>
      rw [operation]
      exact (ih ts).bind
    | nil =>
      rw [operation]
      cases n with
      | zero => exact .fail _
      | succ n =>
        rw [unary]
        refine .of_takeIf? hrest (by simp [hk, unaryOperator?]) ?_
        exact (fails_primary hrest hk n).bind

theorem fails_assignment (n : Nat) : Fails (assignment n) c := by
  cases n with
  | zero => exact .fail _
  | succ n =>
    rw [assignment]
    exact (fails_operation hrest hk n _).bind

theorem fails_declaration (n : Nat) : Fails (declaration n) c := by
  cases n with
  | zero => exact .fail _
  | succ n =>
    rw [declaration]
    refine .of_take? hrest (by simp [hk]) (.of_take? hrest (by simp [hk]) ?_)
    refine .of_take? hrest (by simp [hk]) ?_
    cases n with
    | zero => exact .fail _
    | succ n =>
      rw [statement]
      refine .of_take? hrest (by simp [hk]) (.of_take? hrest (by simp [hk]) ?_)
      refine .of_take? hrest (by simp [hk]) (.of_take? hrest (by simp [hk]) ?_)
      refine .of_take? hrest (by simp [hk]) (.of_take? hrest (by simp [hk]) ?_)
      obtain ⟨d, c', h⟩ := fails_assignment hrest hk c.depth
      exact Fails.bind ⟨d, c', (expression_apply c).trans h⟩

end Else

/-- No program begins with `else`. -/
theorem kind?_ne_else {n : Nat} {c c' : Cursor} {p : Program}
    (h : declarations (n + 1) c = .ok p c') (hquiet : c'.reported = []) :
    c.kind? ≠ some (.keyword .else_) := by
  intro hk
  obtain ⟨token, hhead, hkind⟩ := Option.map_eq_some_iff.mp hk
  obtain ⟨l, hrest⟩ := List.head?_eq_some_iff.mp hhead
  obtain ⟨d, c₁, hfails⟩ := fails_declaration hrest hkind c.depth
  rw [declarations_of_ne_nil (by simp [hrest])] at h
  simp only [recovering, hfails, map_apply] at h
  cases hd : declarations n { c₁ with reported := c₁.reported ++ [d], rest := recover c₁.rest } with
  | error d' c₂ => simp [hd] at h
  | ok q c₂ =>
    simp only [hd] at h
    cases h
    have := List.prefix_nil.mp (hquiet ▸ (leads_declarations hd).reported)
    simp at this

end Reader

/-! ## Whole sources -/

/-- Renames what was read and all faults. -/
def Reading.rename (f : Renaming) (r : Reading Program) : Reading Program where
  result := match r.result with
    | .ok p => .ok (p.map (·.rename f))
    | .error ds => .error (ds.map (·.rename f))
  nextSite := f.site r.nextSite

/-- On other lines and with other sites, the same is read. -/
theorem readProgram_rename (shift : Nat) (line : Nat → Nat) (tokens : List Token) (endLine : Nat)
    (first : Site) :
    readProgram (tokens.map (·.rename ⟨(· + shift), line⟩)) (line endLine) (first + shift) =
      (readProgram tokens endLine first).rename ⟨(· + shift), line⟩ := by
  let t : Passage := ⟨shift, line, [], line⟩
  have he : t.Exact := ⟨rfl, rfl⟩
  have htracks := Reader.tracks_declarations he (tokens.length + 1)
  have hcursor : t.cursor ⟨tokens, endLine, first, []⟩ =
      ⟨tokens.map (·.rename t.names), line endLine, first + shift, []⟩ := by
    simp [Passage.cursor, t]
  simp only [readProgram, Reading.of, Reader.program, List.length_map]
  cases h : Reader.declarations (tokens.length + 1) ⟨tokens, endLine, first, []⟩ with
  | ok p c =>
    have hok := htracks.ok h (.inl he)
    rw [hcursor] at hok
    rw [show (⟨(· + shift), line⟩ : Renaming) = t.names from rfl, hok]
    cases hr : c.reported <;> simp [Reading.rename, Passage.cursor, hr, t, Passage.names]
  | error d c =>
    have herror := htracks.error h he
    rw [hcursor] at herror
    rw [show (⟨(· + shift), line⟩ : Renaming) = t.names from rfl, herror]
    simp [Reading.rename, Passage.cursor, t, Passage.names]

theorem readProgram_eq_ok {tokens : List Token} {endLine : Nat} {first next : Site} {p : Program}
    (h : readProgram tokens endLine first = ⟨.ok p, next⟩) :
    ∃ c, Reader.declarations (tokens.length + 1) ⟨tokens, endLine, first, []⟩ = .ok p c ∧
      c.reported = [] ∧ c.nextSite = next := by
  simp only [readProgram, Reading.of, Reader.program] at h
  cases hd : Reader.declarations (tokens.length + 1) ⟨tokens, endLine, first, []⟩ with
  | error d c => simp [hd] at h
  | ok q c =>
    rw [hd] at h
    simp only [Reading.mk.injEq] at h
    obtain ⟨hresult, hnext⟩ := h
    split at hresult
    · next hquiet =>
      cases hresult
      exact ⟨c, rfl, List.isEmpty_iff.mp hquiet, hnext⟩
    · cases hresult

/-- A program without faults is read in the same way when other tokens follow, and then the others are
read. -/
theorem exists_declarations_append {ps : List Token} {endLine : Nat} {first mid : Site} {p : Program}
    (hp : readProgram ps endLine first = ⟨.ok p, mid⟩) {qs : List Token}
    (hq : qs.head?.map (·.kind) ≠ some (.keyword .else_)) (last : Nat) {m : Nat}
    (hm : ps.length ≤ m) :
    ∃ k ≥ m - ps.length, Reader.declarations m ⟨ps ++ qs, last, first, []⟩ =
      ((p ++ ·) <$> Reader.declarations k) ⟨qs, last, mid, []⟩ := by
  obtain ⟨c, hread, hquiet, rfl⟩ := readProgram_eq_ok hp
  let t : Passage := ⟨0, id, qs, fun _ => last⟩
  have hcursor : ∀ c : Cursor, c.reported = [] →
      t.cursor c = ⟨c.rest ++ qs, last, c.nextSite, []⟩ := fun c hquiet => by
    have hmap : c.rest.map (·.rename t.names) = c.rest := List.map_id _
    simp [Passage.cursor, t, hmap, hquiet]
  have hrename : p.map (Stmt.rename t.names) = p :=
    (List.map_congr_left fun s _ => Stmt.rename_id s).trans (List.map_id' p)
  obtain ⟨hend, happend⟩ := Reader.declarations_cursor (t := t) hq hread hquiet (Nat.lt_succ_self _)
  obtain ⟨k, hk, heq⟩ := happend m hm
  rw [hcursor _ hquiet, hend, hcursor _ rfl, hrename] at heq
  exact ⟨k, hk, heq⟩

/-- Two programs one after the other are read as one. -/
theorem readProgram_append {ps qs : List Token} {endLine endLine' : Nat} {first mid next : Site}
    {p q : Program} (hp : readProgram ps endLine first = ⟨.ok p, mid⟩)
    (hq : readProgram qs endLine' mid = ⟨.ok q, next⟩) (last : Nat) :
    readProgram (ps ++ qs) last first = ⟨.ok (p ++ q), next⟩ := by
  obtain ⟨c, hread, hquiet, -⟩ := readProgram_eq_ok hq
  -- The second program is read with as much fuel as is left by the first.
  obtain ⟨k, hk, heq⟩ := exists_declarations_append hp (Reader.kind?_ne_else hread hquiet) last
    (m := (ps ++ qs).length + 1) (by simp; omega)
  have hnone : ([] : List Token).head?.map (·.kind) ≠ some (.keyword .else_) := by simp
  obtain ⟨k', -, heq'⟩ := exists_declarations_append hq hnone last (m := k) (by simp at hk ⊢; omega)
  have hnothing := Reader.declarations_of_nil (n := k') (c := ⟨[], last, next, []⟩) rfl
  rw [List.append_nil, Reader.map_apply, hnothing] at heq'
  rw [Reader.map_apply, heq'] at heq
  simp only [readProgram, Reading.of, Reader.program, heq, List.append_nil, List.isEmpty_nil, if_true]

end LoxLang.Grammar
