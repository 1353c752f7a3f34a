import LoxLang.Proofs.Grammar.Tracking

/-!
# How deep readers are nested

The readers of the grammar call one another, with a bound on the nesting that is lowered at each
call. Here the bound is taken away: `Production.body` says which calls a reader makes, and
`Production.unroll` puts calls in the places of calls as often as is asked for, down to readers that
may do anything. A reader calls others only when fewer tokens are left, or a reader that stands
lower. So the readers at the bottom are never reached, and what is read is what the bounded readers
read.

## Main definitions

* `Production`: the readers that call one another.
* `Production.read`: a reader with a bound on the nesting.
* `Production.body`: a reader, given the readers that it calls.
* `Production.unroll`: calls within calls, without a bound of the readers' own.
* `Production.bound`: a number of calls within calls that is enough.

## Main results

* `Production.body_congr`: which calls a reader makes.
* `Production.unroll_eq_read`: the calls come to an end.
-/

namespace LoxLang.Grammar

/-- The readers that call one another, with what they read. -/
inductive Production : Type → Type where
  | assignment : Production Expr
  | operation (tiers : List Tier) : Production Expr
  | operationRest (tier : Tier) (tiers : List Tier) (left : Expr) : Production Expr
  | unary : Production Expr
  | callRest (callee : Expr) : Production Expr
  | arguments (count : Nat) : Production (List Expr)
  | primary : Production Expr
  | parameters (count : Nat) : Production (List Name)
  | declaration : Production Stmt
  | classDeclaration : Production Stmt
  | methods : Production (List Routine)
  | routine (kind : RoutineKind) : Production Routine
  | statement : Production Stmt
  | block : Production (List Stmt)
  | blockItems : Production (List Stmt)
  | declarations : Production Program

namespace Production

variable {α : Type}

/-- The reader with a bound on the nesting. -/
def read {α : Type} : Production α → Nat → Reader α
  | .assignment, n => Reader.assignment n
  | .operation tiers, n => Reader.operation n tiers
  | .operationRest tier tiers left, n => Reader.operationRest n tier tiers left
  | .unary, n => Reader.unary n
  | .callRest callee, n => Reader.callRest n callee
  | .arguments count, n => Reader.arguments n count
  | .primary, n => Reader.primary n
  | .parameters count, n => Reader.parameters n count
  | .declaration, n => Reader.declaration n
  | .classDeclaration, n => Reader.classDeclaration n
  | .methods, n => Reader.methods n
  | .routine kind, n => Reader.routine n kind
  | .statement, n => Reader.statement n
  | .block, n => Reader.block n
  | .blockItems, n => Reader.blockItems n
  | .declarations, n => Reader.declarations n

open Reader in
/-- What a reader does when `call` is put for the readers that it calls. Expressions and parameters
within statements, and declarations within a program, are read with a bound of their own. -/
def body {α : Type} (call : ∀ {β : Type}, Production β → Reader β) : Production α → Reader α
  | .assignment => do
    let target ← call (.operation Tier.all)
    match ← takeMark? .equal with
    | none => return target
    | some sign => assignTo sign (← call .assignment) target
  | .operation [] => call .unary
  | .operation (tier :: tiers) => do
    call (.operationRest tier tiers (← call (.operation tiers)))
  | .operationRest tier tiers left => do
    match ← takeOperator? tier with
    | none => return left
    | some (op, line) =>
      call (.operationRest tier tiers (op.apply line left (← call (.operation tiers))))
  | .unary => do
    match ← takeUnary? with
    | some (op, line) => return .unary op line (← call .unary)
    | none => call (.callRest (← call .primary))
  | .callRest callee => do
    match ← takeMark? .leftParen with
    | some _ =>
      let args ← if ← isNext (.mark .rightParen) then pure [] else call (.arguments 0)
      let paren ← expectMark .rightParen .argumentsEnd
      call (.callRest (.call callee paren.line args))
    | none =>
      match ← takeMark? .dot with
      | some _ => call (.callRest (.get callee (← expectName .propertyName)))
      | none => return callee
  | .arguments count => do
    if maxArity ≤ count then reportHere .tooManyArguments
    commaList (call .assignment) (call (.arguments (count + 1)))
  | .primary => do
    if let some value ← takeLiteral? then return .literal value
    if let some keyword ← takeKeyword? .super then
      let _ ← expectMark .dot .superDot
      let method ← expectName .superMethod
      return .super (← freshSite) keyword.line method
    if let some keyword ← takeKeyword? .this then return .this (← freshSite) keyword.line
    if let some token ← take? .identifier then
      return .variable (← freshSite) ⟨token.lexeme, token.line⟩
    if let some _ ← takeMark? .leftParen then
      let inner ← call .assignment
      let _ ← expectMark .rightParen .groupEnd
      return .group inner
    fail .expression
  | .parameters count => do
    if maxArity ≤ count then reportHere .tooManyParameters
    commaList (expectName .parameterName) (call (.parameters (count + 1)))
  | .declaration => do
    if let some _ ← takeKeyword? .class_ then
      call .classDeclaration
    else if let some _ ← takeKeyword? .fun_ then
      .function <$> call (.routine .function)
    else if let some _ ← takeKeyword? .var then
      varDeclaration
    else
      call .statement
  | .classDeclaration => do
    let name ← expectName .className
    let parent ← superclass
    let _ ← expectMark .leftBrace .classBody
    let methods ← call .methods
    let _ ← expectMark .rightBrace .classEnd
    return .class_ name parent methods
  | .methods => do
    if ← isNext (.mark .rightBrace) then return []
    if ← isAtEnd then return []
    let method ← call (.routine .method)
    return method :: (← call .methods)
  | .routine kind => do
    let name ← expectName (.routineName kind)
    let _ ← expectMark .leftParen (.parameters kind)
    let params ← parameterList
    let _ ← expectMark .rightParen .parametersEnd
    let _ ← expectMark .leftBrace (.routineBody kind)
    return .mk name params (← call .block)
  | .statement => do
    if let some _ ← takeKeyword? .for_ then
      let (init, condition, increment) ← forClauses
      return forLoop init condition increment (← call .statement)
    else if let some _ ← takeKeyword? .if_ then
      let condition ← condition .ifCondition .ifConditionEnd
      let then_ ← call .statement
      match ← takeKeyword? .else_ with
      | some _ => return .if_ condition then_ (some (← call .statement))
      | none => return .if_ condition then_ none
    else if let some _ ← takeKeyword? .print then
      printStatement
    else if let some keyword ← takeKeyword? .return_ then
      returnStatement keyword.line
    else if let some _ ← takeKeyword? .while_ then
      let condition ← condition .whileCondition .whileConditionEnd
      return .while_ condition (← call .statement)
    else if let some _ ← takeMark? .leftBrace then
      return .block (← call .block)
    else
      expressionStatement
  | .block => do
    let body ← call .blockItems
    let _ ← expectMark .rightBrace .blockEnd
    return body
  | .blockItems => do
    if ← isNext (.mark .rightBrace) then return []
    if ← isAtEnd then return []
    let s ← recovering (call .declaration)
    return s.toList ++ (← call .blockItems)
  | .declarations => do
    if ← isAtEnd then return []
    let s ← recovering fun c => Reader.declaration c.depth c
    return s.toList ++ (← call .declarations)

/-- Calls within calls, `k` of them, and then the readers `bottom`. -/
def unroll (bottom : ∀ {β : Type}, Production β → Reader β) :
    Nat → ∀ {β : Type}, Production β → Reader β
  | 0, _, p => bottom p
  | k + 1, _, p => p.body (unroll bottom k)

theorem read_succ (p : Production α) (n : Nat) : p.read (n + 1) = p.body fun q => q.read n := by
  cases p with
  | operation tiers => cases tiers <;> rfl
  | _ => rfl

/-- A number of calls within calls that is enough when `n` tokens are left. -/
def bound {α : Type} : Production α → Nat → Nat
  | .declarations, n => n + 1
  | .primary, n | .callRest _, n | .parameters _, n => 16 * n + 1
  | .operationRest _ tiers _, n => 16 * n + tiers.length + 1
  | .unary, n => 16 * n + 2
  | .operation tiers, n => 16 * n + tiers.length + 3
  | .assignment, n => 16 * n + 10
  | .arguments _, n => 16 * n + 11
  | .classDeclaration, n | .routine _, n | .statement, n => 16 * n + 1
  | .declaration, n | .methods, n => 16 * n + 2
  | .blockItems, n => 16 * n + 3
  | .block, n => 16 * n + 4

theorem bound_pos (p : Production α) (n : Nat) : 0 < p.bound n := by
  cases p <;> exact Nat.succ_pos _

/-! ## Cursors -/

/-- Readers only move on, with any bound. -/
theorem exists_tracks (p : Production α) (n : Nat) :
    ∃ ready φ r', Reader.Tracks .here ready φ (p.read n) r' := by
  have hfuel : Passage.here.Fuel n n := ⟨Nat.le_refl n, fun _ => rfl⟩
  have he := Reader.expressionTracks hfuel
  have hs := Reader.statementTracks (by simp [Passage.here]) hfuel
  cases p with
  | assignment => exact ⟨_, _, _, he.assignment⟩
  | operation tiers => exact ⟨_, _, _, he.operation tiers⟩
  | operationRest tier tiers left => exact ⟨_, _, _, he.operationRest tier tiers left⟩
  | unary => exact ⟨_, _, _, he.unary⟩
  | callRest callee => exact ⟨_, _, _, he.callRest callee⟩
  | arguments count => exact ⟨_, _, _, he.arguments count⟩
  | primary => exact ⟨_, _, _, he.primary⟩
  | parameters count => exact ⟨_, _, _, Reader.stopping_parameters hfuel count⟩
  | declaration => exact ⟨_, _, _, hs.declaration.steady⟩
  | classDeclaration => exact ⟨_, _, _, hs.classDeclaration.steady⟩
  | methods => exact ⟨_, _, _, hs.methods⟩
  | routine kind => exact ⟨_, _, _, (hs.routine kind).steady⟩
  | statement => exact ⟨_, _, _, hs.statement.steady⟩
  | block => exact ⟨_, _, _, hs.block.steady⟩
  | blockItems => exact ⟨_, _, _, hs.blockItems⟩
  | declarations => exact ⟨_, _, _, Reader.tracks_declarations ⟨rfl, rfl⟩ n⟩

theorem leads_of_read {p : Production α} {n : Nat} {c c' : Cursor} {a : α}
    (h : p.read n c = .ok a c') : c.Leads c' := by
  obtain ⟨ready, φ, r', htracks⟩ := p.exists_tracks n
  exact htracks.leads h

theorem leads_of_read_error {p : Production α} {n : Nat} {c c' : Cursor} {d : Diagnostic}
    (h : p.read n c = .error d c') : c.Leads c' := by
  obtain ⟨ready, φ, r', htracks⟩ := p.exists_tracks n
  exact htracks.leads_of_error h

/-- Something stands before a proper suffix. -/
theorem exists_cons_suffix {α : Type} {l m : List α} (h : l <:+ m) (hlt : l.length < m.length) :
    ∃ a, a :: l <:+ m := by
  obtain ⟨init, rfl⟩ := h
  rcases List.eq_nil_or_concat init with rfl | ⟨init, a, rfl⟩
  · simp at hlt
  · exact ⟨a, init, by simp⟩

/-- Whether a declaration is read or given up, at least one token is left behind. -/
theorem exists_recovering_declaration {r : Reader Stmt} {n : Nat} {c : Cursor}
    (hr : r c = Reader.declaration n c) (hc : c.rest ≠ []) :
    ∃ s c' last, Reader.recovering r c = .ok s c' ∧ last :: c'.rest <:+ c.rest := by
  have hfirm := (Reader.statementTracks (t := .here) (by simp [Passage.here])
    ⟨Nat.le_refl n, fun _ => rfl⟩).declaration
  rw [Reader.recovering, hr]
  cases hd : Reader.declaration n c with
  | ok s c' =>
    obtain ⟨last, hlast⟩ := exists_cons_suffix (hfirm.steady.leads hd).rest (hfirm.takes hd)
    exact ⟨some s, c', last, rfl, hlast⟩
  | error d c' =>
    have hsuffix := (hfirm.steady.leads_of_error hd).rest
    have hlt : (recover c'.rest).length < c.rest.length := by
      cases hrest : c'.rest with
      | nil => exact List.length_pos_iff.mpr hc
      | cons t l =>
        have hskip := (Reader.skipToBorder_suffix t l).length_le
        have hle := hsuffix.length_le
        rw [hrest, List.length_cons] at hle
        simp only [recover]
        omega
    obtain ⟨last, hlast⟩ := exists_cons_suffix ((Reader.recover_suffix _).trans hsuffix) hlt
    exact ⟨none, _, last, rfl, hlast⟩

end Production

/-! ## Readers that do the same for a while -/

namespace Reader

variable {α β : Type}

/-- Two readers do the same when at most `n` tokens are left. -/
def AgreesTo (n : Nat) (r r' : Reader α) : Prop := ∀ c, c.rest.length ≤ n → r c = r' c

namespace AgreesTo

variable {n : Nat} {x x' : Reader β} {f f' : β → Reader α}

protected theorem refl (r : Reader α) : AgreesTo n r r := fun _ _ => rfl

protected theorem bind (hx : AgreesTo n x x')
    (hle : ∀ {c b c'}, x' c = .ok b c' → c'.rest.length ≤ c.rest.length)
    (hf : ∀ b, AgreesTo n (f b) (f' b)) : AgreesTo n (x >>= f) (x' >>= f') := by
  intro c hc
  rw [bind_apply, bind_apply, hx c hc]
  cases hxc : x' c with
  | error d c' => rfl
  | ok b c' => exact hf b c' (Nat.le_trans (hle hxc) hc)

/-- What comes after it is the same reader. -/
theorem bind_left (hx : AgreesTo n x x') (f : β → Reader α) : AgreesTo n (x >>= f) (x' >>= f) := by
  intro c hc
  rw [bind_apply, bind_apply, hx c hc]

/-- What comes after a reader that takes a token is read with fewer tokens. -/
theorem bind_of_takes (hx : AgreesTo n x x')
    (hlt : ∀ {c b c'}, x' c = .ok b c' → c'.rest.length < c.rest.length)
    (hf : ∀ k < n, ∀ b, AgreesTo k (f b) (f' b)) : AgreesTo n (x >>= f) (x' >>= f') := by
  intro c hc
  rw [bind_apply, bind_apply, hx c hc]
  cases hxc : x' c with
  | error d c' => rfl
  | ok b c' => exact hf _ (Nat.lt_of_lt_of_le (hlt hxc) hc) b c' (Nat.le_refl _)

theorem takeIf? {test : Token → Option β} {f f' : Option β → Reader α}
    (hnone : AgreesTo n (f none) (f' none))
    (hsome : ∀ k < n, ∀ b, AgreesTo k (f (some b)) (f' (some b))) :
    AgreesTo n (takeIf? test >>= f) (takeIf? test >>= f') := by
  intro c hc
  rw [bind_apply, bind_apply, Reader.takeIf?]
  cases hrest : c.rest with
  | nil => exact hnone c hc
  | cons t l =>
    dsimp only
    cases test t with
    | none => exact hnone c hc
    | some b =>
      rw [hrest] at hc
      exact hsome l.length hc b _ (Nat.le_refl _)

theorem expectMark {m : Mark} {what : Expected} {f f' : Token → Reader α}
    (hf : ∀ k < n, ∀ t, AgreesTo k (f t) (f' t)) :
    AgreesTo n (expectMark m what >>= f) (expectMark m what >>= f') :=
  bind_of_takes (.refl _) (Firm.expectMark (t := .here) m what).takes hf

theorem expectName {what : Expected} {f f' : Name → Reader α}
    (hf : ∀ k < n, ∀ name, AgreesTo k (f name) (f' name)) :
    AgreesTo n (expectName what >>= f) (expectName what >>= f') :=
  bind_of_takes (.refl _) (Firm.expectName (t := .here) what).takes hf

/-- Looking at the cursor. -/
theorem isNext {kind : Token.Kind} {f f' : Bool → Reader α} (hf : ∀ b, AgreesTo n (f b) (f' b)) :
    AgreesTo n (isNext kind >>= f) (isNext kind >>= f') :=
  .bind (.refl _) (fun h => by cases h; exact Nat.le_refl _) hf

theorem isAtEnd {f f' : Bool → Reader α} (hf : ∀ b, AgreesTo n (f b) (f' b)) :
    AgreesTo n (isAtEnd >>= f) (isAtEnd >>= f') :=
  .bind (.refl _) (fun h => by cases h; exact Nat.le_refl _) hf

theorem commaList {more more' : Reader (List β)} (hx : AgreesTo n x x')
    (hle : ∀ {c b c'}, x' c = .ok b c' → c'.rest.length ≤ c.rest.length)
    (hmore : ∀ k < n, AgreesTo k more more') :
    AgreesTo n (commaList x more) (commaList x' more') := by
  unfold Reader.commaList
  refine hx.bind hle fun b => takeIf? (.refl _) fun k hk _ => ?_
  exact (hmore k hk).bind_left _

/-- Declarations up to the end: each of them leaves at least one token behind. -/
theorem items {r r' : Reader Stmt} {more more' : Reader (List Stmt)} (hr : AgreesTo n r r')
    (htakes : ∀ c, c.rest ≠ [] →
      ∃ s c' last, recovering r' c = .ok s c' ∧ last :: c'.rest <:+ c.rest)
    (hmore : ∀ k < n, AgreesTo k more more') :
    AgreesTo n
      (do
        if ← Reader.isAtEnd then return []
        let s ← recovering r
        return s.toList ++ (← more))
      (do
        if ← Reader.isAtEnd then return []
        let s ← recovering r'
        return s.toList ++ (← more')) := by
  intro c hc
  simp only [bind_apply, Reader.isAtEnd]
  cases hrest : c.rest with
  | nil => rfl
  | cons t l =>
    have hsame : recovering r c = recovering r' c := by rw [recovering, recovering, hr c hc]
    obtain ⟨s, c', last, hs, hsuffix⟩ := htakes c (by simp [hrest])
    have hlt := hsuffix.length_le
    simp only [List.isEmpty_cons, Bool.false_eq_true, if_false, bind_apply, hsame, hs]
    rw [hmore c'.rest.length (Nat.lt_of_lt_of_le hlt hc) c' (Nat.le_refl _)]

end AgreesTo

end Reader

namespace Production

/-! ## Calls -/

/-- Where less than `b` calls within calls are enough, `call` is the reader with the bound `m`. -/
def Below (call : ∀ {β : Type}, Production β → Reader β) (m b : Nat) : Prop :=
  ∀ {β : Type} (q : Production β) (k : Nat), q.bound k < b → Reader.AgreesTo k (call q) (q.read m)

section Calls

open Reader (AgreesTo)

variable {call : ∀ {β : Type}, Production β → Reader β} {m n : Nat}

theorem length_le_of_read {β : Type} {q : Production β} {c c' : Cursor} {b : β}
    (h : q.read m c = .ok b c') : c'.rest.length ≤ c.rest.length :=
  (leads_of_read h).rest.length_le

theorem agrees_assignment (h : Below call m (assignment.bound n)) :
    AgreesTo n (assignment.body call) (assignment.body fun q => q.read m) := by
  refine .bind (h (.operation Tier.all) n (Nat.lt_succ_self _)) length_le_of_read fun target => ?_
  refine .takeIf? (.refl _) fun k hk sign => ?_
  exact .bind_left (h .assignment k (by simp only [bound]; omega)) _

theorem agrees_operation (tiers : List Tier) (h : Below call m ((operation tiers).bound n)) :
    AgreesTo n ((operation tiers).body call) ((operation tiers).body fun q => q.read m) := by
  cases tiers with
  | nil => exact h .unary n (Nat.lt_succ_self _)
  | cons tier tiers =>
    refine .bind (h (.operation tiers) n (Nat.lt_succ_self _)) length_le_of_read fun left => ?_
    exact h (.operationRest tier tiers left) n (by simp only [bound, List.length_cons]; omega)

theorem agrees_operationRest (tier : Tier) (tiers : List Tier) (left : Expr)
    (h : Below call m ((operationRest tier tiers left).bound n)) :
    AgreesTo n ((operationRest tier tiers left).body call)
      ((operationRest tier tiers left).body fun q => q.read m) := by
  refine .takeIf? (.refl _) fun k hk found => ?_
  refine .bind (h (.operation tiers) k ?_) length_le_of_read fun right => ?_
  · simp only [bound]
    omega
  · exact h (.operationRest tier tiers _) k (by simp only [bound]; omega)

theorem agrees_unary (h : Below call m (unary.bound n)) :
    AgreesTo n (unary.body call) (unary.body fun q => q.read m) := by
  refine .takeIf? ?_ fun k hk found => ?_
  · refine .bind (h .primary n (Nat.lt_succ_self _)) length_le_of_read fun e => ?_
    exact h (.callRest e) n (Nat.lt_succ_self _)
  · exact .bind_left (h .unary k (by simp only [bound]; omega)) _

theorem agrees_callRest (callee : Expr) (h : Below call m ((callRest callee).bound n)) :
    AgreesTo n ((callRest callee).body call) ((callRest callee).body fun q => q.read m) := by
  refine .takeIf? ?_ fun k hk _ => ?_
  · refine .takeIf? (.refl _) fun k hk _ => .expectName fun j hj name => ?_
    exact h (.callRest _) j (by simp only [bound]; omega)
  · have hafter : ∀ args, AgreesTo k
        (Reader.expectMark .rightParen .argumentsEnd >>= fun paren =>
          call (.callRest (.call callee paren.line args)))
        (Reader.expectMark .rightParen .argumentsEnd >>= fun paren =>
          (Production.callRest (.call callee paren.line args)).read m) :=
      fun args => .expectMark fun j hj paren => h (.callRest _) j (by simp only [bound]; omega)
    refine .isNext fun closes => ?_
    cases closes with
    | true => exact hafter []
    | false =>
      exact .bind (h (.arguments 0) k (by simp only [bound]; omega)) length_le_of_read hafter

theorem agrees_arguments (count : Nat) (h : Below call m ((arguments count).bound n)) :
    AgreesTo n ((arguments count).body call) ((arguments count).body fun q => q.read m) := by
  have hitems : AgreesTo n
      (Reader.commaList (call .assignment) (call (.arguments (count + 1))))
      (Reader.commaList (assignment.read m) ((arguments (count + 1)).read m)) :=
    .commaList (h .assignment n (Nat.lt_succ_self _)) length_le_of_read fun k hk =>
      h (.arguments _) k (by simp only [bound]; omega)
  rw [body, body]
  split
  · exact .bind (.refl _) (fun h => by cases h; exact Nat.le_refl _) fun _ => hitems
  · exact hitems

theorem agrees_primary (h : Below call m (primary.bound n)) :
    AgreesTo n (primary.body call) (primary.body fun q => q.read m) := by
  refine .takeIf? ?_ fun k hk value => .refl _
  refine .takeIf? ?_ fun k hk keyword => .refl _
  refine .takeIf? ?_ fun k hk keyword => .refl _
  refine .takeIf? ?_ fun k hk token => .refl _
  refine .takeIf? (.refl _) fun k hk paren => ?_
  exact .bind_left (h .assignment k (by simp only [bound]; omega)) _

theorem agrees_parameters (count : Nat) (h : Below call m ((parameters count).bound n)) :
    AgreesTo n ((parameters count).body call) ((parameters count).body fun q => q.read m) := by
  have hitems : AgreesTo n
      (Reader.commaList (Reader.expectName .parameterName) (call (.parameters (count + 1))))
      (Reader.commaList (Reader.expectName .parameterName) ((parameters (count + 1)).read m)) :=
    .commaList (.refl _) (fun h => Nat.le_of_lt ((Reader.Firm.expectName (t := .here) _).takes h))
      fun k hk => h (.parameters _) k (by simp only [bound]; omega)
  rw [body, body]
  split
  · exact .bind (.refl _) (fun h => by cases h; exact Nat.le_refl _) fun _ => hitems
  · exact hitems

theorem agrees_declaration (h : Below call m (declaration.bound n)) :
    AgreesTo n (declaration.body call) (declaration.body fun q => q.read m) := by
  refine .takeIf? ?_ fun k hk _ => h .classDeclaration k (by simp only [bound]; omega)
  refine .takeIf? ?_ fun k hk _ => ?_
  · refine .takeIf? ?_ fun k hk _ => .refl _
    exact h .statement n (Nat.lt_succ_self _)
  · exact .bind_left (h (.routine .function) k (by simp only [bound]; omega)) _

theorem agrees_classDeclaration (h : Below call m (classDeclaration.bound n)) :
    AgreesTo n (classDeclaration.body call) (classDeclaration.body fun q => q.read m) := by
  refine .expectName fun k hk name => ?_
  refine .bind (.refl _) (fun h => ?_) fun parent => ?_
  · exact (Reader.loose_superclass (t := .here).leads h).rest.length_le
  refine .expectMark fun j hj _ => ?_
  exact .bind_left (h .methods j (by simp only [bound]; omega)) _

theorem agrees_methods (h : Below call m (methods.bound n)) :
    AgreesTo n (methods.body call) (methods.body fun q => q.read m) := by
  have hroutine := (Reader.statementTracks (t := .here) (by simp [Passage.here])
    ⟨Nat.le_refl m, fun _ => rfl⟩).routine .method
  refine .isNext fun closes => ?_
  cases closes with
  | true => exact .refl _
  | false =>
  refine .isAtEnd fun ends => ?_
  cases ends with
  | true => exact .refl _
  | false =>
    refine .bind_of_takes (h (.routine .method) n (Nat.lt_succ_self _)) hroutine.takes ?_
    exact fun k hk method => .bind_left (h .methods k (by simp only [bound]; omega)) _

theorem agrees_routine (kind : RoutineKind) (h : Below call m ((routine kind).bound n)) :
    AgreesTo n ((routine kind).body call) ((routine kind).body fun q => q.read m) := by
  refine .expectName fun k hk name => .expectMark fun j hj _ => ?_
  refine .bind (.refl _) (fun h => ?_) fun params => .expectMark fun i hi _ => ?_
  · exact (Reader.stopping_parameterList (t := .here).leads h).rest.length_le
  refine .expectMark fun i' hi' _ => ?_
  exact .bind_left (h .block i' (by simp only [bound]; omega)) _

theorem agrees_statement (h : Below call m (statement.bound n)) :
    AgreesTo n (statement.body call) (statement.body fun q => q.read m) := by
  have hstatement : ∀ k < n, AgreesTo k (call .statement) (statement.read m) :=
    fun k hk => h .statement k (by simp only [bound]; omega)
  have hcondition : ∀ opening closing {c b c'}, Reader.condition opening closing c = .ok b c' →
      c'.rest.length < c.rest.length :=
    fun opening closing => (Reader.firm_condition (t := .here) opening closing).takes
  refine .takeIf? ?_ fun k hk _ => ?_
  · refine .takeIf? ?_ fun k hk _ => ?_
    · refine .takeIf? ?_ fun k hk _ => .refl _
      refine .takeIf? ?_ fun k hk _ => .refl _
      refine .takeIf? ?_ fun k hk _ => ?_
      · refine .takeIf? (.refl _) fun k hk _ => ?_
        exact .bind_left (h .block k (by simp only [bound]; omega)) _
      · refine .bind_of_takes (.refl _) (hcondition _ _) fun j hj condition => ?_
        exact .bind_left (hstatement j (by omega)) _
    · refine .bind_of_takes (.refl _) (hcondition _ _) fun j hj condition => ?_
      refine .bind (hstatement j (by omega)) length_le_of_read fun then_ => ?_
      refine .takeIf? (.refl _) fun i hi _ => ?_
      exact .bind_left (hstatement i (by omega)) _
  · have hclauses := Reader.firm_forClauses (t := .here)
    refine .bind_of_takes (.refl _) hclauses.takes fun j hj clauses => ?_
    exact .bind_left (hstatement j (by omega)) _

theorem agrees_block (h : Below call m (block.bound n)) :
    AgreesTo n (block.body call) (block.body fun q => q.read m) :=
  .bind_left (h .blockItems n (Nat.lt_succ_self _)) _

theorem agrees_blockItems (h : Below call m (blockItems.bound n)) :
    AgreesTo n (blockItems.body call) (blockItems.body fun q => q.read m) := by
  refine .isNext fun closes => ?_
  cases closes with
  | true => exact .refl _
  | false =>
    exact .items (h .declaration n (Nat.lt_succ_self _))
      (fun c hc => exists_recovering_declaration rfl hc)
      fun k hk => h .blockItems k (by simp only [bound]; omega)

theorem agrees_declarations (h : Below call m (declarations.bound n)) :
    AgreesTo n (declarations.body call) (declarations.body fun q => q.read m) := by
  have hdeclaration : AgreesTo n (fun c => Reader.declaration c.depth c)
      (fun c => Reader.declaration c.depth c) := .refl _
  exact .items hdeclaration (fun c hc => exists_recovering_declaration rfl hc)
    fun k hk => h .declarations k (by simp only [bound]; omega)

/-- A reader makes no other calls than those for which fewer calls within calls are enough. -/
theorem body_congr {α : Type} (p : Production α) (h : Below call m (p.bound n)) :
    AgreesTo n (p.body call) (p.body fun q => q.read m) := by
  cases p with
  | assignment => exact agrees_assignment h
  | operation tiers => exact agrees_operation tiers h
  | operationRest tier tiers left => exact agrees_operationRest tier tiers left h
  | unary => exact agrees_unary h
  | callRest callee => exact agrees_callRest callee h
  | arguments count => exact agrees_arguments count h
  | primary => exact agrees_primary h
  | parameters count => exact agrees_parameters count h
  | declaration => exact agrees_declaration h
  | classDeclaration => exact agrees_classDeclaration h
  | methods => exact agrees_methods h
  | routine kind => exact agrees_routine kind h
  | statement => exact agrees_statement h
  | block => exact agrees_block h
  | blockItems => exact agrees_blockItems h
  | declarations => exact agrees_declarations h

end Calls

/-! ## The calls come to an end -/

variable (bottom : ∀ {β : Type}, Production β → Reader β)

/-- As many calls within calls as the bound allows are enough. -/
theorem agrees_unroll (p : Production α) {n k : Nat} (h : p.bound n ≤ k) (m : Nat) :
    Reader.AgreesTo n (unroll bottom k p) (p.read (m + k)) := by
  induction k generalizing α p n with
  | zero => exact absurd h (Nat.not_le.mpr (p.bound_pos n))
  | succ k ih =>
    have hbelow : Below (unroll bottom k) (m + k) (p.bound n) :=
      fun q j hj => ih q (Nat.le_of_lt_succ (Nat.lt_of_lt_of_le hj h))
    rw [unroll, ← Nat.add_assoc, read_succ]
    exact p.body_congr hbelow

/-- Whatever stands at the bottom, the calls come to an end before it, with what is read when the
bound on the nesting is large enough. -/
theorem unroll_eq_read (p : Production α) (c : Cursor) {k m : Nat}
    (hk : p.bound c.rest.length ≤ k) (hm : p.bound c.rest.length ≤ m) :
    unroll bottom k p c = p.read m c := by
  have hsame : unroll bottom k p c = p.read (m + k) c :=
    agrees_unroll bottom p hk m c (Nat.le_refl _)
  have hread : unroll bottom m p c = p.read (k + m) c :=
    agrees_unroll bottom p hm k c (Nat.le_refl _)
  have hzero : unroll bottom m p c = p.read (0 + m) c :=
    agrees_unroll bottom p hm 0 c (Nat.le_refl _)
  rw [hsame, Nat.add_comm, ← hread, hzero, Nat.zero_add]

end Production

end LoxLang.Grammar
