import LoxLang.Proofs.Grammar.Acceptance

/-!
# The signs of operators

A tree keeps of the sign of an operator which one it is and its line. The grammar makes an operator
of a token with its sign only, so each operator of what is read stands among the tokens.

## Main definitions

* `Expr.signs`, `Stmt.signs`, `Routine.signs`: the signs of all operators in code.

## Main results

* `Derives.stand`, `Composes.stand`: the signs in what is read are among the tokens.
-/

namespace LoxLang

/-! ## Signs in code -/

mutual

/-- The signs of the operators in an expression, with their lines. -/
def Expr.signs : Expr → List Terminal
  | .unary op line operand => .kept (.mark op.mark) line :: operand.signs
  | .binary op line left right => left.signs ++ .kept (.mark op.mark) line :: right.signs
  | .logical op line left right => left.signs ++ .kept (.keyword op.keyword) line :: right.signs
  | .group inner | .get inner _ | .assign _ _ inner => inner.signs
  | .set object _ value => object.signs ++ value.signs
  | .call callee _ args => callee.signs ++ Expr.eachSigns args
  | .literal _ | .variable _ _ | .this _ _ | .super _ _ _ => []

def Expr.eachSigns : List Expr → List Terminal
  | [] => []
  | e :: es => e.signs ++ Expr.eachSigns es

end

mutual

/-- The signs of the operators in a statement. -/
def Stmt.signs : Stmt → List Terminal
  | .expression e | .print e | .var _ (some e) | .return_ _ (some e) => e.signs
  | .var _ none | .return_ _ none => []
  | .block body => Stmt.eachSigns body
  | .if_ condition then_ none => condition.signs ++ then_.signs
  | .if_ condition then_ (some else_) => condition.signs ++ (then_.signs ++ else_.signs)
  | .while_ condition body => condition.signs ++ body.signs
  | .function routine => routine.signs
  | .class_ _ _ methods => Routine.eachSigns methods

def Stmt.eachSigns : List Stmt → List Terminal
  | [] => []
  | s :: ss => s.signs ++ Stmt.eachSigns ss

def Routine.signs : Routine → List Terminal
  | .mk _ _ body => Stmt.eachSigns body

def Routine.eachSigns : List Routine → List Terminal
  | [] => []
  | r :: rs => r.signs ++ Routine.eachSigns rs

end

theorem Stmt.eachSigns_append (ss ss' : List Stmt) :
    Stmt.eachSigns (ss ++ ss') = Stmt.eachSigns ss ++ Stmt.eachSigns ss' := by
  induction ss with
  | nil => rfl
  | cons s ss ih => simp [Stmt.eachSigns, ih]

theorem Stmt.signs_braced (ss : List Stmt) : (Stmt.braced ss).signs = Stmt.eachSigns ss := by
  unfold Stmt.braced
  split
  · simp [Stmt.eachSigns]
  · rfl

theorem Stmt.signs_for_ (init : Option Stmt) (condition increment : Option Expr) (body : Stmt) :
    (Stmt.for_ init condition increment body).signs = Stmt.eachSigns init.toList ++
      ((condition.getD (.literal (.bool true))).signs ++
        (body.signs ++ Stmt.eachSigns (increment.map .expression).toList)) := by
  simp [Stmt.for_, Stmt.signs_braced, Stmt.eachSigns_append, Stmt.eachSigns, Stmt.signs]

mutual

/-- An operator is among the leaves of its tree. -/
theorem Expr.signs_subset_yield : ∀ e : Expr, e.signs ⊆ e.yield
  | .unary _ _ operand => List.cons_subset_cons _ operand.signs_subset_yield
  | .binary _ _ left right | .logical _ _ left right => fun _ h => by
    rcases List.mem_append.mp h with h | h
    · exact List.mem_append_left _ (left.signs_subset_yield h)
    · exact List.mem_append_right _ (List.cons_subset_cons _ right.signs_subset_yield h)
  | .group inner => fun _ h => by simp [yield, inner.signs_subset_yield h]
  | .get object _ => fun _ h => by simp [yield, object.signs_subset_yield h]
  | .assign _ _ value => fun _ h => by simp [yield, value.signs_subset_yield h]
  | .set object _ value => fun _ h => by
    rcases List.mem_append.mp h with h | h
    · simp [yield, object.signs_subset_yield h]
    · simp [yield, value.signs_subset_yield h]
  | .call callee _ args => fun _ h => by
    rcases List.mem_append.mp h with h | h
    · simp [yield, callee.signs_subset_yield h]
    · simp [yield, Expr.eachSigns_subset_yieldEach args h]
  | .literal _ | .variable _ _ | .this _ _ | .super _ _ _ => List.nil_subset _

theorem Expr.eachSigns_subset_yieldEach : ∀ es : List Expr, Expr.eachSigns es ⊆ Expr.yieldEach es
  | [] => List.nil_subset _
  | [e] => fun _ h => e.signs_subset_yield (by simpa [Expr.eachSigns] using h)
  | e :: e' :: es => fun _ h => by
    rcases List.mem_append.mp h with h | h
    · simp [yieldEach, e.signs_subset_yield h]
    · simp [yieldEach, Expr.eachSigns_subset_yieldEach (e' :: es) h]

end

/-! ## Signs among tokens -/

/-- Each of the signs is that of a token. -/
def Stand (signs : List Terminal) (ts : List Token) : Prop := ∀ sign ∈ signs, ∃ t ∈ ts, t.Is sign

namespace Stand

variable {signs signs' : List Terminal} {ts us : List Token}

theorem nil (ts : List Token) : Stand [] ts := fun _ h => (List.not_mem_nil h).elim

theorem mono (h : Stand signs ts) (hts : ∀ t ∈ ts, t ∈ us) : Stand signs us := fun sign hs =>
  (h sign hs).imp fun t ⟨ht, his⟩ => ⟨hts t ht, his⟩

theorem append (h : Stand signs ts) (h' : Stand signs' ts) : Stand (signs ++ signs') ts :=
  List.forall_mem_append.mpr ⟨h, h'⟩

end Stand

theorem Spells.exists_mem {ts : List Token} {leaves : List Terminal} (h : Spells ts leaves)
    {leaf : Terminal} (hl : leaf ∈ leaves) : ∃ t ∈ ts, t.Is leaf := by
  induction h with
  | nil => cases hl
  | @cons t leaf' _ _ his _ ih =>
    rcases List.mem_cons.mp hl with rfl | hl
    · exact ⟨t, List.mem_cons_self, his⟩
    · obtain ⟨t', ht', his'⟩ := ih hl
      exact ⟨t', List.mem_cons_of_mem t ht', his'⟩

namespace Grammar

theorem Derives.stand {ts : List Token} {e : Expr} (h : Derives (.level .assignment) ts e) :
    Stand e.signs ts := by
  have hspells := (derives_iff.mp h).2
  exact fun sign hs => hspells.exists_mem (e.signs_subset_yield hs)

theorem Optional.stand {ts : List Token} {value : Option Expr}
    (h : Optional (Derives (.level .assignment)) ts value) : ∀ e ∈ value, Stand e.signs ts := by
  rintro e rfl
  cases h with
  | some he => exact he.stand

theorem Condition.stand {ts : List Token} {e : Expr} (h : Condition ts e) : Stand e.signs ts := by
  cases h with
  | mk _ he => exact he.stand.mono (by simp +contextual)

theorem ExpressionStatement.stand {ts : List Token} {s : Stmt} (h : ExpressionStatement ts s) :
    Stand s.signs ts := by
  cases h with
  | mk he => exact he.stand.mono (by simp +contextual)

theorem VarDeclaration.stand {ts : List Token} {s : Stmt} (h : VarDeclaration ts s) :
    Stand s.signs ts := by
  cases h with
  | mk _ _ hinit =>
    cases hinit with
    | none => exact .nil _
    | some hinit =>
      cases hinit with
      | mk _ he => exact he.stand.mono (by simp +contextual)

theorem ForInitializer.stand {ts : List Token} {init : Option Stmt} (h : ForInitializer ts init) :
    Stand (Stmt.eachSigns init.toList) ts := by
  cases h with
  | var h => simpa [Stmt.eachSigns] using h.stand
  | expression h => simpa [Stmt.eachSigns] using h.stand
  | none => exact .nil _

theorem ForClauses.stand {ts : List Token} {init : Option Stmt}
    {condition increment : Option Expr} (h : ForClauses ts (init, condition, increment)) :
    Stand (Stmt.eachSigns init.toList) ts ∧
      Stand (condition.getD (.literal (.bool true))).signs ts ∧
        Stand (Stmt.eachSigns (increment.map .expression).toList) ts := by
  cases h with
  | mk _ hinit hcondition _ hincrement =>
    refine ⟨hinit.stand.mono (by simp +contextual), ?_, ?_⟩
    · cases condition with
      | none => exact .nil _
      | some e => exact (hcondition.stand e rfl).mono (by simp +contextual)
    · cases increment with
      | none => exact .nil _
      | some e =>
        simpa [Stmt.eachSigns, Stmt.signs] using
          (hincrement.stand e rfl).mono (by simp +contextual)

/-- The signs in a tree. -/
def Construct.signs : (k : Construct) → k.Tree → List Terminal
  | declarations, ss => Stmt.eachSigns ss
  | declaration, s => s.signs
  | statement _, s => s.signs
  | block, ss => Stmt.eachSigns ss
  | routines, rs => Routine.eachSigns rs
  | routine, r => r.signs

theorem Composes.stand {k : Construct} {ts : List Token} {tree : k.Tree}
    (h : Composes k ts tree) : Stand (k.signs tree) ts := by
  induction h with
  | noDeclarations => exact .nil _
  | declarations _ _ ihfirst ihrest =>
    exact (ihfirst.mono (by simp +contextual)).append (ihrest.mono (by simp +contextual))
  | class_ _ _ _ _ _ _ ih => exact ih.mono (by simp +contextual)
  | function _ _ ih => exact ih.mono (by simp +contextual)
  | var h => exact h.stand
  | statement _ ih => exact ih
  | expression h => exact h.stand
  | for_ _ hclauses _ ih =>
    obtain ⟨hinit, hcondition, hincrement⟩ := hclauses.stand
    rw [Construct.signs, Stmt.signs_for_]
    refine (hinit.mono ?_).append ((hcondition.mono ?_).append ((ih.mono ?_).append
      (hincrement.mono ?_)))
    all_goals simp +contextual
  | if_ _ hcondition _ ih =>
    exact (hcondition.stand.mono (by simp +contextual)).append (ih.mono (by simp +contextual))
  | ifElse _ hcondition _ _ _ ihthen ihelse =>
    exact (hcondition.stand.mono (by simp +contextual)).append
      ((ihthen.mono (by simp +contextual)).append (ihelse.mono (by simp +contextual)))
  | print _ he => exact he.stand.mono (by simp +contextual)
  | @return_ _ _ _ value _ hvalue =>
    cases value with
    | none => exact .nil _
    | some e => exact (hvalue.stand e rfl).mono (by simp +contextual)
  | while_ _ hcondition _ ih =>
    exact (hcondition.stand.mono (by simp +contextual)).append (ih.mono (by simp +contextual))
  | braces _ ih => exact ih
  | block _ _ _ ih => exact ih.mono (by simp +contextual)
  | noRoutines => exact .nil _
  | routines _ _ ihfirst ihrest =>
    exact (ihfirst.mono (by simp +contextual)).append (ihrest.mono (by simp +contextual))
  | routine _ _ _ _ _ ih => exact ih.mono (by simp +contextual)

end Grammar

end LoxLang
