import LoxLang.Proofs.Grammar.Sentence

/-!
# Code without loops

The size of code, and code in which nothing is repeated. The grammar makes a loop only of a `while`
or a `for`, so a program has none when these words are missing among its tokens.

## Main definitions

* `Stmt.LoopFree`: no loop stands in a statement, nor in a routine that is declared in it.
* `Stmt.Within`: statements without loops up to a size.
-/

namespace LoxLang

/-! ## Sizes -/

mutual

/-- The number of nodes of an expression. An argument counts as one more. -/
def Expr.size : Expr → Nat
  | .literal _ => 1
  | .group inner => inner.size + 1
  | .unary _ _ operand => operand.size + 1
  | .binary _ _ left right => left.size + right.size + 1
  | .logical _ _ left right => left.size + right.size + 1
  | .variable _ _ => 1
  | .assign _ _ value => value.size + 1
  | .call callee _ args => callee.size + Expr.eachSize args + 1
  | .get object _ => object.size + 1
  | .set object _ value => object.size + value.size + 1
  | .this _ _ => 1
  | .super _ _ _ => 1

def Expr.eachSize : List Expr → Nat
  | [] => 0
  | e :: es => e.size + Expr.eachSize es + 1

end

mutual

/-- The number of nodes of a statement. The bodies of the routines declared in it are counted. -/
def Stmt.size : Stmt → Nat
  | .expression e => e.size + 1
  | .print e => e.size + 1
  | .var _ none => 1
  | .var _ (some e) => e.size + 1
  | .block body => Stmt.eachSize body + 1
  | .if_ condition then_ none => condition.size + then_.size + 1
  | .if_ condition then_ (some else_) => condition.size + (then_.size + else_.size) + 1
  | .while_ condition body => condition.size + body.size + 1
  | .function routine => routine.size + 1
  | .return_ _ none => 1
  | .return_ _ (some e) => e.size + 1
  | .class_ _ _ methods => Routine.eachSize methods + 2

def Stmt.eachSize : List Stmt → Nat
  | [] => 0
  | s :: ss => s.size + Stmt.eachSize ss + 1

def Routine.size : Routine → Nat
  | .mk _ _ body => Stmt.eachSize body

def Routine.eachSize : List Routine → Nat
  | [] => 0
  | r :: rs => r.size + Routine.eachSize rs + 1

end

theorem Stmt.size_le_eachSize {s : Stmt} {ss : List Stmt} (h : s ∈ ss) :
    s.size ≤ Stmt.eachSize ss := by
  induction ss with
  | nil => cases h
  | cons first rest ih =>
    rw [Stmt.eachSize]
    rcases List.mem_cons.mp h with rfl | h
    · omega
    · have := ih h
      omega

theorem Routine.size_le_eachSize {r : Routine} {rs : List Routine} (h : r ∈ rs) :
    r.size ≤ Routine.eachSize rs := by
  induction rs with
  | nil => cases h
  | cons first rest ih =>
    rw [Routine.eachSize]
    rcases List.mem_cons.mp h with rfl | h
    · omega
    · have := ih h
      omega

/-! ## Loops -/

mutual

/-- No loop stands in a statement, nor in a routine that is declared in it. -/
def Stmt.LoopFree : Stmt → Prop
  | .block body => Stmt.EachLoopFree body
  | .if_ _ then_ none => then_.LoopFree
  | .if_ _ then_ (some else_) => then_.LoopFree ∧ else_.LoopFree
  | .while_ _ _ => False
  | .function routine => routine.LoopFree
  | .class_ _ _ methods => Routine.EachLoopFree methods
  | .expression _ | .print _ | .var _ _ | .return_ _ _ => True

def Stmt.EachLoopFree : List Stmt → Prop
  | [] => True
  | s :: ss => s.LoopFree ∧ Stmt.EachLoopFree ss

def Routine.LoopFree : Routine → Prop
  | .mk _ _ body => Stmt.EachLoopFree body

def Routine.EachLoopFree : List Routine → Prop
  | [] => True
  | r :: rs => r.LoopFree ∧ Routine.EachLoopFree rs

end

theorem Stmt.eachLoopFree_iff {ss : List Stmt} :
    Stmt.EachLoopFree ss ↔ ∀ s ∈ ss, s.LoopFree := by
  induction ss with
  | nil => simp [Stmt.EachLoopFree]
  | cons s ss ih => simp [Stmt.EachLoopFree, ih]

theorem Routine.eachLoopFree_iff {rs : List Routine} :
    Routine.EachLoopFree rs ↔ ∀ r ∈ rs, r.LoopFree := by
  induction rs with
  | nil => simp [Routine.EachLoopFree]
  | cons r rs ih => simp [Routine.EachLoopFree, ih]

/-! ## Small code without loops -/

variable {bound bound' : Nat}

/-- A statement without loops and not larger than `bound`. -/
def Stmt.Within (bound : Nat) (s : Stmt) : Prop := s.LoopFree ∧ s.size ≤ bound

def Routine.Within (bound : Nat) (r : Routine) : Prop := r.LoopFree ∧ r.size ≤ bound

theorem Routine.Within.mono {r : Routine} (h : r.Within bound) (hle : bound ≤ bound') :
    r.Within bound' :=
  ⟨h.1, Nat.le_trans h.2 hle⟩

theorem Stmt.within_of_mem {ss : List Stmt} (hfree : Stmt.EachLoopFree ss)
    (hsize : Stmt.eachSize ss ≤ bound) : ∀ s ∈ ss, s.Within bound := by
  intro s hs
  exact ⟨Stmt.eachLoopFree_iff.mp hfree s hs, Nat.le_trans (Stmt.size_le_eachSize hs) hsize⟩

theorem Routine.within_of_mem {rs : List Routine} (hfree : Routine.EachLoopFree rs)
    (hsize : Routine.eachSize rs ≤ bound) : ∀ r ∈ rs, r.Within bound := by
  intro r hr
  exact ⟨Routine.eachLoopFree_iff.mp hfree r hr, Nat.le_trans (Routine.size_le_eachSize hr) hsize⟩

theorem Routine.Within.size_body {r : Routine} (h : r.Within bound) :
    Stmt.eachSize r.body ≤ bound := by
  obtain ⟨name, params, body⟩ := r
  exact h.2

theorem Routine.Within.body {r : Routine} (h : r.Within bound) : ∀ s ∈ r.body, s.Within bound := by
  obtain ⟨name, params, body⟩ := r
  exact Stmt.within_of_mem h.1 h.2

namespace Stmt.Within

theorem block {body : List Stmt} (h : (Stmt.block body).Within bound) :
    ∀ s ∈ body, s.Within bound := by
  obtain ⟨hfree, hsize⟩ := h
  rw [Stmt.size] at hsize
  exact Stmt.within_of_mem hfree (by omega)

theorem then_ {condition : Expr} {then_ : Stmt} {else_ : Option Stmt}
    (h : (Stmt.if_ condition then_ else_).Within bound) : then_.Within bound := by
  obtain ⟨hfree, hsize⟩ := h
  cases else_ with
  | none =>
    rw [Stmt.size] at hsize
    exact ⟨hfree, by omega⟩
  | some s =>
    rw [Stmt.size] at hsize
    exact ⟨hfree.1, by omega⟩

theorem else_ {condition : Expr} {then_ : Stmt} {else_ : Option Stmt}
    (h : (Stmt.if_ condition then_ else_).Within bound) : ∀ s ∈ else_, s.Within bound := by
  rintro s rfl
  obtain ⟨hfree, hsize⟩ := h
  rw [Stmt.size] at hsize
  exact ⟨hfree.2, by omega⟩

theorem function {r : Routine} (h : (Stmt.function r).Within bound) : r.Within bound := by
  obtain ⟨hfree, hsize⟩ := h
  rw [Stmt.size] at hsize
  exact ⟨hfree, by omega⟩

theorem methods {name : Name} {parent : Option Superclass} {methods : List Routine}
    (h : (Stmt.class_ name parent methods).Within bound) : ∀ r ∈ methods, r.Within bound := by
  obtain ⟨hfree, hsize⟩ := h
  rw [Stmt.size] at hsize
  exact Routine.within_of_mem hfree (by omega)

end Stmt.Within

/-! ## Sources without loops -/

/-- A word that begins a loop. -/
def Token.BeginsLoop (t : Token) : Prop := t.kind = .keyword .while_ ∨ t.kind = .keyword .for_

instance : DecidablePred Token.BeginsLoop := fun _ => inferInstanceAs (Decidable (_ ∨ _))

/-- Neither `while` nor `for` stands in a source. -/
def LoopFree (source : String) : Prop := ∀ t ∈ (scan source).tokens, ¬ t.BeginsLoop

instance : DecidablePred LoopFree := fun source =>
  inferInstanceAs (Decidable (∀ t ∈ (scan source).tokens, ¬ t.BeginsLoop))

namespace Grammar

/-- There is no loop in a tree. -/
def Construct.LoopFree : (k : Construct) → k.Tree → Prop
  | declarations, ss => Stmt.EachLoopFree ss
  | declaration, s => s.LoopFree
  | statement _, s => s.LoopFree
  | block, ss => Stmt.EachLoopFree ss
  | routines, rs => Routine.EachLoopFree rs
  | routine, r => r.LoopFree

/-- Only a word that begins a loop makes one. -/
theorem Composes.loopFree {k : Construct} {ts : List Token} {tree : k.Tree}
    (h : Composes k ts tree) (ht : ∀ t ∈ ts, ¬ t.BeginsLoop) : k.LoopFree tree := by
  induction h with
  | noDeclarations => trivial
  | declarations _ _ ihfirst ihrest =>
    obtain ⟨hfirst, hrest⟩ := List.forall_mem_append.mp ht
    exact ⟨ihfirst hfirst, ihrest hrest⟩
  | class_ _ _ _ _ _ _ ih =>
    refine ih fun t hm => ht t ?_
    simp [hm]
  | function _ _ ih => exact ih (List.forall_mem_cons.mp ht).2
  | var h =>
    cases h
    trivial
  | statement _ ih => exact ih ht
  | expression h =>
    cases h
    trivial
  | for_ hkeyword => exact absurd (.inr hkeyword) (ht _ List.mem_cons_self)
  | if_ _ _ _ ih =>
    refine ih fun t hm => ht t ?_
    simp [hm]
  | ifElse _ _ _ _ _ ihthen ihelse =>
    refine ⟨ihthen fun t hm => ht t ?_, ihelse fun t hm => ht t ?_⟩ <;> simp [hm]
  | print => trivial
  | return_ => trivial
  | while_ hkeyword => exact absurd (.inl hkeyword) (ht _ List.mem_cons_self)
  | braces _ ih => exact ih ht
  | block _ _ _ ih =>
    refine ih fun t hm => ht t ?_
    simp [hm]
  | noRoutines => trivial
  | routines _ _ ihfirst ihrest =>
    obtain ⟨hfirst, hrest⟩ := List.forall_mem_append.mp ht
    exact ⟨ihfirst hfirst, ihrest hrest⟩
  | routine _ _ _ _ _ ih =>
    refine ih fun t hm => ht t ?_
    simp [hm]

end Grammar

end LoxLang
