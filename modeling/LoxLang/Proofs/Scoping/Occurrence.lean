import LoxLang.Program.Uses
import LoxLang.Scoping.Analysis

/-!
# Occurrences

An occurrence is a use of a name together with the scopes around it. For a regular statement, which
is one that the grammar allows, the scopes after it are those before it with the name that it
declares, and the analysis walks through its occurrences.

## Main definitions

* `Stmt.Regular`: branches and loop bodies declare nothing, and declared names are no keywords.
* `Stmt.occurrences`: the uses in a statement, each with the scopes around it.
-/

namespace LoxLang

/-! ## Names and declarations -/

/-- A name that is not a reserved word. -/
def Name.IsOrdinary (n : Name) : Prop := Keyword.ofSpelling? n.text = none

theorem Keyword.ofSpelling?_spelling (k : Keyword) : ofSpelling? k.spelling = some k := by
  cases k <;> decide

theorem Name.IsOrdinary.ne_spelling {n : Name} (h : n.IsOrdinary) (k : Keyword) :
    n.text ≠ k.spelling := by
  intro he
  rw [Name.IsOrdinary, he, Keyword.ofSpelling?_spelling] at h
  cases h

/-- The name read or written at a use is not a reserved word, unless the use is `this` or
`super`. -/
def Use.IsOrdinary (u : Use) : Prop := u.kind = .variable ∨ u.kind = .assign → u.name.IsOrdinary

/-- The name that a statement declares in the scope around it. -/
def Stmt.declared? : Stmt → Option Name
  | .var name _ => some name
  | .function routine => some routine.name
  | .class_ name _ _ => some name
  | _ => none

mutual

/-- A statement as the grammar has it: a branch or a loop body declares nothing in the scope around
it, and no reserved word is declared. -/
def Stmt.Regular : Stmt → Prop
  | .expression _ => True
  | .print _ => True
  | .var name _ => name.IsOrdinary
  | .block body => Stmt.EachRegular body
  | .if_ _ then_ none => then_.declared? = none ∧ then_.Regular
  | .if_ _ then_ (some else_) =>
    (then_.declared? = none ∧ then_.Regular) ∧ else_.declared? = none ∧ else_.Regular
  | .while_ _ body => body.declared? = none ∧ body.Regular
  | .function routine => routine.name.IsOrdinary ∧ routine.Regular
  | .return_ _ _ => True
  | .class_ name _ methods => name.IsOrdinary ∧ Routine.EachRegular methods

def Stmt.EachRegular : List Stmt → Prop
  | [] => True
  | s :: ss => s.Regular ∧ Stmt.EachRegular ss

def Routine.Regular : Routine → Prop
  | .mk _ params body => (∀ p ∈ params, p.IsOrdinary) ∧ Stmt.EachRegular body

def Routine.EachRegular : List Routine → Prop
  | [] => True
  | r :: rs => r.Regular ∧ Routine.EachRegular rs

end

namespace Scoping

/-! ## Scopes around a place -/

namespace Scopes

/-- The scopes after a statement. -/
def after (scopes : Scopes) (s : Stmt) : Scopes :=
  match s.declared? with
  | some name => scopes.declare name.text
  | none => scopes

theorem after_eq_self {scopes : Scopes} {s : Stmt} (h : s.declared? = none) :
    scopes.after s = scopes := by
  simp [after, h]

@[simp] theorem after_nil (s : Stmt) : after [] s = [] := by
  unfold after
  split <;> rfl

/-- The scopes after statements. -/
def afterAll (scopes : Scopes) (ss : List Stmt) : Scopes := ss.foldl after scopes

/-- The scopes of the body of a routine. -/
def withParams (scopes : Scopes) (params : List Name) : Scopes :=
  params.foldl (fun g p => g.declare p.text) ([] :: scopes)

/-- The name that has no value yet while its declaration is carried out. The top level is not a
scope and has none. -/
def pending (scopes : Scopes) (name : String) : Option String :=
  if scopes.isEmpty then none else some name

theorem hops?_cons (scope : List String) (scopes : Scopes) (name : String) :
    hops? (scope :: scopes) name =
      if name ∈ scope then some 0 else (scopes.hops? name).map (· + 1) := by
  simp [hops?, List.findIdx?_cons]

@[simp] theorem hops?_push (scopes : Scopes) (name : String) :
    hops? ([] :: scopes) name = (scopes.hops? name).map (· + 1) := by
  simp [hops?_cons]

theorem hops?_declare (scopes : Scopes) (declared name : String) :
    (scopes.declare declared).hops? name =
      if name = declared ∧ scopes ≠ [] then some 0 else scopes.hops? name := by
  cases scopes with
  | nil => simp [declare]
  | cons scope outer =>
    simp only [declare, hops?_cons]
    grind

theorem hops?_declare_of_ne (scopes : Scopes) {declared name : String} (h : name ≠ declared) :
    (scopes.declare declared).hops? name = scopes.hops? name := by
  simp [hops?_declare, h]

end Scopes

/-! ## Occurrences -/

/-- A use of a name, the scopes around it, and the name among those of the innermost scope that has
no value yet. -/
structure Occurrence where
  use : Use
  scopes : Scopes
  pending : Option String

/-- Uses that stand in the same place. -/
def within (scopes : Scopes) (pending : Option String) (us : List Use) : List Occurrence :=
  us.map fun u => ⟨u, scopes, pending⟩

@[simp] theorem mem_within {scopes : Scopes} {pending : Option String} {us : List Use}
    {o : Occurrence} :
    o ∈ within scopes pending us ↔ ∃ u ∈ us, ⟨u, scopes, pending⟩ = o := by
  simp [within]

@[simp] theorem map_use_within (scopes : Scopes) (pending : Option String) (us : List Use) :
    (within scopes pending us).map (·.use) = us := by
  simp [within, Function.comp_def]

end Scoping

open Scoping

mutual

/-- The uses in a statement, each with the scopes around it. -/
def Stmt.occurrences (scopes : Scopes) : Stmt → List Occurrence
  | .expression e => within scopes none e.uses
  | .print e => within scopes none e.uses
  | .var name init =>
    within (scopes.declare name.text) (scopes.pending name.text) (Expr.optionUses init)
  | .block body => Stmt.eachOccurrences ([] :: scopes) body
  | .if_ condition then_ none => within scopes none condition.uses ++ then_.occurrences scopes
  | .if_ condition then_ (some else_) =>
    within scopes none condition.uses ++ then_.occurrences scopes ++ else_.occurrences scopes
  | .while_ condition body => within scopes none condition.uses ++ body.occurrences scopes
  | .function routine => routine.occurrences (scopes.declare routine.name.text)
  | .return_ _ value => within scopes none (Expr.optionUses value)
  | .class_ name parent methods =>
    within (scopes.declare name.text) (scopes.pending name.text) (parent.map (·.use)).toList ++
      Routine.eachOccurrences (methodScopes (scopes.declare name.text) parent) methods

def Stmt.eachOccurrences (scopes : Scopes) : List Stmt → List Occurrence
  | [] => []
  | s :: ss => s.occurrences scopes ++ Stmt.eachOccurrences (scopes.after s) ss

def Routine.occurrences (scopes : Scopes) : Routine → List Occurrence
  | .mk _ params body => Stmt.eachOccurrences (scopes.withParams params) body

def Routine.eachOccurrences (scopes : Scopes) : List Routine → List Occurrence
  | [] => []
  | r :: rs => r.occurrences scopes ++ Routine.eachOccurrences scopes rs

end

mutual

/-- The occurrences in a statement are its uses. -/
theorem Stmt.map_use_occurrences (scopes : Scopes) :
    ∀ s : Stmt, (s.occurrences scopes).map (·.use) = s.uses
  | .expression _ | .print _ | .var _ _ | .return_ _ _ => by simp [Stmt.occurrences, Stmt.uses]
  | .block body => by simp [Stmt.occurrences, Stmt.uses, Stmt.map_use_eachOccurrences _ body]
  | .if_ _ then_ none => by
    simp [Stmt.occurrences, Stmt.uses, Stmt.map_use_occurrences scopes then_]
  | .if_ _ then_ (some else_) => by
    simp [Stmt.occurrences, Stmt.uses, Stmt.map_use_occurrences scopes then_,
      Stmt.map_use_occurrences scopes else_]
  | .while_ _ body => by simp [Stmt.occurrences, Stmt.uses, Stmt.map_use_occurrences scopes body]
  | .function r => by simp [Stmt.occurrences, Stmt.uses, Routine.map_use_occurrences _ r]
  | .class_ _ _ methods => by
    simp [Stmt.occurrences, Stmt.uses, Routine.map_use_eachOccurrences _ methods]

theorem Stmt.map_use_eachOccurrences (scopes : Scopes) :
    ∀ ss : List Stmt, (Stmt.eachOccurrences scopes ss).map (·.use) = Stmt.eachUses ss
  | [] => rfl
  | s :: ss => by
    simp [Stmt.eachOccurrences, Stmt.eachUses, Stmt.map_use_occurrences scopes s,
      Stmt.map_use_eachOccurrences _ ss]

theorem Routine.map_use_occurrences (scopes : Scopes) :
    ∀ r : Routine, (r.occurrences scopes).map (·.use) = r.uses
  | .mk _ _ body => by
    simp [Routine.occurrences, Routine.uses, Stmt.map_use_eachOccurrences _ body]

theorem Routine.map_use_eachOccurrences (scopes : Scopes) :
    ∀ rs : List Routine, (Routine.eachOccurrences scopes rs).map (·.use) = Routine.eachUses rs
  | [] => rfl
  | r :: rs => by
    simp [Routine.eachOccurrences, Routine.eachUses, Routine.map_use_occurrences scopes r,
      Routine.map_use_eachOccurrences _ rs]

end

end LoxLang
