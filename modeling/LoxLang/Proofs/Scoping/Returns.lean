import LoxLang.Proofs.Scoping.Rules

/-!
# Where a `return` stands

A statement stands in a body when no routine lies between the two, only blocks, branches and loops.
The analysis accepts a program only if no `return` stands at its top level.

## Main definitions

* `Stmt.PartOf`: a statement is a part of another, outside of the routines declared there.
* `Stmt.StandsIn`: a statement is a part of one of the statements of a body.
-/

namespace LoxLang

/-- A statement is a part of another. The routines that are declared there do not count. -/
inductive Stmt.PartOf (s : Stmt) : Stmt → Prop where
  | self : PartOf s s
  | block (h : PartOf s t) (ht : t ∈ body) : PartOf s (.block body)
  | then_ (h : PartOf s t) : PartOf s (.if_ condition t else_)
  | else_ (h : PartOf s t) : PartOf s (.if_ condition then_ (some t))
  | while_ (h : PartOf s t) : PartOf s (.while_ condition t)

theorem Stmt.PartOf.trans {s t u : Stmt} (h : s.PartOf t) (ht : t.PartOf u) : s.PartOf u := by
  induction ht with
  | self => exact h
  | block _ hmem ih => exact .block ih hmem
  | then_ _ ih => exact .then_ ih
  | else_ _ ih => exact .else_ ih
  | while_ _ ih => exact .while_ ih

/-- A statement is a part of one of the statements of a body. -/
def Stmt.StandsIn (s : Stmt) (body : List Stmt) : Prop := ∃ t ∈ body, s.PartOf t

namespace Stmt.StandsIn

variable {s t : Stmt} {body : List Stmt}

theorem of_mem (h : s ∈ body) : s.StandsIn body := ⟨s, h, .self⟩

theorem part (h : t.StandsIn body) (hs : s.PartOf t) : s.StandsIn body :=
  h.imp fun _ hu => ⟨hu.1, hs.trans hu.2⟩

end Stmt.StandsIn

namespace Scoping

variable {ls : Layers} {line : Nat}

theorem Layers.routine?_afterAll (ls : Layers) (items : List Item) :
    (ls.afterAll items).routine? = ls.routine? := by
  simp [routine?, regions_afterAll]

/-- Among the items there is a `return` that is not in a routine. -/
def Layers.ReturnsOutside (ls : Layers) (line : Nat) (hasValue : Bool) (items : List Item) : Prop :=
  ∃ around : Layers, around.routine? = none ∧ ⟨.return_ line hasValue, around⟩ ∈ ls.entries items

namespace Layers.ReturnsOutside

variable {hasValue : Bool} {is js : List Item}

theorem left (h : ls.ReturnsOutside line hasValue is) : ls.ReturnsOutside line hasValue (is ++ js) := by
  obtain ⟨around, hr, hmem⟩ := h
  refine ⟨around, hr, ?_⟩
  rw [ls.entries_append]
  exact List.mem_append_left _ hmem

theorem right (h : (ls.afterAll is).ReturnsOutside line hasValue js) :
    ls.ReturnsOutside line hasValue (is ++ js) := by
  obtain ⟨around, hr, hmem⟩ := h
  refine ⟨around, hr, ?_⟩
  rw [ls.entries_append]
  exact List.mem_append_right _ hmem

theorem region {r : Region} (h : Layers.ReturnsOutside (⟨r, []⟩ :: ls) line hasValue is) :
    ls.ReturnsOutside line hasValue [.region r is] := by
  obtain ⟨around, hr, hmem⟩ := h
  refine ⟨around, hr, ?_⟩
  simp only [Layers.entries, Layers.itemEntries, List.append_nil]
  exact List.mem_cons_of_mem _ hmem

/-- In one of several statements. -/
theorem of_mem {t : Stmt} {body : List Stmt} (ht : t ∈ body)
    (h : ∀ ls : Layers, ls.routine? = none → ls.ReturnsOutside line hasValue t.outline)
    (hls : ls.routine? = none) : ls.ReturnsOutside line hasValue (Stmt.eachOutline body) := by
  induction body generalizing ls with
  | nil => cases ht
  | cons first rest ih =>
    rw [Stmt.eachOutline]
    rcases List.mem_cons.mp ht with rfl | ht
    · exact (h ls hls).left
    · exact (ih ht ((ls.routine?_afterAll _).trans hls)).right

end Layers.ReturnsOutside

end Scoping

open Scoping

/-- A `return` that is a part of a statement of the top level is in no routine. -/
theorem Stmt.PartOf.returnsOutside {line : Nat} {value : Option Expr} {t : Stmt}
    (h : (Stmt.return_ line value).PartOf t) {ls : Layers} (hls : ls.routine? = none) :
    ls.ReturnsOutside line value.isSome t.outline := by
  induction h generalizing ls with
  | self => exact ⟨ls, hls, List.mem_cons_self⟩
  | block _ ht ih => exact .region (.of_mem ht (fun ls hls => ih hls) hls)
  | @then_ t condition else_ _ ih =>
    have hthen : ls.ReturnsOutside line value.isSome (condition.uses.map .use ++ t.outline) :=
      .right (ih ((ls.routine?_afterAll _).trans hls))
    cases else_ with
    | none => exact hthen
    | some else_ => exact hthen.left
  | else_ _ ih => exact .right (ih ((ls.routine?_afterAll _).trans hls))
  | while_ _ ih => exact .right (ih ((ls.routine?_afterAll _).trans hls))

/-- In a program that the analysis accepts no `return` stands at the top level. -/
theorem Scoping.not_standsIn_of_analyse {p : Program} {ties : List (Site × Nat)}
    (h : analyse p = .ok ties) (line : Nat) (value : Option Expr) :
    ¬ (Stmt.return_ line value).StandsIn p := by
  rintro ⟨t, ht, hpart⟩
  obtain ⟨around, houtside, hmem⟩ : Layers.ReturnsOutside [] line value.isSome (Stmt.eachOutline p) :=
    .of_mem ht (fun ls hls => hpart.returnsOutside hls) rfl
  have hfault : Diagnostic.scope .returnAtTopLevel (keywordPlace .return_ line) ∈
      faults (findings p) := by
    rw [(faults_perm p).mem_iff, List.mem_flatMap]
    exact ⟨_, hmem, Entry.mem_faults_findings.mpr (.returnsOutside houtside)⟩
  rw [(analyse_eq_ok.mp h).1] at hfault
  cases hfault

end LoxLang
