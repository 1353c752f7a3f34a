import LoxLang.Proofs.Scoping.Ties
import Mathlib.Order.Bounds.Defs

/-!
# Outlines

The outline of a program is what matters for scoping, in the order of the text: declarations, uses,
`return`s and superclasses, and the regions within which they stand. A place in an outline is known
by the regions around it and by what stands before it in each of them. The analysis finds exactly
what there is to find at each place.

## Main definitions

* `Stmt.outline`: the outline of a statement.
* `Layer`: a region around a place, with what stands before the place in it.
* `Layers.entries`: all items of an outline, each with the layers around it.
* `Layers.KnownIn`: a name is declared before a place in one of the scopes around it.
* `Entry.findings`: what there is to find at a place.
-/

namespace LoxLang

namespace Scoping

/-- A part of a program that surrounds other parts. -/
inductive Region where
  | block
  /-- The parameters and the body of a function. -/
  | function
  /-- The parameters and the body of a method. -/
  | method (name : String)
  /-- The body of a class, with a superclass or without. -/
  | classBody (derived : Bool)
  /-- What lies around the body of a class with a superclass. -/
  | derivation
  /-- The initializer of a variable. -/
  | initializer (name : String)
  deriving DecidableEq, Repr

namespace Region

/-- All regions but initializers are scopes. -/
def isScope : Region → Bool
  | initializer _ => false
  | _ => true

def isRoutine : Region → Bool
  | function | method _ => true
  | _ => false

def isClassBody : Region → Bool
  | classBody _ => true
  | _ => false

end Region

/-- What matters for scoping. -/
inductive Item where
  | declaration (name : Name)
  /-- A name that is known in a region without a declaration. -/
  | implicit (keyword : Keyword)
  | use (u : Use)
  | return_ (line : Nat) (hasValue : Bool)
  /-- A class and its superclass. -/
  | inheritance (name parent : Name)
  | region (r : Region) (items : List Item)

namespace Item

/-- The name that is known after an item. -/
def declared? : Item → Option String
  | declaration name => some name.text
  | implicit keyword => some keyword.spelling
  | _ => none

def use? : Item → Option Use
  | use u => some u
  | _ => none

end Item

end Scoping

open Scoping

mutual

/-- The outline of a statement. A variable, a function or a class is declared before what belongs to
it. -/
def Stmt.outline : Stmt → List Item
  | .expression e => e.uses.map .use
  | .print e => e.uses.map .use
  | .var name none => [.declaration name]
  | .var name (some e) =>
    [.declaration name, .region (.initializer name.text) (e.uses.map .use)]
  | .block body => [.region .block (Stmt.eachOutline body)]
  | .if_ condition then_ none => condition.uses.map .use ++ then_.outline
  | .if_ condition then_ (some else_) =>
    condition.uses.map .use ++ then_.outline ++ else_.outline
  | .while_ condition body => condition.uses.map .use ++ body.outline
  | .function routine => [.declaration routine.name, .region .function routine.outline]
  | .return_ line value => .return_ line value.isSome :: (Expr.optionUses value).map .use
  | .class_ name none methods =>
    [.declaration name,
      .region (.classBody false) (.implicit .this :: Routine.eachOutline methods)]
  | .class_ name (some parent) methods =>
    [.declaration name, .inheritance name parent.name, .use parent.use,
      .region .derivation [.implicit .super,
        .region (.classBody true) (.implicit .this :: Routine.eachOutline methods)]]

def Stmt.eachOutline : List Stmt → List Item
  | [] => []
  | s :: ss => s.outline ++ Stmt.eachOutline ss

/-- The outline of a routine, which is a region of its own. -/
def Routine.outline : Routine → List Item
  | .mk _ params body => params.map .declaration ++ Stmt.eachOutline body

/-- The outline of methods, each of them a region. -/
def Routine.eachOutline : List Routine → List Item
  | [] => []
  | r :: rs => .region (.method r.name.text) r.outline :: Routine.eachOutline rs

end

namespace Scoping

/-! ## Places -/

/-- A region around a place, and what stands before the place in it, the nearest item first. -/
structure Layer where
  region : Region
  before : List Item

/-- The regions around a place, the innermost first. -/
abbrev Layers := List Layer

/-- An item of an outline and the layers around it. -/
structure Entry where
  item : Item
  layers : Layers

namespace Layers

/-- The layers after an item. -/
def after (ls : Layers) (i : Item) : Layers :=
  match ls with
  | [] => []
  | l :: outer => ⟨l.region, i :: l.before⟩ :: outer

/-- The layers after items. -/
def afterAll (ls : Layers) (items : List Item) : Layers := items.foldl after ls

mutual

/-- All items in an item, each with the layers around it. -/
def itemEntries (ls : Layers) : Item → List Entry
  | .region r items => ⟨.region r items, ls⟩ :: entries (⟨r, []⟩ :: ls) items
  | i => [⟨i, ls⟩]

/-- All items in an outline, each with the layers around it. -/
def entries (ls : Layers) : List Item → List Entry
  | [] => []
  | i :: is => itemEntries ls i ++ entries (ls.after i) is

end

theorem entries_append (ls : Layers) (is js : List Item) :
    ls.entries (is ++ js) = ls.entries is ++ (ls.afterAll is).entries js := by
  induction is generalizing ls with
  | nil => rfl
  | cons i is ih => simp [entries, ih, afterAll]

end Layers

end Scoping

/-- All items of a program with the layers around them. The top level is not a layer. -/
def Program.entries (p : Program) : List Entry := Layers.entries [] (Stmt.eachOutline p)

namespace Scoping

/-! ## What is known at a place -/

/-- The names that are known in a region. -/
def Layer.declared (l : Layer) : List String := l.before.filterMap Item.declared?

/-- The kind of routine that the nearest one around a place is. -/
def InRoutine.ofRegion? : Option Region → InRoutine
  | some .function => .function
  | some (.method name) => if name = Routine.initName then .initializer else .method
  | _ => .topLevel

/-- The kind of class that the nearest one around a place is. -/
def InClass.ofRegion? : Option Region → InClass
  | some (.classBody false) => .base
  | some (.classBody true) => .derived
  | _ => .noClass

namespace Layers

/-- The layers that are scopes. -/
def inScopes (ls : Layers) : Layers := ls.filter (·.region.isScope)

/-- The names known in the scopes. -/
def scopes (ls : Layers) : Scopes := ls.inScopes.map Layer.declared

/-- A name is known, before a place, in the scope with a number. The innermost one has number 0. -/
def KnownIn (ls : Layers) (name : String) (d : Nat) : Prop :=
  ∃ l, ls.inScopes[d]? = some l ∧ ∃ i ∈ l.before, i.declared? = some name

/-- The nearest routine. -/
def routine? (ls : Layers) : Option Region := (ls.map (·.region)).find? Region.isRoutine

/-- The nearest class. -/
def class? (ls : Layers) : Option Region := (ls.map (·.region)).find? Region.isClassBody

def context (ls : Layers) : Context := ⟨.ofRegion? ls.routine?, .ofRegion? ls.class?⟩

/-- The local variable in whose initializer a place is. -/
def pending : Layers → Option String
  | ⟨.initializer name, _⟩ :: _ :: _ => some name
  | _ => none

/-- All layers are scopes, as they are around a statement. -/
def AreScopes (ls : Layers) : Prop := ∀ l ∈ ls, l.region.isScope

variable {ls : Layers}

theorem knownIn_iff {name : String} {d : Nat} :
    ls.KnownIn name d ↔ ∃ scope, ls.scopes[d]? = some scope ∧ name ∈ scope := by
  simp [KnownIn, scopes, Layer.declared]

/-- The scope in which a name is found is the nearest in which it is known. -/
theorem hops?_scopes_eq_some_iff {name : String} {d : Nat} :
    ls.scopes.hops? name = some d ↔ IsLeast {d | ls.KnownIn name d} d := by
  rw [Scopes.hops?, List.findIdx?_eq_some_iff_getElem]
  constructor
  · rintro ⟨hlt, hfound, hbefore⟩
    refine ⟨knownIn_iff.mpr ⟨ls.scopes[d], by simp [hlt], by simpa using hfound⟩, ?_⟩
    intro i hi
    obtain ⟨scope, hscope, hmem⟩ := knownIn_iff.mp hi
    by_contra hlt'
    have := hbefore i (by omega)
    grind
  · rintro ⟨hknown, hleast⟩
    obtain ⟨scope, hscope, hmem⟩ := knownIn_iff.mp hknown
    obtain ⟨hlt, rfl⟩ := List.getElem?_eq_some_iff.mp hscope
    refine ⟨hlt, by simpa using hmem, fun i hi hfound => ?_⟩
    have : d ≤ i := hleast (knownIn_iff.mpr ⟨ls.scopes[i], by grind, by simpa using hfound⟩)
    omega

theorem regions_after (ls : Layers) (i : Item) :
    (ls.after i).map (·.region) = ls.map (·.region) := by
  cases ls <;> rfl

theorem regions_afterAll (ls : Layers) (items : List Item) :
    (ls.afterAll items).map (·.region) = ls.map (·.region) := by
  induction items generalizing ls with
  | nil => rfl
  | cons i items ih => exact (ih (ls.after i)).trans (ls.regions_after i)

/-- What stands before a place does not change which routine and class it is in. -/
@[simp] theorem context_after (ls : Layers) (i : Item) : (ls.after i).context = ls.context := by
  simp [context, routine?, class?, regions_after]

@[simp] theorem context_afterAll (ls : Layers) (items : List Item) :
    (ls.afterAll items).context = ls.context := by
  simp [context, routine?, class?, regions_afterAll]

@[simp] theorem pending_after (ls : Layers) (i : Item) : (ls.after i).pending = ls.pending := by
  cases ls with
  | nil => rfl
  | cons l outer => cases l with | mk region before => cases region <;> cases outer <;> rfl

theorem scopes_after_of_eq_none (ls : Layers) {i : Item} (h : i.declared? = none) :
    (ls.after i).scopes = ls.scopes := by
  cases ls with
  | nil => rfl
  | cons l outer =>
    cases hl : l.region.isScope <;>
      simp [scopes, inScopes, after, Layer.declared, h, hl]

theorem scopes_after_of_eq_some (hls : ls.AreScopes) {i : Item} {name : String}
    (h : i.declared? = some name) : (ls.after i).scopes = ls.scopes.declare name := by
  cases ls with
  | nil => rfl
  | cons l outer =>
    have hl : l.region.isScope := hls l List.mem_cons_self
    simp [scopes, inScopes, after, Layer.declared, h, hl, Scopes.declare]

theorem AreScopes.afterAll (hls : ls.AreScopes) (items : List Item) :
    (ls.afterAll items).AreScopes := by
  intro l hl
  have hmem : l.region ∈ ls.map (·.region) := by
    rw [← ls.regions_afterAll items]
    exact List.mem_map_of_mem hl
  obtain ⟨l', hl', he⟩ := List.mem_map.mp hmem
  exact he ▸ hls l' hl'

theorem AreScopes.push (hls : ls.AreScopes) {r : Region} (hr : r.isScope) (before : List Item) :
    AreScopes (⟨r, before⟩ :: ls) :=
  List.forall_mem_cons.mpr ⟨hr, hls⟩

theorem AreScopes.pending_eq_none (hls : ls.AreScopes) : ls.pending = none := by
  unfold pending
  split
  · next name before l outer =>
    have h : (Region.initializer name).isScope := hls _ List.mem_cons_self
    cases h
  · rfl

theorem AreScopes.isEmpty_scopes (hls : ls.AreScopes) : ls.scopes.isEmpty = ls.isEmpty := by
  have hinScopes : ls.inScopes = ls := List.filter_eq_self.mpr hls
  rw [scopes, hinScopes]
  cases ls <;> rfl

end Layers

/-! ## What there is to find -/

end Scoping

/-- What there is to find at a use. -/
def Use.findings (k : InClass) (scopes : Scopes) (pending : Option String) (u : Use) :
    List Finding :=
  match u.kind, k with
  | .variable, _ => read scopes pending u.site u.name
  | .assign, _ => bind scopes u.site u.name.text
  | .this, .noClass => [.fault .thisOutsideClass (namePlace u.name)]
  | .this, _ => bind scopes u.site u.name.text
  | .super, .noClass => [.fault .superOutsideClass (namePlace u.name)]
  | .super, .base => [.fault .superWithoutSuperclass (namePlace u.name)]
  | .super, .derived => bind scopes u.site u.name.text

namespace Scoping

/-- What there is to find at an item. -/
def Item.findings (ctx : Context) (scopes : Scopes) (pending : Option String) :
    Item → List Finding
  | .declaration name => redeclared scopes name
  | .use u => u.findings ctx.class_ scopes pending
  | .return_ line hasValue =>
    (if ctx.routine = .topLevel then [.fault .returnAtTopLevel (keywordPlace .return_ line)]
      else []) ++
    (if ctx.routine = .initializer ∧ hasValue then
      [.fault .returnValueFromInitializer (keywordPlace .return_ line)] else [])
  | .inheritance name parent =>
    if parent.text = name.text then [.fault .inheritsFromItself (namePlace parent)] else []
  | .implicit _ | .region _ _ => []

/-- What there is to find at a place. -/
def Entry.findings (e : Entry) : List Finding :=
  e.item.findings e.layers.context e.layers.scopes e.layers.pending

mutual

/-- The analysis of an expression finds what there is at each use, in some order. -/
theorem walkExpr_perm (k : InClass) (scopes : Scopes) (pending : Option String) :
    ∀ e : Expr, (walkExpr k scopes pending e).Perm (e.uses.flatMap (·.findings k scopes pending))
  | .literal _ => .nil
  | .group inner => walkExpr_perm k scopes pending inner
  | .unary _ _ operand => walkExpr_perm k scopes pending operand
  | .binary _ _ left right | .logical _ _ left right => by
    simp only [walkExpr, Expr.uses, List.flatMap_append]
    exact (walkExpr_perm k scopes pending left).append (walkExpr_perm k scopes pending right)
  | .variable site name => by simp [walkExpr, Expr.uses, Use.findings]
  | .assign site name value => by
    simp only [walkExpr, Expr.uses, List.flatMap_cons]
    exact List.perm_append_comm.trans ((walkExpr_perm k scopes pending value).append_left _)
  | .call callee _ args => by
    simp only [walkExpr, Expr.uses, List.flatMap_append]
    exact (walkExpr_perm k scopes pending callee).append (walkExprs_perm k scopes pending args)
  | .get object _ => walkExpr_perm k scopes pending object
  | .set object _ value => by
    simp only [walkExpr, Expr.uses, List.flatMap_append]
    exact List.perm_append_comm.trans
      ((walkExpr_perm k scopes pending object).append (walkExpr_perm k scopes pending value))
  | .this site line => by
    cases k <;> simp [walkExpr, Expr.uses, Use.findings, keywordPlace, namePlace]
  | .super site line _ => by
    cases k <;> simp [walkExpr, Expr.uses, Use.findings, keywordPlace, namePlace]

theorem walkExprs_perm (k : InClass) (scopes : Scopes) (pending : Option String) :
    ∀ es : List Expr, (walkExprs k scopes pending es).Perm
      ((Expr.argsUses es).flatMap (·.findings k scopes pending))
  | [] => .nil
  | e :: es => by
    simp only [walkExprs, Expr.argsUses, List.flatMap_append]
    exact (walkExpr_perm k scopes pending e).append (walkExprs_perm k scopes pending es)

end

theorem walkOption_perm (k : InClass) (scopes : Scopes) (pending : Option String)
    (e : Option Expr) : (walkOption k scopes pending e).Perm
      ((Expr.optionUses e).flatMap (·.findings k scopes pending)) := by
  cases e with
  | none => exact .nil
  | some e => exact walkExpr_perm k scopes pending e

/-- Walking through items from given layers on gives these scopes and these findings. -/
structure Walks (ls : Layers) (items : List Item) (r : Scopes × List Finding) : Prop where
  scopes : r.1 = (ls.afterAll items).scopes
  findings : r.2.Perm ((ls.entries items).flatMap Entry.findings)

namespace Walks

variable {ls : Layers} {is js : List Item} {r r' : Scopes × List Finding}

theorem nil (ls : Layers) : Walks ls [] (ls.scopes, []) := ⟨rfl, .nil⟩

theorem append (h : Walks ls is r) (h' : Walks (ls.afterAll is) js r') :
    Walks ls (is ++ js) (r'.1, r.2 ++ r'.2) := by
  constructor
  · rw [h'.scopes, Layers.afterAll, Layers.afterAll, Layers.afterAll, List.foldl_append]
  · rw [ls.entries_append, List.flatMap_append]
    exact h.findings.append h'.findings

/-- An item that is no region and declares nothing. -/
theorem single {i : Item} (hi : i.declared? = none) (he : ls.itemEntries i = [⟨i, ls⟩]) :
    Walks ls [i] (ls.scopes, i.findings ls.context ls.scopes ls.pending) := by
  refine ⟨(ls.scopes_after_of_eq_none hi).symm, ?_⟩
  simp [Layers.entries, he, Entry.findings]

theorem declaration (hls : ls.AreScopes) (name : Name) :
    Walks ls [.declaration name] (ls.scopes.declare name.text, redeclared ls.scopes name) := by
  refine ⟨(Layers.scopes_after_of_eq_some hls rfl).symm, ?_⟩
  simp [Layers.entries, Layers.itemEntries, Entry.findings, Item.findings]

theorem implicit (hls : ls.AreScopes) (keyword : Keyword) :
    Walks ls [.implicit keyword] (ls.scopes.declare keyword.spelling, []) := by
  refine ⟨(Layers.scopes_after_of_eq_some hls rfl).symm, ?_⟩
  simp [Layers.entries, Layers.itemEntries, Entry.findings, Item.findings]

/-- What is known in a region is forgotten after it. -/
theorem region {rg : Region} (h : Walks (⟨rg, []⟩ :: ls) is r) :
    Walks ls [.region rg is] (ls.scopes, r.2) := by
  refine ⟨(ls.scopes_after_of_eq_none rfl).symm, ?_⟩
  simpa [Layers.entries, Layers.itemEntries, Entry.findings, Item.findings] using h.findings

theorem uses {us : List Use} {fs : List Finding}
    (h : fs.Perm (us.flatMap (·.findings ls.context.class_ ls.scopes ls.pending))) :
    Walks ls (us.map .use) (ls.scopes, fs) := by
  suffices hall : Walks ls (us.map .use)
      (ls.scopes, us.flatMap (·.findings ls.context.class_ ls.scopes ls.pending)) from
    ⟨hall.scopes, h.trans hall.findings⟩
  clear h
  induction us generalizing ls with
  | nil => exact .nil ls
  | cons u us ih =>
    have hfirst : Walks ls [.use u] _ := .single rfl rfl
    have hscopes : (ls.after (.use u)).scopes = ls.scopes := ls.scopes_after_of_eq_none rfl
    have hrest : Walks (ls.after (.use u)) (us.map .use) _ := ih
    rw [hscopes, ls.context_after, ls.pending_after] at hrest
    exact hfirst.append hrest

theorem params (hls : ls.AreScopes) (ps : List Name) :
    Walks ls (ps.map .declaration) (walkParams ls.scopes ps) := by
  induction ps generalizing ls with
  | nil => exact .nil ls
  | cons p ps ih =>
    have hfirst := Walks.declaration hls p
    have hrest := ih (hls.afterAll [.declaration p])
    rw [← hfirst.scopes] at hrest
    exact hfirst.append hrest

theorem option (hls : ls.AreScopes) (e : Option Expr) :
    Walks ls ((Expr.optionUses e).map .use)
      (ls.scopes, walkOption ls.context.class_ ls.scopes none e) := by
  refine .uses ?_
  rw [hls.pending_eq_none]
  exact walkOption_perm _ _ _ e

theorem expr (hls : ls.AreScopes) (e : Expr) :
    Walks ls (e.uses.map .use) (ls.scopes, walkExpr ls.context.class_ ls.scopes none e) :=
  option hls (some e)

/-- In its initializer a variable is known and, unless it is global, pending. -/
theorem initializer (hls : ls.AreScopes) (name : String) (e : Expr) :
    Walks ls [.region (.initializer name) (e.uses.map .use)]
      (ls.scopes, walkExpr ls.context.class_ ls.scopes
        (if ls.scopes.isEmpty then none else some name) e) := by
  refine region (r := (ls.scopes, _)) (.uses ?_)
  rw [hls.isEmpty_scopes]
  cases ls <;> exact walkExpr_perm _ _ _ e

/-- The body of a class, when its methods are walked through. -/
theorem classBody {methods : List Routine} (derived : Bool)
    (h : ∀ {ls : Layers}, ls.AreScopes → Walks ls (Routine.eachOutline methods)
      (ls.scopes, walkMethods ls.context.class_ ls.scopes methods)) (hls : ls.AreScopes) :
    Walks ls [.region (.classBody derived) (.implicit .this :: Routine.eachOutline methods)]
      (ls.scopes, walkMethods (.ofRegion? (some (.classBody derived)))
        ([Keyword.this.spelling] :: ls.scopes) methods) := by
  have hinner : Layers.AreScopes (⟨.classBody derived, []⟩ :: ls) := hls.push rfl []
  have hthis := Walks.implicit hinner .this
  have hmethods := h (hinner.afterAll [.implicit .this])
  rw [← hthis.scopes, Layers.context_afterAll] at hmethods
  exact (hthis.append hmethods).region

theorem superclass (hls : ls.AreScopes) (name : Name) (parent : Superclass) :
    Walks ls [.inheritance name parent.name, .use parent.use]
      (ls.scopes, walkSuperclass ls.scopes name (some parent)) := by
  have hname : Walks ls [.inheritance name parent.name] _ := .single rfl rfl
  have huse : Walks (ls.afterAll [.inheritance name parent.name]) [.use parent.use] _ :=
    .single rfl rfl
  rw [← hname.scopes, (hls.afterAll _).pending_eq_none] at huse
  exact hname.append huse

/-- The body of a class with a superclass lies in one more scope. -/
theorem derivation {methods : List Routine}
    (h : ∀ {ls : Layers}, ls.AreScopes → Walks ls (Routine.eachOutline methods)
      (ls.scopes, walkMethods ls.context.class_ ls.scopes methods)) (hls : ls.AreScopes) :
    Walks ls [.region .derivation [.implicit .super,
        .region (.classBody true) (.implicit .this :: Routine.eachOutline methods)]]
      (ls.scopes, walkMethods .derived
        ([Keyword.this.spelling] :: [Keyword.super.spelling] :: ls.scopes) methods) := by
  have hinner : Layers.AreScopes (⟨.derivation, []⟩ :: ls) := hls.push rfl []
  have hsuper := Walks.implicit hinner .super
  have hbody := classBody true h (hinner.afterAll [.implicit .super])
  rw [← hsuper.scopes] at hbody
  exact (hsuper.append hbody).region

end Walks

theorem Scopes.isEmpty_declare (scopes : Scopes) (name : String) :
    (scopes.declare name).isEmpty = scopes.isEmpty := by
  cases scopes <;> rfl

theorem Layers.context_function (ls : Layers) :
    Layers.context (⟨.function, []⟩ :: ls) = { ls.context with routine := .function } := rfl

theorem Layers.context_method (ls : Layers) (r : Routine) :
    Layers.context (⟨.method r.name.text, []⟩ :: ls) = ⟨methodContext r, ls.context.class_⟩ := by
  have hroutine : methodContext r = .ofRegion? (some (.method r.name.text)) := by
    simp [methodContext, Routine.isInit, InRoutine.ofRegion?]
  rw [hroutine]
  rfl

mutual

/-- The analysis of a statement goes through its outline. -/
theorem walks_stmt : ∀ (s : Stmt) {ls : Layers}, ls.AreScopes →
    Walks ls s.outline (walkStmt ls.context ls.scopes s)
  | .expression e, ls, hls => .expr hls e
  | .print e, ls, hls => .expr hls e
  | .var name none, ls, hls => by
    simpa [walkStmt, walkOption, Stmt.outline] using Walks.declaration hls name
  | .var name (some e), ls, hls => by
    have hname := Walks.declaration hls name
    have hinit := Walks.initializer (hls.afterAll [.declaration name]) name.text e
    rw [← hname.scopes, Layers.context_afterAll, Scopes.isEmpty_declare] at hinit
    exact hname.append hinit
  | .block body, ls, hls => by
    have hbody := walks_stmts body (hls.push rfl [] : Layers.AreScopes (⟨.block, []⟩ :: ls))
    exact hbody.region
  | .if_ condition then_ none, ls, hls => by
    have hcondition := Walks.expr hls condition
    have hthen := walks_stmt then_ (hls.afterAll (condition.uses.map .use))
    rw [← hcondition.scopes, Layers.context_afterAll] at hthen
    exact hcondition.append hthen
  | .if_ condition then_ (some else_), ls, hls => by
    have hcondition := Walks.expr hls condition
    have hthen := walks_stmt then_ (hls.afterAll (condition.uses.map .use))
    rw [← hcondition.scopes, Layers.context_afterAll] at hthen
    have hboth := hcondition.append hthen
    have helse := walks_stmt else_ (hls.afterAll (condition.uses.map .use ++ then_.outline))
    rw [← hboth.scopes, Layers.context_afterAll] at helse
    exact hboth.append helse
  | .while_ condition body, ls, hls => by
    have hcondition := Walks.expr hls condition
    have hbody := walks_stmt body (hls.afterAll (condition.uses.map .use))
    rw [← hcondition.scopes, Layers.context_afterAll] at hbody
    exact hcondition.append hbody
  | .function r, ls, hls => by
    have hname := Walks.declaration hls r.name
    have hroutine := walks_routine r .function rfl (hls.afterAll [.declaration r.name])
    rw [← hname.scopes, Layers.context_function, Layers.context_afterAll] at hroutine
    exact hname.append hroutine
  | .return_ line value, ls, hls => by
    have hreturn : Walks ls [.return_ line value.isSome] _ := .single rfl rfl
    have hvalue := Walks.option (hls.afterAll [.return_ line value.isSome]) value
    rw [← hreturn.scopes, Layers.context_afterAll] at hvalue
    exact hreturn.append hvalue
  | .class_ name none methods, ls, hls => by
    have hname := Walks.declaration hls name
    have hbody := Walks.classBody false (walks_methods methods) (hls.afterAll [.declaration name])
    rw [← hname.scopes] at hbody
    simpa [walkStmt, walkSuperclass, methodScopes, classContext, InClass.ofRegion?, Stmt.outline]
      using hname.append hbody
  | .class_ name (some parent) methods, ls, hls => by
    have hname := Walks.declaration hls name
    have hparent := Walks.superclass (hls.afterAll [.declaration name]) name parent
    rw [← hname.scopes] at hparent
    have hboth := hname.append hparent
    have hbody := Walks.derivation (walks_methods methods)
      (hls.afterAll ([.declaration name] ++ [.inheritance name parent.name, .use parent.use]))
    rw [← hboth.scopes] at hbody
    exact hboth.append hbody

theorem walks_stmts : ∀ (ss : List Stmt) {ls : Layers}, ls.AreScopes →
    Walks ls (Stmt.eachOutline ss) (walkStmts ls.context ls.scopes ss)
  | [], ls, _ => .nil ls
  | s :: ss, ls, hls => by
    have hfirst := walks_stmt s hls
    have hrest := walks_stmts ss (hls.afterAll s.outline)
    rw [← hfirst.scopes, Layers.context_afterAll] at hrest
    exact hfirst.append hrest

/-- The parameters and the body of a routine share one scope. -/
theorem walks_routine : ∀ (r : Routine) (region : Region) {ls : Layers}, region.isScope →
    ls.AreScopes → Walks ls [.region region r.outline]
      (ls.scopes, walkRoutine (Layers.context (⟨region, []⟩ :: ls)) ls.scopes r)
  | .mk _ params body, region, ls, hregion, hls => by
    have hinner : Layers.AreScopes (⟨region, []⟩ :: ls) := hls.push hregion []
    have hscopes : Layers.scopes (⟨region, []⟩ :: ls) = [] :: ls.scopes := by
      simp [Layers.scopes, Layers.inScopes, Layer.declared, hregion]
    have hparams := Walks.params hinner params
    have hbody := walks_stmts body (hinner.afterAll (params.map .declaration))
    rw [← hparams.scopes, Layers.context_afterAll] at hbody
    rw [walkRoutine, ← hscopes]
    exact (hparams.append hbody).region

theorem walks_methods : ∀ (rs : List Routine) {ls : Layers}, ls.AreScopes →
    Walks ls (Routine.eachOutline rs) (ls.scopes, walkMethods ls.context.class_ ls.scopes rs)
  | [], ls, _ => .nil ls
  | r :: rs, ls, hls => by
    have hfirst := walks_routine r (.method r.name.text) rfl hls
    rw [Layers.context_method] at hfirst
    have hrest := walks_methods rs (hls.afterAll [.region (.method r.name.text) r.outline])
    rw [← hfirst.scopes, Layers.context_afterAll] at hrest
    exact hfirst.append hrest

end

/-! ## Whole programs -/

/-- The uses among entries. -/
def entryUses (es : List Entry) : List Use := es.filterMap (·.item.use?)

@[simp] theorem entryUses_append (es es' : List Entry) :
    entryUses (es ++ es') = entryUses es ++ entryUses es' :=
  List.filterMap_append

@[simp] theorem entryUses_cons (e : Entry) (es : List Entry) :
    entryUses (e :: es) = e.item.use?.toList ++ entryUses es := by
  cases h : e.item.use? <;> simp [entryUses, h]

@[simp] theorem entryUses_uses (ls : Layers) (us : List Use) :
    entryUses (ls.entries (us.map .use)) = us := by
  induction us generalizing ls with
  | nil => rfl
  | cons u us ih => exact congrArg (u :: ·) (ih (ls.after (.use u)))

@[simp] theorem entryUses_params (ls : Layers) (ps : List Name) :
    entryUses (ls.entries (ps.map .declaration)) = [] := by
  induction ps generalizing ls with
  | nil => rfl
  | cons p ps ih => exact ih (ls.after (.declaration p))

mutual

theorem entryUses_outline : ∀ (s : Stmt) (ls : Layers), entryUses (ls.entries s.outline) = s.uses
  | .expression e, ls | .print e, ls => entryUses_uses ls e.uses
  | .var name none, ls => rfl
  | .var name (some e), ls => by
    simp [Stmt.outline, Layers.entries, Layers.itemEntries, Item.use?,
      Stmt.uses, Expr.optionUses]
  | .block body, ls => by
    simp [Stmt.outline, Layers.entries, Layers.itemEntries, Item.use?,
      entryUses_eachOutline body, Stmt.uses]
  | .if_ condition then_ none, ls => by
    simp [Stmt.outline, Layers.entries_append, entryUses_outline then_, Stmt.uses]
  | .if_ condition then_ (some else_), ls => by
    simp [Stmt.outline, Layers.entries_append, entryUses_outline then_, entryUses_outline else_,
      Stmt.uses]
  | .while_ condition body, ls => by
    simp [Stmt.outline, Layers.entries_append, entryUses_outline body, Stmt.uses]
  | .function r, ls => by
    simp [Stmt.outline, Layers.entries, Layers.itemEntries, Item.use?,
      entryUses_routine r, Stmt.uses]
  | .return_ line value, ls => by
    simp [Stmt.outline, Layers.entries, Layers.itemEntries, Item.use?,
      Stmt.uses]
  | .class_ name none methods, ls => by
    simp [Stmt.outline, Layers.entries, Layers.itemEntries, Item.use?,
      entryUses_methods methods, Stmt.uses]
  | .class_ name (some parent) methods, ls => by
    simp [Stmt.outline, Layers.entries, Layers.itemEntries, Item.use?,
      entryUses_methods methods, Stmt.uses]

theorem entryUses_eachOutline : ∀ (ss : List Stmt) (ls : Layers),
    entryUses (ls.entries (Stmt.eachOutline ss)) = Stmt.eachUses ss
  | [], ls => rfl
  | s :: ss, ls => by
    simp [Stmt.eachOutline, Layers.entries_append, entryUses_outline s, entryUses_eachOutline ss,
      Stmt.eachUses]

theorem entryUses_routine : ∀ (r : Routine) (ls : Layers),
    entryUses (ls.entries r.outline) = r.uses
  | .mk _ params body, ls => by
    simp [Routine.outline, Layers.entries_append, entryUses_eachOutline body, Routine.uses]

theorem entryUses_methods : ∀ (rs : List Routine) (ls : Layers),
    entryUses (ls.entries (Routine.eachOutline rs)) = Routine.eachUses rs
  | [], ls => rfl
  | r :: rs, ls => by
    simp [Routine.eachOutline, Layers.entries, Layers.itemEntries, Item.use?,
      entryUses_routine r, entryUses_methods rs, Routine.eachUses]

end

/-- The analysis finds exactly what there is to find at each place. -/
theorem findings_perm (p : Program) : (findings p).Perm (p.entries.flatMap Entry.findings) :=
  (walks_stmts p (List.forall_mem_nil _)).findings

theorem faults_perm (p : Program) :
    (faults (findings p)).Perm (p.entries.flatMap fun e => faults e.findings) := by
  have hflat : faults (p.entries.flatMap Entry.findings) =
      p.entries.flatMap fun e => faults e.findings := List.filterMap_flatMap
  exact hflat ▸ (findings_perm p).filterMap _

theorem bindings_perm (p : Program) :
    (bindings (findings p)).Perm (p.entries.flatMap fun e => bindings e.findings) := by
  have hflat : bindings (p.entries.flatMap Entry.findings) =
      p.entries.flatMap fun e => bindings e.findings := List.filterMap_flatMap
  exact hflat ▸ (findings_perm p).filterMap _

theorem analyse_eq_ok {p : Program} {ties : List (Site × Nat)} :
    analyse p = .ok ties ↔ faults (findings p) = [] ∧ bindings (findings p) = ties := by
  simp only [analyse]
  split <;> simp_all

theorem analyse_eq_error {p : Program} {ds : List Diagnostic} :
    analyse p = .error ds ↔ faults (findings p) ≠ [] ∧ faults (findings p) = ds := by
  simp only [analyse]
  split <;> simp_all

end Scoping

end LoxLang
