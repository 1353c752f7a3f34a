import LoxLang.Diagnostic
import LoxLang.Program.Uses

/-!
# Renaming sites and lines

Programs that are equal but for the numbers of their sites and the lines that their nodes keep are
renamings of one another.

## Main definitions

* `Renaming`: what becomes of sites and of lines.
* `Expr.rename`, `Stmt.rename`, `Routine.rename`: programs with other sites and lines.

## Main results

* `Stmt.rename_rename`: renaming twice is renaming once.
* `Stmt.rename_congr`: only the sites that are there matter.
-/

namespace LoxLang

/-- What becomes of sites and of lines. -/
structure Renaming where
  site : Site → Site
  line : Nat → Nat

namespace Renaming

/-- Nothing changes. -/
protected def id : Renaming := ⟨fun site => site, fun line => line⟩

/-- First `f`, then `g`. -/
def andThen (f g : Renaming) : Renaming := ⟨g.site ∘ f.site, g.line ∘ f.line⟩

/-- Only lines change. -/
def ofLine (line : Nat → Nat) : Renaming := ⟨fun site => site, line⟩

/-- Sites from `n` on move by `d`. -/
def shift (n d : Nat) : Renaming := ⟨fun site => if site < n then site else site + d, fun line => line⟩

@[simp] theorem site_id (site : Site) : Renaming.id.site site = site := rfl

@[simp] theorem line_id (line : Nat) : Renaming.id.line line = line := rfl

end Renaming

def Token.rename (f : Renaming) (t : Token) : Token := { t with line := f.line t.line }

def Name.rename (f : Renaming) (n : Name) : Name := ⟨n.text, f.line n.line⟩

@[simp] theorem Name.text_rename (f : Renaming) (n : Name) : (n.rename f).text = n.text := rfl

@[simp] theorem Name.line_rename (f : Renaming) (n : Name) : (n.rename f).line = f.line n.line := rfl

def Superclass.rename (f : Renaming) (s : Superclass) : Superclass :=
  ⟨f.site s.site, s.name.rename f⟩

namespace Expr

mutual

def rename (f : Renaming) : Expr → Expr
  | literal value => literal value
  | group inner => group (inner.rename f)
  | unary op line operand => unary op (f.line line) (operand.rename f)
  | binary op line left right => binary op (f.line line) (left.rename f) (right.rename f)
  | logical op line left right => logical op (f.line line) (left.rename f) (right.rename f)
  | .variable site name => .variable (f.site site) (name.rename f)
  | assign site name value => assign (f.site site) (name.rename f) (value.rename f)
  | call callee line args => call (callee.rename f) (f.line line) (renameEach f args)
  | get object name => get (object.rename f) (name.rename f)
  | set object name value => set (object.rename f) (name.rename f) (value.rename f)
  | this site line => this (f.site site) (f.line line)
  | super site line method => super (f.site site) (f.line line) (method.rename f)

def renameEach (f : Renaming) : List Expr → List Expr
  | [] => []
  | e :: es => e.rename f :: renameEach f es

end

end Expr

mutual

def Stmt.rename (f : Renaming) : Stmt → Stmt
  | .expression e => .expression (e.rename f)
  | .print e => .print (e.rename f)
  | .var name init => .var (name.rename f) (init.map (·.rename f))
  | .block body => .block (Stmt.renameEach f body)
  | .if_ condition then_ none => .if_ (condition.rename f) (then_.rename f) none
  | .if_ condition then_ (some else_) =>
    .if_ (condition.rename f) (then_.rename f) (some (else_.rename f))
  | .while_ condition body => .while_ (condition.rename f) (body.rename f)
  | .function routine => .function (routine.rename f)
  | .return_ line value => .return_ (f.line line) (value.map (·.rename f))
  | .class_ name superclass methods =>
    .class_ (name.rename f) (superclass.map (·.rename f)) (Routine.renameEach f methods)

def Stmt.renameEach (f : Renaming) : List Stmt → List Stmt
  | [] => []
  | s :: ss => s.rename f :: Stmt.renameEach f ss

def Routine.rename (f : Renaming) : Routine → Routine
  | .mk name params body => .mk (name.rename f) (params.map (·.rename f)) (Stmt.renameEach f body)

def Routine.renameEach (f : Renaming) : List Routine → List Routine
  | [] => []
  | r :: rs => r.rename f :: Routine.renameEach f rs

end

/-! ## Lists -/

@[simp] theorem Expr.renameEach_eq_map (f : Renaming) (es : List Expr) :
    Expr.renameEach f es = es.map (·.rename f) := by
  induction es with
  | nil => rfl
  | cons e es ih => simp [Expr.renameEach, ih]

@[simp] theorem Stmt.renameEach_eq_map (f : Renaming) (ss : List Stmt) :
    Stmt.renameEach f ss = ss.map (·.rename f) := by
  induction ss with
  | nil => rfl
  | cons s ss ih => simp [Stmt.renameEach, ih]

@[simp] theorem Routine.renameEach_eq_map (f : Renaming) (rs : List Routine) :
    Routine.renameEach f rs = rs.map (·.rename f) := by
  induction rs with
  | nil => rfl
  | cons r rs ih => simp [Routine.renameEach, ih]

namespace Routine

variable (f : Renaming) (r : Routine)

@[simp] theorem name_rename : (r.rename f).name = r.name.rename f := by
  cases r
  rfl

@[simp] theorem params_rename : (r.rename f).params = r.params.map (·.rename f) := by
  cases r
  rfl

@[simp] theorem body_rename : (r.rename f).body = r.body.map (·.rename f) := by
  cases r
  exact Stmt.renameEach_eq_map f _

@[simp] theorem arity_rename : (r.rename f).arity = r.arity := by simp [arity]

@[simp] theorem isInit_rename : (r.rename f).isInit = r.isInit := by simp [isInit]

end Routine

/-! ## Renaming twice -/

section Twice

variable (f g : Renaming)

theorem Name.rename_rename (n : Name) : (n.rename f).rename g = n.rename (f.andThen g) := rfl

mutual

theorem Expr.rename_rename : ∀ e : Expr, (e.rename f).rename g = e.rename (f.andThen g)
  | .literal _ | .variable _ _ | .this _ _ | .super _ _ _ => by
    simp [Expr.rename, Renaming.andThen, Name.rename]
  | .group a | .unary _ _ a | .get a _ | .assign _ _ a => by
    simp [Expr.rename, Renaming.andThen, Name.rename, Expr.rename_rename a]
  | .binary _ _ a b | .logical _ _ a b | .set a _ b => by
    simp [Expr.rename, Renaming.andThen, Name.rename, Expr.rename_rename a, Expr.rename_rename b]
  | .call a _ args => by
    simp only [Expr.rename, Expr.rename_rename a, Expr.renameEach_renameEach args]
    rfl

theorem Expr.renameEach_renameEach : ∀ es : List Expr,
    Expr.renameEach g (Expr.renameEach f es) = Expr.renameEach (f.andThen g) es
  | [] => rfl
  | e :: es => by
    simp only [Expr.renameEach, Expr.rename_rename e, Expr.renameEach_renameEach es]

end

mutual

theorem Stmt.rename_rename : ∀ s : Stmt, (s.rename f).rename g = s.rename (f.andThen g)
  | .expression e | .print e => by simp only [Stmt.rename, Expr.rename_rename]
  | .var _ init | .return_ _ init => by
    cases init <;> simp [Stmt.rename, Expr.rename_rename, Name.rename_rename, Renaming.andThen]
  | .block body => by simp only [Stmt.rename, Stmt.renameEach_renameEach body]
  | .if_ _ then_ none => by simp only [Stmt.rename, Expr.rename_rename, Stmt.rename_rename then_]
  | .if_ _ then_ (some else_) => by
    simp only [Stmt.rename, Expr.rename_rename, Stmt.rename_rename then_,
      Stmt.rename_rename else_]
  | .while_ _ body => by simp only [Stmt.rename, Expr.rename_rename, Stmt.rename_rename body]
  | .function r => by simp only [Stmt.rename, Routine.rename_rename r]
  | .class_ _ parent methods => by
    simp only [Stmt.rename, Routine.renameEach_renameEach methods, Name.rename_rename]
    cases parent <;> rfl

theorem Stmt.renameEach_renameEach : ∀ ss : List Stmt,
    Stmt.renameEach g (Stmt.renameEach f ss) = Stmt.renameEach (f.andThen g) ss
  | [] => rfl
  | s :: ss => by
    simp only [Stmt.renameEach, Stmt.rename_rename s, Stmt.renameEach_renameEach ss]

theorem Routine.rename_rename : ∀ r : Routine, (r.rename f).rename g = r.rename (f.andThen g)
  | .mk _ params body => by
    simp only [Routine.rename, Stmt.renameEach_renameEach body, List.map_map, Name.rename_rename]
    rfl

theorem Routine.renameEach_renameEach : ∀ rs : List Routine,
    Routine.renameEach g (Routine.renameEach f rs) = Routine.renameEach (f.andThen g) rs
  | [] => rfl
  | r :: rs => by
    simp only [Routine.renameEach, Routine.rename_rename r, Routine.renameEach_renameEach rs]

end

end Twice

/-! ## Renamings that do the same -/

section Congr

variable {f g : Renaming}

theorem Name.rename_congr (hl : f.line = g.line) (n : Name) : n.rename f = n.rename g := by
  simp [Name.rename, hl]

mutual

/-- Only the sites of an expression matter. -/
theorem Expr.rename_congr (hl : f.line = g.line) : ∀ e : Expr, (∀ u ∈ e.uses, f.site u.site = g.site u.site) →
    e.rename f = e.rename g
  | .literal _, _ => rfl
  | .variable _ _, h | .this _ _, h | .super _ _ _, h => by
    simp_all [Expr.rename, Expr.uses, Name.rename]
  | .group a, h | .unary _ _ a, h | .get a _, h => by
    rw [Expr.uses] at h
    simp [Expr.rename, Expr.rename_congr hl a h, Name.rename_congr hl, hl]
  | .assign site _ a, h => by
    simp only [Expr.uses, List.forall_mem_cons] at h
    simp [Expr.rename, Expr.rename_congr hl a h.2, Name.rename_congr hl, h.1]
  | .binary _ _ a b, h | .logical _ _ a b, h | .set a _ b, h => by
    simp only [Expr.uses, List.forall_mem_append] at h
    simp [Expr.rename, Expr.rename_congr hl a h.1, Expr.rename_congr hl b h.2, Name.rename_congr hl, hl]
  | .call a _ args, h => by
    simp only [Expr.uses, List.forall_mem_append] at h
    simp only [Expr.rename, Expr.rename_congr hl a h.1, Expr.renameEach_congr hl args h.2, hl]

theorem Expr.renameEach_congr (hl : f.line = g.line) : ∀ es : List Expr,
    (∀ u ∈ Expr.argsUses es, f.site u.site = g.site u.site) →
    Expr.renameEach f es = Expr.renameEach g es
  | [], _ => rfl
  | e :: es, h => by
    simp only [Expr.argsUses, List.forall_mem_append] at h
    simp only [Expr.renameEach, Expr.rename_congr hl e h.1, Expr.renameEach_congr hl es h.2]

end

theorem Expr.map_rename_congr (hl : f.line = g.line) (e : Option Expr)
    (h : ∀ u ∈ Expr.optionUses e, f.site u.site = g.site u.site) :
    e.map (·.rename f) = e.map (·.rename g) := by
  cases e with
  | none => rfl
  | some e => exact congrArg some (Expr.rename_congr hl e h)

mutual

/-- Only the sites of a statement matter. -/
theorem Stmt.rename_congr (hl : f.line = g.line) : ∀ s : Stmt, (∀ u ∈ s.uses, f.site u.site = g.site u.site) →
    s.rename f = s.rename g
  | .expression e, h | .print e, h => by
    rw [Stmt.uses] at h
    simp only [Stmt.rename, Expr.rename_congr hl e h]
  | .var _ init, h | .return_ _ init, h => by
    rw [Stmt.uses] at h
    simp only [Stmt.rename, Expr.map_rename_congr hl init h, Name.rename_congr hl, hl]
  | .block body, h => by
    rw [Stmt.uses] at h
    simp only [Stmt.rename, Stmt.renameEach_congr hl body h]
  | .if_ e then_ none, h => by
    simp only [Stmt.uses, List.forall_mem_append] at h
    simp only [Stmt.rename, Expr.rename_congr hl e h.1, Stmt.rename_congr hl then_ h.2]
  | .if_ e then_ (some else_), h => by
    simp only [Stmt.uses, List.forall_mem_append] at h
    simp only [Stmt.rename, Expr.rename_congr hl e h.1.1, Stmt.rename_congr hl then_ h.1.2,
      Stmt.rename_congr hl else_ h.2]
  | .while_ e body, h => by
    simp only [Stmt.uses, List.forall_mem_append] at h
    simp only [Stmt.rename, Expr.rename_congr hl e h.1, Stmt.rename_congr hl body h.2]
  | .function r, h => by
    rw [Stmt.uses] at h
    simp only [Stmt.rename, Routine.rename_congr hl r h]
  | .class_ _ parent methods, h => by
    simp only [Stmt.uses, List.forall_mem_append] at h
    have hparent : parent.map (·.rename f) = parent.map (·.rename g) := by
      cases parent with
      | none => rfl
      | some parent =>
        have hsite : f.site parent.site = g.site parent.site := h.1 parent.use (by simp)
        simp [Superclass.rename, hsite, Name.rename_congr hl]
    simp only [Stmt.rename, hparent, Routine.renameEach_congr hl methods h.2, Name.rename_congr hl]

theorem Stmt.renameEach_congr (hl : f.line = g.line) : ∀ ss : List Stmt,
    (∀ u ∈ Stmt.eachUses ss, f.site u.site = g.site u.site) →
    Stmt.renameEach f ss = Stmt.renameEach g ss
  | [], _ => rfl
  | s :: ss, h => by
    simp only [Stmt.eachUses, List.forall_mem_append] at h
    simp only [Stmt.renameEach, Stmt.rename_congr hl s h.1, Stmt.renameEach_congr hl ss h.2]

theorem Routine.rename_congr (hl : f.line = g.line) : ∀ r : Routine, (∀ u ∈ r.uses, f.site u.site = g.site u.site) →
    r.rename f = r.rename g
  | .mk _ params body, h => by
    rw [Routine.uses] at h
    have hparams : params.map (·.rename f) = params.map (·.rename g) :=
      List.map_congr_left fun p _ => Name.rename_congr hl p
    rw [Routine.rename, Routine.rename, hparams, Stmt.renameEach_congr hl body h,
      Name.rename_congr hl]

theorem Routine.renameEach_congr (hl : f.line = g.line) : ∀ rs : List Routine,
    (∀ u ∈ Routine.eachUses rs, f.site u.site = g.site u.site) →
    Routine.renameEach f rs = Routine.renameEach g rs
  | [], _ => rfl
  | r :: rs, h => by
    simp only [Routine.eachUses, List.forall_mem_append] at h
    simp only [Routine.renameEach, Routine.rename_congr hl r h.1, Routine.renameEach_congr hl rs h.2]

end

end Congr

/-! ## Renaming nothing -/

theorem Name.rename_id (n : Name) : n.rename .id = n := rfl

mutual

theorem Expr.rename_id : ∀ e : Expr, e.rename .id = e
  | .literal _ | .variable _ _ | .this _ _ | .super _ _ _ => rfl
  | .group a | .unary _ _ a | .get a _ | .assign _ _ a => by
    simp [Expr.rename, Expr.rename_id a, Name.rename_id]
  | .binary _ _ a b | .logical _ _ a b | .set a _ b => by
    simp [Expr.rename, Expr.rename_id a, Expr.rename_id b, Name.rename_id]
  | .call a _ args => by
    simp only [Expr.rename, Expr.rename_id a, Expr.renameEach_id args, Renaming.line_id]

theorem Expr.renameEach_id : ∀ es : List Expr, Expr.renameEach .id es = es
  | [] => rfl
  | e :: es => by simp only [Expr.renameEach, Expr.rename_id e, Expr.renameEach_id es]

end

mutual

theorem Stmt.rename_id : ∀ s : Stmt, s.rename .id = s
  | .expression e | .print e => by simp only [Stmt.rename, Expr.rename_id]
  | .var _ init | .return_ _ init => by
    cases init <;> simp [Stmt.rename, Expr.rename_id, Name.rename_id]
  | .block body => by simp only [Stmt.rename, Stmt.renameEach_id body]
  | .if_ _ then_ none => by simp only [Stmt.rename, Expr.rename_id, Stmt.rename_id then_]
  | .if_ _ then_ (some else_) => by
    simp only [Stmt.rename, Expr.rename_id, Stmt.rename_id then_, Stmt.rename_id else_]
  | .while_ _ body => by simp only [Stmt.rename, Expr.rename_id, Stmt.rename_id body]
  | .function r => by simp only [Stmt.rename, Routine.rename_id r]
  | .class_ _ parent methods => by
    simp only [Stmt.rename, Routine.renameEach_id methods, Name.rename_id]
    cases parent <;> rfl

theorem Stmt.renameEach_id : ∀ ss : List Stmt, Stmt.renameEach .id ss = ss
  | [] => rfl
  | s :: ss => by simp only [Stmt.renameEach, Stmt.rename_id s, Stmt.renameEach_id ss]

theorem Routine.rename_id : ∀ r : Routine, r.rename .id = r
  | .mk _ params body => by
    simp only [Routine.rename, Stmt.renameEach_id body, Name.rename_id, List.map_id']

theorem Routine.renameEach_id : ∀ rs : List Routine, Routine.renameEach .id rs = rs
  | [] => rfl
  | r :: rs => by simp only [Routine.renameEach, Routine.rename_id r, Routine.renameEach_id rs]

end

/-! ## Sites that stay -/

theorem Renaming.shift_of_lt {n site : Nat} (h : site < n) (d : Nat) :
    (Renaming.shift n d).site site = site := if_pos h

theorem Renaming.shift_of_le {n site : Nat} (h : n ≤ site) (d : Nat) :
    (Renaming.shift n d).site site = site + d := if_neg (Nat.not_lt.mpr h)

theorem Expr.rename_shift {n : Nat} {e : Expr} (h : ∀ u ∈ e.uses, u.site < n) (d : Nat) :
    e.rename (.shift n d) = e :=
  (Expr.rename_congr (f := .shift n d) (g := .id) rfl e fun u hu =>
    Renaming.shift_of_lt (h u hu) d).trans (Expr.rename_id e)

theorem Stmt.map_rename_shift {n : Nat} {p : Program} (h : ∀ u ∈ Stmt.eachUses p, u.site < n)
    (d : Nat) : p.map (·.rename (.shift n d)) = p := by
  rw [← Stmt.renameEach_eq_map]
  exact (Stmt.renameEach_congr (f := .shift n d) (g := .id) rfl p fun u hu =>
    Renaming.shift_of_lt (h u hu) d).trans (Stmt.renameEach_id p)

/-! ## Without sites -/

/-- All sites become the same. -/
def Renaming.unsited : Renaming := ⟨fun _ => 0, fun line => line⟩

/-- An expression without its sites. -/
def Expr.bare (e : Expr) : Expr := e.rename .unsited

/-- A statement without its sites. -/
def Stmt.bare (s : Stmt) : Stmt := s.rename .unsited

/-- A routine without the sites in it. -/
def Routine.bare (r : Routine) : Routine := r.rename .unsited

@[simp] theorem Renaming.line_unsited (line : Nat) : Renaming.unsited.line line = line := rfl

@[simp] theorem Name.rename_unsited (n : Name) : n.rename .unsited = n := rfl

theorem Stmt.bare_block (body : List Stmt) : (Stmt.block body).bare = .block (body.map bare) := by
  simp only [bare, rename, renameEach_eq_map]
  rfl

theorem Routine.bare_mk (name : Name) (params : List Name) (body : List Stmt) :
    (mk name params body).bare = mk name params (body.map Stmt.bare) := by
  simp only [bare, rename, Stmt.renameEach_eq_map, Name.rename_unsited, List.map_id']
  rfl

theorem Stmt.bare_class (name : Name) (parent : Option Superclass) (methods : List Routine) :
    (Stmt.class_ name parent methods).bare =
      .class_ name (parent.map (·.rename .unsited)) (methods.map Routine.bare) := by
  simp only [bare, rename, Routine.renameEach_eq_map, Name.rename_unsited]
  rfl

/-! ## Diagnostics -/

def Place.rename (f : Renaming) : Place → Place
  | .lexeme text line => .lexeme text (f.line line)
  | .atEnd line => .atEnd (f.line line)

def Diagnostic.rename (f : Renaming) : Diagnostic → Diagnostic
  | .lexical fault line => .lexical fault (f.line line)
  | .grammar fault place => .grammar fault (place.rename f)
  | .scope fault place => .scope fault (place.rename f)

/-- Diagnostics know no sites. -/
theorem Diagnostic.rename_eq_self {f : Renaming} (hl : ∀ line, f.line line = line)
    (d : Diagnostic) : d.rename f = d := by
  have hplace : ∀ place : Place, place.rename f = place := fun place => by
    cases place <;> simp [Place.rename, hl]
  cases d <;> simp [Diagnostic.rename, hplace, hl]

end LoxLang
