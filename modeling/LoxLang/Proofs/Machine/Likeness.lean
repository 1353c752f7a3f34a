import LoxLang.Machine.Call
import LoxLang.Machine.Operation
import Mathlib.Data.List.Forall2
import Mathlib.Data.Option.Basic

/-!
# Values that differ in their closures

Two runs of related programs have values that are equal but for the closures in them. What operators,
calls and look-ups of methods do with such values depends on the closures only through their names and
parameters.

`C` relates the closures of functions, and `M` those of methods.

## Main definitions

* `Class.Like`, `Value.Like`: classes and values that are equal but for their closures.
* `Results`: both fail alike, or both give values that are alike.
-/

namespace LoxLang

variable {C C' M M' : Closure → Closure → Prop}

theorem rel_cases {α β : Type} {r : α → β → Prop} {x : Option α} {y : Option β}
    (h : Option.Rel r x y) :
    (x = none ∧ y = none) ∨ ∃ a b, x = some a ∧ y = some b ∧ r a b := by
  cases h with
  | none => exact .inl ⟨rfl, rfl⟩
  | some h => exact .inr ⟨_, _, rfl, rfl, h⟩

/-! ## Names with values -/

/-- The same names in the same order. -/
def Bindings.Like {α : Type} (r : α → α → Prop) (b b' : Bindings α) : Prop :=
  List.Forall₂ (fun entry entry' => entry.1 = entry'.1 ∧ r entry.2 entry'.2) b b'

namespace Bindings.Like

variable {α : Type} {r r' : α → α → Prop} {b b' : Bindings α}

theorem mono (h : b.Like r b') (hr : ∀ a a', r a a' → r' a a') : b.Like r' b' :=
  List.Forall₂.imp (fun _ _ he => ⟨he.1, hr _ _ he.2⟩) h

theorem get? (h : b.Like r b') (name : String) :
    Option.Rel r (Bindings.get? name b) (Bindings.get? name b') := by
  induction h with
  | nil => exact .none
  | cons he _ ih =>
    obtain ⟨hname, hr⟩ := he
    simp only [Bindings.get?, ← hname]
    split
    · exact .some hr
    · exact ih

theorem put (h : b.Like r b') (name : String) {a a' : α} (ha : r a a') :
    (b.put name a).Like r (b'.put name a') := by
  induction h with
  | nil => exact .cons ⟨rfl, ha⟩ .nil
  | cons he hrest ih =>
    obtain ⟨hname, hr⟩ := he
    simp only [Bindings.put, ← hname]
    split
    · exact .cons ⟨rfl, ha⟩ hrest
    · exact .cons ⟨rfl, hr⟩ ih

end Bindings.Like

/-! ## Classes and values -/

/-- Classes that are equal but for their methods. -/
inductive Class.Like (M : Closure → Closure → Prop) : Class → Class → Prop where
  | root {i name} (hm : Bindings.Like M ms ms') : Like M (.mk i name none ms) (.mk i name none ms')
  | derived {i name} (hp : Like M p p') (hm : Bindings.Like M ms ms') :
      Like M (.mk i name (some p) ms) (.mk i name (some p') ms')

/-- Values that are equal but for their closures. -/
inductive Value.Like (C M : Closure → Closure → Prop) : Value → Value → Prop where
  | nil : Like C M .nil .nil
  | bool (b) : Like C M (.bool b) (.bool b)
  | number (x) : Like C M (.number x) (.number x)
  | string (s) : Like C M (.string s) (.string s)
  | native (f) : Like C M (.native f) (.native f)
  | function (i) (h : C f g) : Like C M (.function i f) (.function i g)
  | class_ (h : Class.Like M c d) : Like C M (.class_ c) (.class_ d)
  | object (id) (h : Class.Like M c d) : Like C M (.object id c) (.object id d)

theorem Class.Like.mono (hM : ∀ f g, M f g → M' f g) {c d : Class} (h : c.Like M d) :
    c.Like M' d := by
  induction h with
  | root hm => exact .root (hm.mono hM)
  | derived _ hm ih => exact .derived ih (hm.mono hM)

theorem Value.Like.mono (hC : ∀ f g, C f g → C' f g) (hM : ∀ f g, M f g → M' f g) {v v' : Value}
    (h : v.Like C M v') : v.Like C' M' v' := by
  cases h with
  | nil => exact .nil
  | bool b => exact .bool b
  | number x => exact .number x
  | string s => exact .string s
  | native f => exact .native f
  | function i h => exact .function i (hC _ _ h)
  | class_ h => exact .class_ (h.mono hM)
  | object id h => exact .object id (h.mono hM)

theorem Class.Like.identity_eq {c d : Class} (h : c.Like M d) :
    c.identity = d.identity ∧ c.name = d.name := by
  cases h <;> exact ⟨rfl, rfl⟩

theorem Class.Like.method? {c d : Class} (h : c.Like M d) (name : String) :
    Option.Rel M (c.method? name) (d.method? name) := by
  induction h with
  | root hm => exact hm.get? name
  | derived _ hm ih =>
    simp only [Class.method?]
    obtain ⟨hf, hg⟩ | ⟨f, g, hf, hg, h⟩ := rel_cases (hm.get? name)
    · rw [hf, hg]
      exact ih
    · rw [hf, hg]
      exact .some h

/-! ## Operations -/

/-- Both fail alike, or both give values that are alike. -/
inductive Results (C M : Closure → Closure → Prop) :
    Except RuntimeError Value → Except RuntimeError Value → Prop where
  | ok (h : v.Like C M v') : Results C M (.ok v) (.ok v')
  | error (e) : Results C M (.error e) (.error e)

section Operations

variable {v v' u u' : Value}

theorem Value.Like.literal (l : Literal) : l.value.Like C M l.value := by
  cases l <;> constructor

theorem Value.Like.isTruthy_eq (h : v.Like C M v') : v.isTruthy = v'.isTruthy := by
  cases h <;> rfl

theorem Value.Like.equals_eq (h : v.Like C M v') (h' : u.Like C M u') :
    v.equals u = v'.equals u' := by
  cases h with
  | class_ h =>
    cases h' with
    | class_ h' => simp [Value.equals, h.identity_eq.1, h'.identity_eq.1]
    | _ => rfl
  | _ => cases h' <;> rfl

theorem Value.Like.unary (h : v.Like C M v') (op : UnaryOp) :
    Results C M (op.apply v) (op.apply v') := by
  cases op with
  | negate =>
    cases h with
    | number x => exact .ok (.number _)
    | _ => exact .error _
  | not =>
    simp only [UnaryOp.apply, h.isTruthy_eq]
    exact .ok (.bool _)

theorem Value.Like.onNumbers (h : v.Like C M v') (h' : u.Like C M u')
    {f : Float → Float → Value} (hf : ∀ x y, (f x y).Like C M (f x y)) :
    Results C M (v.onNumbers f u) (v'.onNumbers f u') := by
  cases h with
  | number x =>
    cases h' with
    | number y => exact .ok (hf x y)
    | _ => exact .error _
  | _ => exact .error _

theorem Value.Like.add (h : v.Like C M v') (h' : u.Like C M u') :
    Results C M (v.add u) (v'.add u') := by
  cases h with
  | number x =>
    cases h' with
    | number y => exact .ok (.number _)
    | _ => exact .error _
  | string s =>
    cases h' with
    | string s' => exact .ok (.string _)
    | _ => exact .error _
  | _ => exact .error _

theorem Value.Like.binary (h : v.Like C M v') (h' : u.Like C M u') (op : BinaryOp) :
    Results C M (op.apply v u) (op.apply v' u') := by
  cases op with
  | add => exact h.add h'
  | equal =>
    simp only [BinaryOp.apply, h.equals_eq h']
    exact .ok (.bool _)
  | notEqual =>
    simp only [BinaryOp.apply, h.equals_eq h']
    exact .ok (.bool _)
  | subtract | multiply | divide => exact h.onNumbers h' fun x y => .number _
  | greater | greaterEqual | less | lessEqual => exact h.onNumbers h' fun x y => .bool _

theorem Value.Like.decides_eq (h : v.Like C M v') (op : LogicalOp) :
    op.decides v = op.decides v' := by
  cases op <;> simp only [LogicalOp.decides, h.isTruthy_eq]

/-- Closures with the same name and parameters. -/
structure Closure.SameHead (f g : Closure) : Prop where
  name : f.routine.name = g.routine.name
  params : f.routine.params = g.routine.params

theorem Closure.SameHead.arity_eq {f g : Closure} (h : f.SameHead g) :
    f.routine.arity = g.routine.arity := by
  rw [Routine.arity, Routine.arity, h.params]

theorem Value.Like.text_eq (hC : ∀ f g, C f g → f.SameHead g) (h : v.Like C M v') :
    v.text = v'.text := by
  cases h with
  | function i h => simp only [Value.text, (hC _ _ h).name]
  | class_ h => exact h.identity_eq.2
  | object id h => simp only [Value.text, h.identity_eq.2]
  | _ => rfl

theorem Value.Like.arity?_eq (hC : ∀ f g, C f g → f.SameHead g)
    (hM : ∀ f g, M f g → f.SameHead g) (h : v.Like C M v') :
    Machine.arity? v = Machine.arity? v' := by
  cases h with
  | function i h => simp only [Machine.arity?, (hC _ _ h).arity_eq]
  | class_ h =>
    obtain ⟨hf, hg⟩ | ⟨f, g, hf, hg, h⟩ := rel_cases (h.method? Routine.initName)
    · simp only [Machine.arity?, hf, hg]
    · simp only [Machine.arity?, hf, hg, (hM _ _ h).arity_eq]
  | _ => rfl

end Operations

end LoxLang
