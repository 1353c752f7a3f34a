/-!
# Names with values

An association list in which each name stands once, in the order in which the names came in.
-/

namespace LoxLang

abbrev Bindings (α : Type) := List (String × α)

namespace Bindings

variable {α : Type}

def get? (name : String) : Bindings α → Option α
  | [] => none
  | (other, value) :: rest => if other = name then some value else get? name rest

/-- Gives a name a value, in its place if it has one already. -/
def put (name : String) (value : α) : Bindings α → Bindings α
  | [] => [(name, value)]
  | (other, old) :: rest =>
    if other = name then (other, value) :: rest else (other, old) :: put name value rest

theorem get?_put (name other : String) (value : α) (b : Bindings α) :
    (b.put name value).get? other = if other = name then some value else b.get? other := by
  induction b with
  | nil => simp only [put, get?]; grind
  | cons entry rest ih => simp only [put]; split <;> simp only [get?] <;> grind

theorem get?_singleton (name other : String) (value : α) :
    get? other [(name, value)] = if other = name then some value else none := by
  simp only [get?, eq_comm]

end Bindings

end LoxLang
