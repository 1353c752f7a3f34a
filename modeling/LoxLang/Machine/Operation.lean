import LoxLang.Failure
import LoxLang.Value

/-!
# Operators on values
-/

namespace LoxLang

def UnaryOp.apply : UnaryOp → Value → Except RuntimeError Value
  | negate, .number x => .ok (.number (-x))
  | negate, _ => .error .operandNotNumber
  | not, v => .ok (.bool (!v.isTruthy))

namespace Value

/-- Applies a function to two numbers. -/
def onNumbers (left : Value) (f : Float → Float → Value) (right : Value) :
    Except RuntimeError Value :=
  match left, right with
  | .number x, .number y => .ok (f x y)
  | _, _ => .error .operandsNotNumbers

/-- Adds two numbers or joins two strings. -/
def add : Value → Value → Except RuntimeError Value
  | .number x, .number y => .ok (.number (x + y))
  | .string s, .string t => .ok (.string (s ++ t))
  | _, _ => .error .operandsNotAddable

end Value

def BinaryOp.apply (left right : Value) : BinaryOp → Except RuntimeError Value
  | add => left.add right
  | subtract => left.onNumbers (fun x y => .number (x - y)) right
  | multiply => left.onNumbers (fun x y => .number (x * y)) right
  | divide => left.onNumbers (fun x y => .number (x / y)) right
  | equal => .ok (.bool (left.equals right))
  | notEqual => .ok (.bool (!left.equals right))
  | greater => left.onNumbers (fun x y => .bool (x > y)) right
  | greaterEqual => left.onNumbers (fun x y => .bool (x ≥ y)) right
  | less => left.onNumbers (fun x y => .bool (x < y)) right
  | lessEqual => left.onNumbers (fun x y => .bool (x ≤ y)) right

/-- Whether the left operand already is the result. -/
def LogicalOp.decides (left : Value) : LogicalOp → Bool
  | or => left.isTruthy
  | and => !left.isTruthy

end LoxLang
