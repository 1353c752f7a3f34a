import LoxLang.Grammar.Cursor

/-!
# Reading expressions

Operators of two operands stand in tiers, from the loosest to the tightest, and bind to the left
within a tier. Below them come the operators of one operand, then calls and properties, then
literals, names and groups. Assignment is the loosest and binds to the right.
-/

namespace LoxLang.Grammar

/-- An operator between two operands. -/
inductive Operator where
  | logical (op : LogicalOp)
  | binary (op : BinaryOp)
  deriving DecidableEq, Repr

def Operator.apply (line : Nat) (left right : Expr) : Operator → Expr
  | logical op => .logical op line left right
  | binary op => .binary op line left right

/-- A tier of operators that bind equally tight. -/
inductive Tier where
  | or | and | equality | comparison | term | factor
  deriving DecidableEq, Repr

namespace Tier

/-- All tiers, the loosest first. -/
def all : List Tier := [or, and, equality, comparison, term, factor]

/-- The operator of a tier that a token stands for. -/
def operator? : Tier → Token.Kind → Option Operator
  | or, .keyword .or => some (.logical .or)
  | and, .keyword .and => some (.logical .and)
  | equality, .mark .bangEqual => some (.binary .notEqual)
  | equality, .mark .equalEqual => some (.binary .equal)
  | comparison, .mark .greater => some (.binary .greater)
  | comparison, .mark .greaterEqual => some (.binary .greaterEqual)
  | comparison, .mark .less => some (.binary .less)
  | comparison, .mark .lessEqual => some (.binary .lessEqual)
  | term, .mark .minus => some (.binary .subtract)
  | term, .mark .plus => some (.binary .add)
  | factor, .mark .slash => some (.binary .divide)
  | factor, .mark .star => some (.binary .multiply)
  | _, _ => none

end Tier

def unaryOperator? : Token.Kind → Option UnaryOp
  | .mark .bang => some .not
  | .mark .minus => some .negate
  | _ => none

def literal? : Token.Kind → Option Literal
  | .keyword .false_ => some (.bool false)
  | .keyword .true_ => some (.bool true)
  | .keyword .nil => some .nil
  | .number x => some (.number x)
  | .string s => some (.string s)
  | _ => none

namespace Reader

/-- Takes an operator of a tier, with its line. -/
def takeOperator? (t : Tier) : Reader (Option (Operator × Nat)) :=
  takeIf? fun token => (t.operator? token.kind).map (·, token.line)

/-- Takes an operator of one operand, with its line. -/
def takeUnary? : Reader (Option (UnaryOp × Nat)) :=
  takeIf? fun token => (unaryOperator? token.kind).map (·, token.line)

def takeLiteral? : Reader (Option Literal) := takeIf? fun token => literal? token.kind

/-- Turns a target and the value after an equals sign into an assignment. Another target than a
name or a property is reported at the sign. -/
def assignTo (sign : Token) (value : Expr) : Expr → Reader Expr
  | .variable _ name => return .assign (← freshSite) name value
  | .get object name => return .set object name value
  | target => do
    report (.grammar .invalidAssignmentTarget sign.place)
    return target

mutual

def assignment : Nat → Reader Expr
  | 0 => fail .expression
  | n + 1 => do
    let target ← operation n Tier.all
    match ← takeMark? .equal with
    | none => return target
    | some sign => assignTo sign (← assignment n) target

/-- Operands joined by operators of the given tiers, the loosest first. -/
def operation : Nat → List Tier → Reader Expr
  | 0, _ => fail .expression
  | n + 1, [] => unary n
  | n + 1, t :: ts => do operationRest n t ts (← operation n ts)

/-- The operators of a tier and their right operands that follow `left`. -/
def operationRest : Nat → Tier → List Tier → Expr → Reader Expr
  | 0, _, _, _ => fail .expression
  | n + 1, t, ts, left => do
    match ← takeOperator? t with
    | none => return left
    | some (op, line) => operationRest n t ts (op.apply line left (← operation n ts))

def unary : Nat → Reader Expr
  | 0 => fail .expression
  | n + 1 => do
    match ← takeUnary? with
    | some (op, line) => return .unary op line (← unary n)
    | none => callRest n (← primary n)

/-- The calls and properties that follow `e`. -/
def callRest : Nat → Expr → Reader Expr
  | 0, _ => fail .expression
  | n + 1, e => do
    match ← takeMark? .leftParen with
    | some _ =>
      let args ← if ← isNext (.mark .rightParen) then pure [] else arguments n 0
      let paren ← expectMark .rightParen .argumentsEnd
      callRest n (.call e paren.line args)
    | none =>
      match ← takeMark? .dot with
      | some _ => callRest n (.get e (← expectName .propertyName))
      | none => return e

/-- Arguments with commas between them, `count` of which are read already. -/
def arguments : Nat → Nat → Reader (List Expr)
  | 0, _ => fail .expression
  | n + 1, count => do
    if maxArity ≤ count then reportHere .tooManyArguments
    let e ← assignment n
    match ← takeMark? .comma with
    | some _ => return e :: (← arguments n (count + 1))
    | none => return [e]

def primary : Nat → Reader Expr
  | 0 => fail .expression
  | n + 1 => do
    if let some value ← takeLiteral? then return .literal value
    if let some keyword ← takeKeyword? .super then
      let _ ← expectMark .dot .superDot
      let method ← expectName .superMethod
      return .super (← freshSite) keyword.line method
    if let some keyword ← takeKeyword? .this then return .this (← freshSite) keyword.line
    if let some token ← take? .identifier then
      return .variable (← freshSite) ⟨token.lexeme, token.line⟩
    if let some _ ← takeMark? .leftParen then
      let inner ← assignment n
      let _ ← expectMark .rightParen .groupEnd
      return .group inner
    fail .expression

end

/-- Reads one expression. -/
def expression : Reader Expr := fun c => assignment c.depth c

/-- Reads one expression after which nothing may come. -/
def wholeExpression : Reader Expr := do
  let e ← expression
  if ← isAtEnd then return e else fail .endOfExpression

end Reader

/-- Reads tokens as one expression. -/
def readExpression (tokens : List Token) (endLine : Nat) (firstSite : Site) : Reading Expr :=
  .of Reader.wholeExpression tokens endLine firstSite

end LoxLang.Grammar
