import LoxLang.Machine.State

/-!
# Configurations

A running machine has a control, which says what it is about to do, and a stack of frames, which
say what is to be done with the result. A statement that ends normally gives a value too; nobody
looks at it.
-/

namespace LoxLang.Machine

/-- What a call gives when its body has ended. -/
inductive CallResult where
  /-- What the body returns, or `nil`. -/
  | returned
  /-- The object that a scope binds to `this`. -/
  | receiver (scope : ScopeId)
  /-- A value known beforehand; what the call would give is dropped. -/
  | given (dropped : CallResult) (v : Value)

/-- What is to be done with a value. -/
inductive Frame where
  | unary (op : UnaryOp) (line : Nat)
  | binaryLeft (op : BinaryOp) (line : Nat) (right : Expr)
  | binaryRight (op : BinaryOp) (line : Nat) (left : Value)
  | logical (op : LogicalOp) (right : Expr)
  | assign (site : Site) (name : Name)
  | callee (line : Nat) (args : List Expr)
  /-- Arguments that are evaluated, the last one first, and arguments that are not. -/
  | argument (line : Nat) (callee : Value) (done : List Value) (rest : List Expr)
  | get (name : Name)
  | setObject (name : Name) (value : Expr)
  | setValue (name : Name) (object : ObjectId)
  | print
  | var (name : Name)
  | if_ (then_ : Stmt) (else_ : Option Stmt)
  | whileCondition (condition : Expr) (body : Stmt)
  | whileBody (condition : Expr) (body : Stmt)
  | superclass (name : Name) (line : Nat) (methods : List Routine)
  | return_
  /-- Statements that follow. -/
  | sequence (rest : List Stmt)
  /-- The end of a block, where the scope around it becomes current again. -/
  | block (outer : ScopeId)
  /-- The end of a call. -/
  | call (outer : ScopeId) (result : CallResult)
  /-- Statements of the top level that follow. -/
  | program (rest : List Stmt)

/-- What a machine is about to do. -/
inductive Control where
  | eval (e : Expr)
  | exec (s : Stmt)
  /-- Hand a value to the frame on top. -/
  | value (v : Value)
  /-- Leave frames up to the end of a call. -/
  | returning (v : Value)
  /-- Leave all frames. -/
  | failing (f : Failure)

structure Config where
  control : Control
  frames : List Frame
  state : State

end LoxLang.Machine
