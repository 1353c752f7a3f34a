import LoxLang.Grammar.Expression

/-!
# Reading programs

A declaration that cannot be read is reported and dropped, and reading goes on after the next
semicolon or before the next word that begins a statement. A `for` statement is read as the block
and the `while` statement that it stands for.
-/

namespace LoxLang.Grammar

/-- Whether a keyword begins a declaration or statement. -/
def beginsStatement : Token.Kind → Bool
  | .keyword .class_ => true
  | .keyword .fun_ => true
  | .keyword .var => true
  | .keyword .for_ => true
  | .keyword .if_ => true
  | .keyword .while_ => true
  | .keyword .print => true
  | .keyword .return_ => true
  | _ => false

/-- What is left when the tokens up to the next border of statements are skipped. The token before
them is `last`. -/
def skipToBorder (last : Token) : List Token → List Token
  | [] => []
  | t :: rest =>
    if last.kind = .mark .semicolon || beginsStatement t.kind then t :: rest
    else skipToBorder t rest

/-- Skips the next token, and then up to the next border of statements. -/
def recover : List Token → List Token
  | [] => []
  | t :: rest => skipToBorder t rest

/-- The loop that a `for` statement stands for. -/
def forLoop (init : Option Stmt) (condition increment : Option Expr) (body : Stmt) : Stmt :=
  let body := match increment with
    | some e => .block [body, .expression e]
    | none => body
  let loop := .while_ (condition.getD (.literal (.bool true))) body
  match init with
  | some s => .block [s, loop]
  | none => loop

namespace Reader

/-- Reads a statement that may fail. A failure is reported, and reading goes on at the next border
of statements. -/
def recovering (reader : Reader Stmt) : Reader (Option Stmt) := fun c =>
  match reader c with
  | .ok s c => .ok (some s) c
  | .error d c => .ok none { c with reported := c.reported ++ [d], rest := recover c.rest }

/-- An expression, unless the given mark comes next. -/
def expressionUnless (m : Mark) : Reader (Option Expr) := do
  if ← isNext (.mark m) then return none else return some (← expression)

def expressionStatement : Reader Stmt := do
  let e ← expression
  let _ ← expectMark .semicolon .expressionEnd
  return .expression e

def printStatement : Reader Stmt := do
  let e ← expression
  let _ ← expectMark .semicolon .printEnd
  return .print e

def returnStatement (line : Nat) : Reader Stmt := do
  let value ← expressionUnless .semicolon
  let _ ← expectMark .semicolon .returnEnd
  return .return_ line value

def varDeclaration : Reader Stmt := do
  let name ← expectName .variableName
  let init ← match ← takeMark? .equal with
    | some _ => pure (some (← expression))
    | none => pure none
  let _ ← expectMark .semicolon .variableEnd
  return .var name init

/-- Parameters with commas between them, `count` of which are read already. -/
def parameters : Nat → Nat → Reader (List Name)
  | 0, _ => fail .parameterName
  | n + 1, count => do
    if maxArity ≤ count then reportHere .tooManyParameters
    let name ← expectName .parameterName
    match ← takeMark? .comma with
    | some _ => return name :: (← parameters n (count + 1))
    | none => return [name]

/-- The parameters of a routine, without the parentheses. -/
def parameterList : Reader (List Name) := fun c =>
  if c.kind? = some (.mark .rightParen) then .ok [] c else parameters c.depth 0 c

/-- The clauses of a `for` statement in parentheses. -/
def forClauses : Reader (Option Stmt × Option Expr × Option Expr) := do
  let _ ← expectMark .leftParen .forClauses
  let init ← match ← takeMark? .semicolon with
    | some _ => pure none
    | none =>
      match ← takeKeyword? .var with
      | some _ => some <$> varDeclaration
      | none => some <$> expressionStatement
  let condition ← expressionUnless .semicolon
  let _ ← expectMark .semicolon .forConditionEnd
  let increment ← expressionUnless .rightParen
  let _ ← expectMark .rightParen .forClausesEnd
  return (init, condition, increment)

/-- A condition in parentheses. -/
def condition (opening closing : Expected) : Reader Expr := do
  let _ ← expectMark .leftParen opening
  let e ← expression
  let _ ← expectMark .rightParen closing
  return e

/-- The name of the superclass, if there is one. -/
def superclass : Reader (Option Superclass) := do
  match ← takeMark? .less with
  | some _ =>
    let name ← expectName .superclassName
    return some ⟨← freshSite, name⟩
  | none => return none

mutual

def declaration : Nat → Reader Stmt
  | 0 => fail .expression
  | n + 1 => do
    if let some _ ← takeKeyword? .class_ then
      classDeclaration n
    else if let some _ ← takeKeyword? .fun_ then
      .function <$> routine n .function
    else if let some _ ← takeKeyword? .var then
      varDeclaration
    else
      statement n

def classDeclaration : Nat → Reader Stmt
  | 0 => fail .className
  | n + 1 => do
    let name ← expectName .className
    let parent ← superclass
    let _ ← expectMark .leftBrace .classBody
    let methods ← methods n
    let _ ← expectMark .rightBrace .classEnd
    return .class_ name parent methods

/-- Methods up to a closing brace. -/
def methods : Nat → Reader (List Routine)
  | 0 => fail .classEnd
  | n + 1 => do
    if ← isNext (.mark .rightBrace) then return []
    if ← isAtEnd then return []
    let method ← routine n .method
    return method :: (← methods n)

def routine : Nat → RoutineKind → Reader Routine
  | 0, kind => fail (.routineName kind)
  | n + 1, kind => do
    let name ← expectName (.routineName kind)
    let _ ← expectMark .leftParen (.parameters kind)
    let params ← parameterList
    let _ ← expectMark .rightParen .parametersEnd
    let _ ← expectMark .leftBrace (.routineBody kind)
    return .mk name params (← block n)

def statement : Nat → Reader Stmt
  | 0 => fail .expression
  | n + 1 => do
    if let some _ ← takeKeyword? .for_ then
      let (init, condition, increment) ← forClauses
      return forLoop init condition increment (← statement n)
    else if let some _ ← takeKeyword? .if_ then
      let condition ← condition .ifCondition .ifConditionEnd
      let then_ ← statement n
      match ← takeKeyword? .else_ with
      | some _ => return .if_ condition then_ (some (← statement n))
      | none => return .if_ condition then_ none
    else if let some _ ← takeKeyword? .print then
      printStatement
    else if let some keyword ← takeKeyword? .return_ then
      returnStatement keyword.line
    else if let some _ ← takeKeyword? .while_ then
      let condition ← condition .whileCondition .whileConditionEnd
      return .while_ condition (← statement n)
    else if let some _ ← takeMark? .leftBrace then
      return .block (← block n)
    else
      expressionStatement

/-- Declarations and the closing brace after them. -/
def block : Nat → Reader (List Stmt)
  | 0 => fail .blockEnd
  | n + 1 => do
    let body ← blockItems n
    let _ ← expectMark .rightBrace .blockEnd
    return body

/-- Declarations up to a closing brace. -/
def blockItems : Nat → Reader (List Stmt)
  | 0 => return []
  | n + 1 => do
    if ← isNext (.mark .rightBrace) then return []
    if ← isAtEnd then return []
    let s ← recovering (declaration n)
    return s.toList ++ (← blockItems n)

end

/-- Declarations up to the end of the source. -/
def declarations : Nat → Reader Program
  | 0 => return []
  | n + 1 => do
    if ← isAtEnd then return []
    let s ← recovering fun c => declaration c.depth c
    return s.toList ++ (← declarations n)

/-- Reads all declarations. -/
def program : Reader Program := fun c => declarations (c.rest.length + 1) c

end Reader

/-- Reads tokens as a program. -/
def readProgram (tokens : List Token) (endLine : Nat) (firstSite : Site) : Reading Program :=
  .of Reader.program tokens endLine firstSite

end LoxLang.Grammar
