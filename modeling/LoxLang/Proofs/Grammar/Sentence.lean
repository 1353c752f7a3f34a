import LoxLang.Grammar.Statement
import LoxLang.Proofs.Grammar.Phrase

/-!
# The grammar of programs

Declarations and statements as a relation between tokens and trees, with a rule for each alternative
of each production. A `for` statement stands for a block and a `while` statement.

An `else` belongs to the nearest `if` that has none yet. So a statement is derived along with
whether it ends with an `if` without an `else`, and what stands between an `if` and its `else` does
not.

## Main definitions

* `Stmt.for_`: what a `for` statement stands for.
* `Composes`: the derivations of programs from tokens.
-/

namespace LoxLang

/-! ## Loops -/

/-- Statements in a block, unless there is only one. -/
def Stmt.braced : List Stmt → Stmt
  | [s] => s
  | ss => .block ss

/-- What a `for` statement stands for. Without a condition it goes on forever. -/
def Stmt.for_ (init : Option Stmt) (condition increment : Option Expr) (body : Stmt) : Stmt :=
  .braced (init.toList ++ [.while_ (condition.getD (.literal (.bool true)))
    (.braced (body :: (increment.map .expression).toList))])

namespace Grammar

theorem forLoop_eq (init : Option Stmt) (condition increment : Option Expr) (body : Stmt) :
    forLoop init condition increment body = .for_ init condition increment body := by
  cases init <;> cases increment <;> rfl

/-! ## Parts of statements -/

/-- `p?` -/
inductive Optional {α : Type} (p : List Token → α → Prop) : List Token → Option α → Prop where
  | none : Optional p [] none
  | some {ts : List Token} {a : α} : p ts a → Optional p ts (some a)

/-- `"(" expression ")"` -/
inductive Condition : List Token → Expr → Prop where
  | mk {opening closing : Token} {ts : List Token} {e : Expr}
      (hopening : opening.kind = .mark .leftParen) (he : Derives (.level .assignment) ts e)
      (hclosing : closing.kind = .mark .rightParen) : Condition (opening :: (ts ++ [closing])) e

/-- `exprStmt → expression ";"` -/
inductive ExpressionStatement : List Token → Stmt → Prop where
  | mk {semicolon : Token} {ts : List Token} {e : Expr} (he : Derives (.level .assignment) ts e)
      (hsemicolon : semicolon.kind = .mark .semicolon) :
      ExpressionStatement (ts ++ [semicolon]) (.expression e)

/-- `"=" expression` -/
inductive Initializer : List Token → Expr → Prop where
  | mk {sign : Token} {ts : List Token} {e : Expr} (hsign : sign.kind = .mark .equal)
      (he : Derives (.level .assignment) ts e) : Initializer (sign :: ts) e

/-- `varDecl → "var" IDENT ( "=" expression )? ";"` -/
inductive VarDeclaration : List Token → Stmt → Prop where
  | mk {keyword name semicolon : Token} {ts : List Token} {init : Option Expr}
      (hkeyword : keyword.kind = .keyword .var) (hname : name.kind = .identifier)
      (hinit : Optional Initializer ts init) (hsemicolon : semicolon.kind = .mark .semicolon) :
      VarDeclaration (keyword :: name :: (ts ++ [semicolon])) (.var name.toName init)

/-- `( varDecl | exprStmt | ";" )` -/
inductive ForInitializer : List Token → Option Stmt → Prop where
  | var {ts : List Token} {s : Stmt} : VarDeclaration ts s → ForInitializer ts (some s)
  | expression {ts : List Token} {s : Stmt} : ExpressionStatement ts s → ForInitializer ts (some s)
  | none {semicolon : Token} : semicolon.kind = .mark .semicolon → ForInitializer [semicolon] none

/-- `clauses → "(" ( varDecl | exprStmt | ";" ) expression? ";" expression? ")"` -/
inductive ForClauses : List Token → Option Stmt × Option Expr × Option Expr → Prop where
  | mk {opening semicolon closing : Token} {is cs ns : List Token} {init : Option Stmt}
      {condition increment : Option Expr} (hopening : opening.kind = .mark .leftParen)
      (hinit : ForInitializer is init)
      (hcondition : Optional (Derives (.level .assignment)) cs condition)
      (hsemicolon : semicolon.kind = .mark .semicolon)
      (hincrement : Optional (Derives (.level .assignment)) ns increment)
      (hclosing : closing.kind = .mark .rightParen) :
      ForClauses (opening :: (is ++ (cs ++ semicolon :: (ns ++ [closing]))))
        (init, condition, increment)

/-- `parameters → IDENT ( "," IDENT )*` -/
inductive Parameters : List Token → List Name → Prop where
  | last {name : Token} (hname : name.kind = .identifier) : Parameters [name] [name.toName]
  | more {name comma : Token} {ts : List Token} {names : List Name}
      (hname : name.kind = .identifier) (hcomma : comma.kind = .mark .comma)
      (hrest : Parameters ts names) : Parameters (name :: comma :: ts) (name.toName :: names)

/-- `parameters?`, and not too many -/
inductive ParameterList : List Token → List Name → Prop where
  | none : ParameterList [] []
  | some {ts : List Token} {names : List Name} (h : Parameters ts names)
      (harity : names.length ≤ 255) : ParameterList ts names

/-- `"<" IDENT` -/
inductive Heritage : List Token → Superclass → Prop where
  | mk {site : Site} {less name : Token} (hless : less.kind = .mark .less)
      (hname : name.kind = .identifier) : Heritage [less, name] ⟨site, name.toName⟩

/-! ## Declarations and statements -/

/-- What can be derived. A statement is dangling if it ends with an `if` that has no `else`. -/
inductive Construct where
  | declarations
  | declaration
  | statement (dangling : Bool)
  | block
  | routines
  | routine

abbrev Construct.Tree : Construct → Type
  | declarations | block => List Stmt
  | declaration | statement _ => Stmt
  | routines => List Routine
  | routine => Routine

/-- Derivations of programs from tokens, with the tree of the derivation, in which every `for`
statement is replaced by what it stands for. -/
inductive Composes : (k : Construct) → List Token → k.Tree → Prop where
  /-- `program → declaration*` -/
  | noDeclarations : Composes .declarations [] []
  | declarations {ts us : List Token} {s : Stmt} {ss : List Stmt}
      (hfirst : Composes .declaration ts s) (hrest : Composes .declarations us ss) :
      Composes .declarations (ts ++ us) (s :: ss)
  /-- `classDecl → "class" IDENT ( "<" IDENT )? "{" function* "}"` -/
  | class_ {keyword name opening closing : Token} {hs ms : List Token} {parent : Option Superclass}
      {methods : List Routine} (hkeyword : keyword.kind = .keyword .class_)
      (hname : name.kind = .identifier) (hparent : Optional Heritage hs parent)
      (hopening : opening.kind = .mark .leftBrace) (hmethods : Composes .routines ms methods)
      (hclosing : closing.kind = .mark .rightBrace) :
      Composes .declaration (keyword :: name :: (hs ++ opening :: (ms ++ [closing])))
        (.class_ name.toName parent methods)
  /-- `funDecl → "fun" function` -/
  | function {keyword : Token} {ts : List Token} {r : Routine}
      (hkeyword : keyword.kind = .keyword .fun_) (hroutine : Composes .routine ts r) :
      Composes .declaration (keyword :: ts) (.function r)
  | var {ts : List Token} {s : Stmt} : VarDeclaration ts s → Composes .declaration ts s
  | statement {dangling : Bool} {ts : List Token} {s : Stmt} :
      Composes (.statement dangling) ts s → Composes .declaration ts s
  | expression {ts : List Token} {s : Stmt} :
      ExpressionStatement ts s → Composes (.statement false) ts s
  /-- `forStmt → "for" clauses statement` -/
  | for_ {keyword : Token} {cs bs : List Token} {init : Option Stmt}
      {condition increment : Option Expr} {body : Stmt} {dangling : Bool}
      (hkeyword : keyword.kind = .keyword .for_)
      (hclauses : ForClauses cs (init, condition, increment))
      (hbody : Composes (.statement dangling) bs body) :
      Composes (.statement dangling) (keyword :: (cs ++ bs)) (.for_ init condition increment body)
  /-- `ifStmt → "if" "(" expression ")" statement` -/
  | if_ {keyword : Token} {cs ts : List Token} {condition : Expr} {then_ : Stmt} {dangling : Bool}
      (hkeyword : keyword.kind = .keyword .if_) (hcondition : Condition cs condition)
      (hthen : Composes (.statement dangling) ts then_) :
      Composes (.statement true) (keyword :: (cs ++ ts)) (.if_ condition then_ none)
  /-- `ifStmt → "if" "(" expression ")" statement "else" statement` -/
  | ifElse {keyword otherwise : Token} {cs ts es : List Token} {condition : Expr}
      {then_ else_ : Stmt} {dangling : Bool} (hkeyword : keyword.kind = .keyword .if_)
      (hcondition : Condition cs condition) (hthen : Composes (.statement false) ts then_)
      (hotherwise : otherwise.kind = .keyword .else_)
      (helse : Composes (.statement dangling) es else_) :
      Composes (.statement dangling) (keyword :: (cs ++ (ts ++ otherwise :: es)))
        (.if_ condition then_ (some else_))
  /-- `printStmt → "print" expression ";"` -/
  | print {keyword semicolon : Token} {ts : List Token} {e : Expr}
      (hkeyword : keyword.kind = .keyword .print) (he : Derives (.level .assignment) ts e)
      (hsemicolon : semicolon.kind = .mark .semicolon) :
      Composes (.statement false) (keyword :: (ts ++ [semicolon])) (.print e)
  /-- `returnStmt → "return" expression? ";"` -/
  | return_ {keyword semicolon : Token} {ts : List Token} {value : Option Expr}
      (hkeyword : keyword.kind = .keyword .return_)
      (hvalue : Optional (Derives (.level .assignment)) ts value)
      (hsemicolon : semicolon.kind = .mark .semicolon) :
      Composes (.statement false) (keyword :: (ts ++ [semicolon])) (.return_ keyword.line value)
  /-- `whileStmt → "while" "(" expression ")" statement` -/
  | while_ {keyword : Token} {cs bs : List Token} {condition : Expr} {body : Stmt}
      {dangling : Bool} (hkeyword : keyword.kind = .keyword .while_)
      (hcondition : Condition cs condition) (hbody : Composes (.statement dangling) bs body) :
      Composes (.statement dangling) (keyword :: (cs ++ bs)) (.while_ condition body)
  | braces {ts : List Token} {ss : List Stmt} :
      Composes .block ts ss → Composes (.statement false) ts (.block ss)
  /-- `block → "{" declaration* "}"` -/
  | block {opening closing : Token} {ts : List Token} {ss : List Stmt}
      (hopening : opening.kind = .mark .leftBrace) (hbody : Composes .declarations ts ss)
      (hclosing : closing.kind = .mark .rightBrace) :
      Composes .block (opening :: (ts ++ [closing])) ss
  /-- `function*` -/
  | noRoutines : Composes .routines [] []
  | routines {ts us : List Token} {r : Routine} {rs : List Routine}
      (hfirst : Composes .routine ts r) (hrest : Composes .routines us rs) :
      Composes .routines (ts ++ us) (r :: rs)
  /-- `function → IDENT "(" parameters? ")" block` -/
  | routine {name opening closing : Token} {ps bs : List Token} {params : List Name}
      {body : List Stmt} (hname : name.kind = .identifier)
      (hopening : opening.kind = .mark .leftParen) (hparams : ParameterList ps params)
      (hclosing : closing.kind = .mark .rightParen) (hbody : Composes .block bs body) :
      Composes .routine (name :: opening :: (ps ++ closing :: bs)) (.mk name.toName params body)

end Grammar

end LoxLang
