import LoxLang.Grammar.Expression
import LoxLang.Proofs.Program.Renaming
import Mathlib.Data.List.Forall2

/-!
# The grammar of expressions

The grammar is given twice. As a relation, `Derives` has a rule for each alternative of each
production, and builds the tree along with the derivation. As a property of trees, an expression is
`Canonical` if every operand stands at a level that its place allows, and its `yield` is what the
leaves of the tree read from left to right. Both describe the same expressions.

## Main definitions

* `Level`: the productions of the grammar, from assignment down to primary expressions.
* `Derives`: the derivations of expressions from tokens.
* `Expr.Canonical`, `Expr.yield`, `Spells`: trees that respect the levels, and the tokens they
  stand for.

## Main results

* `derives_iff`: an expression is derived from tokens if it is canonical and they spell its yield.
-/

namespace LoxLang

/-! ## Terminals -/

/-- What a tree keeps of a token. -/
inductive Terminal where
  /-- Only its kind. -/
  | plain (kind : Token.Kind)
  /-- Its kind and its line. -/
  | kept (kind : Token.Kind) (line : Nat)
  /-- An identifier with its text and its line. -/
  | name (n : Name)
  deriving DecidableEq, Repr

/-- The name that an identifier is. -/
abbrev Token.toName (t : Token) : Name := ⟨t.lexeme, t.line⟩

/-- A token is what a tree keeps of it. -/
def Token.Is (t : Token) : Terminal → Prop
  | .plain kind => t.kind = kind
  | .kept kind line => t.kind = kind ∧ t.line = line
  | .name n => t.kind = .identifier ∧ t.toName = n

/-- Tokens stand for terminals, one by one. -/
def Spells (tokens : List Token) (leaves : List Terminal) : Prop :=
  List.Forall₂ Token.Is tokens leaves

namespace Spells

variable {ts us : List Token} {ps qs : List Terminal} {t : Token} {p : Terminal}

@[simp] theorem nil_right : Spells ts [] ↔ ts = [] := List.forall₂_nil_right_iff

@[simp] theorem cons_right : Spells ts (p :: ps) ↔ ∃ t us, t.Is p ∧ Spells us ps ∧ ts = t :: us :=
  List.forall₂_cons_right_iff

@[simp] theorem cons_cons : Spells (t :: ts) (p :: ps) ↔ t.Is p ∧ Spells ts ps :=
  List.forall₂_cons

theorem append (h : Spells ts ps) (h' : Spells us qs) : Spells (ts ++ us) (ps ++ qs) :=
  List.rel_append h h'

theorem append_right : Spells ts (ps ++ qs) ↔
    ∃ ts₁ ts₂, Spells ts₁ ps ∧ Spells ts₂ qs ∧ ts = ts₁ ++ ts₂ := by
  constructor
  · intro h
    refine ⟨ts.take ps.length, ts.drop ps.length, ?_, ?_, (List.take_append_drop _ _).symm⟩
    · exact List.forall₂_take_append ts ps qs h
    · exact List.forall₂_drop_append ts ps qs h
  · rintro ⟨ts₁, ts₂, h₁, h₂, rfl⟩
    exact h₁.append h₂

end Spells

/-! ## Operators and literals as tokens -/

def Literal.kind : Literal → Token.Kind
  | nil => .keyword .nil
  | bool true => .keyword .true_
  | bool false => .keyword .false_
  | number x => .number x
  | string s => .string s

namespace Grammar

/-- The tier of an operator of two values. -/
def binaryTier : BinaryOp → Tier
  | .equal | .notEqual => .equality
  | .greater | .greaterEqual | .less | .lessEqual => .comparison
  | .add | .subtract => .term
  | .multiply | .divide => .factor

def logicalTier : LogicalOp → Tier
  | .or => .or
  | .and => .and

namespace Operator

def tier : Operator → Tier
  | logical op => logicalTier op
  | binary op => binaryTier op

def kind : Operator → Token.Kind
  | logical op => .keyword op.keyword
  | binary op => .mark op.mark

end Operator

theorem operator?_eq_some {t : Tier} {k : Token.Kind} {op : Operator} :
    t.operator? k = some op ↔ op.tier = t ∧ k = op.kind := by
  constructor
  · intro h
    unfold Tier.operator? at h
    split at h <;> cases h <;> exact ⟨rfl, rfl⟩
  · rintro ⟨rfl, rfl⟩
    rcases op with op | op <;> cases op <;> rfl

theorem unaryOperator?_eq_some {k : Token.Kind} {op : UnaryOp} :
    unaryOperator? k = some op ↔ k = .mark op.mark := by
  constructor
  · intro h
    unfold unaryOperator? at h
    split at h <;> cases h <;> rfl
  · rintro rfl
    cases op <;> rfl

theorem literal?_eq_some {k : Token.Kind} {v : Literal} : literal? k = some v ↔ k = v.kind := by
  constructor
  · intro h
    unfold literal? at h
    split at h <;> cases h <;> rfl
  · rintro rfl
    rcases v with _ | b | _ | _
    · rfl
    · cases b <;> rfl
    · rfl
    · rfl

/-! ## Levels -/

/-- The productions of expressions, the loosest first. -/
inductive Level where
  | assignment
  | tier (t : Tier)
  | unary
  | call
  | primary
  deriving DecidableEq, Repr

/-- The level of the operands on the right of the operators of a tier. -/
def Tier.next : Tier → Level
  | or => .tier and
  | and => .tier equality
  | equality => .tier comparison
  | comparison => .tier term
  | term => .tier factor
  | factor => .unary

namespace Level

def rank : Level → Nat
  | assignment => 0
  | tier .or => 1
  | tier .and => 2
  | tier .equality => 3
  | tier .comparison => 4
  | tier .term => 5
  | tier .factor => 6
  | unary => 7
  | call => 8
  | primary => 9

def ofRank : Nat → Level
  | 0 => assignment
  | 1 => tier .or
  | 2 => tier .and
  | 3 => tier .equality
  | 4 => tier .comparison
  | 5 => tier .term
  | 6 => tier .factor
  | 7 => unary
  | 8 => call
  | _ => primary

/-- The first level is at most as tight as the second. -/
instance : LE Level := ⟨fun l l' => l.rank ≤ l'.rank⟩

theorem le_def {l l' : Level} : l ≤ l' ↔ l.rank ≤ l'.rank := Iff.rfl

instance (l l' : Level) : Decidable (l ≤ l') := inferInstanceAs (Decidable (l.rank ≤ l'.rank))

theorem le_trans {l l' l'' : Level} (h : l ≤ l') (h' : l' ≤ l'') : l ≤ l'' := Nat.le_trans h h'

theorem le_refl (l : Level) : l ≤ l := Nat.le_refl _

/-- The level after a given one. -/
def next : Level → Level
  | assignment => tier .or
  | tier t => t.next
  | unary => call
  | call => primary
  | primary => primary

theorem rank_next {l : Level} (h : l ≠ primary) : l.next.rank = l.rank + 1 := by
  rcases l with _ | t | _ | _ | _
  · rfl
  · cases t <;> rfl
  · rfl
  · rfl
  · exact absurd rfl h

theorem rank_injective {l l' : Level} (h : l.rank = l'.rank) : l = l' := by
  have hinverse : ∀ l : Level, ofRank l.rank = l := by
    rintro (_ | t | _ | _ | _)
    · rfl
    · cases t <;> rfl
    all_goals rfl
  rw [← hinverse l, h, hinverse]

theorem le_primary (l : Level) : l ≤ primary := by
  rcases l with _ | t | _ | _ | _
  case tier => cases t <;> decide
  all_goals decide

end Level

/-- The tiers that are read at a level, the loosest first. -/
def Level.tiers : Level → List Tier
  | .tier t => Tier.all.dropWhile (· != t)
  | _ => []

theorem Level.tiers_tier (t : Tier) : (Level.tier t).tiers = t :: t.next.tiers := by
  cases t <;> rfl

/-- The levels of operands: the tiers of operators and what comes after them. -/
def Level.IsOperand (l : Level) : Prop := .tier .or ≤ l ∧ l ≤ .unary

theorem Tier.isOperand (t : Tier) : (Level.tier t).IsOperand := by
  cases t <;> exact ⟨by decide, by decide⟩

theorem Tier.isOperand_next (t : Tier) : t.next.IsOperand := by
  cases t <;> exact ⟨by decide, by decide⟩

theorem Tier.le_next (t : Tier) : .tier t ≤ t.next := by
  cases t <;> decide

/-! ## Derivations -/

/-- What can be derived: expressions of a level, and arguments with commas between them. -/
inductive Symbol where
  | level (l : Level)
  | arguments

abbrev Symbol.Tree : Symbol → Type
  | level _ => Expr
  | arguments => List Expr

/-- Derivations of expressions from tokens, with the tree of the derivation. Sites are not derived
from tokens, so that they may be any. -/
inductive Derives : (s : Symbol) → List Token → s.Tree → Prop where
  /-- `assignment → IDENT "=" assignment` -/
  | assign {site : Site} {name sign : Token} {vs : List Token} {value : Expr}
      (hname : name.kind = .identifier) (hsign : sign.kind = .mark .equal)
      (hvalue : Derives (.level .assignment) vs value) :
      Derives (.level .assignment) (name :: sign :: vs) (.assign site name.toName value)
  /-- `assignment → call "." IDENT "=" assignment` -/
  | set {dot name sign : Token} {os vs : List Token} {object value : Expr}
      (hobject : Derives (.level .call) os object) (hdot : dot.kind = .mark .dot)
      (hname : name.kind = .identifier) (hsign : sign.kind = .mark .equal)
      (hvalue : Derives (.level .assignment) vs value) :
      Derives (.level .assignment) (os ++ dot :: name :: sign :: vs) (.set object name.toName value)
  /-- `assignment → logic_or` -/
  | operation {ts : List Token} {e : Expr} :
      Derives (.level (.tier .or)) ts e → Derives (.level .assignment) ts e
  /-- A tier of operators has operands of the next level. -/
  | operand {t : Tier} {ts : List Token} {e : Expr} :
      Derives (.level t.next) ts e → Derives (.level (.tier t)) ts e
  /-- `tier → tier operator next`, for the operators of two values -/
  | binary {t : Tier} {op : BinaryOp} {sign : Token} {ls rs : List Token} {left right : Expr}
      (htier : binaryTier op = t) (hleft : Derives (.level (.tier t)) ls left)
      (hsign : sign.kind = .mark op.mark) (hright : Derives (.level t.next) rs right) :
      Derives (.level (.tier t)) (ls ++ sign :: rs) (.binary op sign.line left right)
  /-- `tier → tier operator next`, for `and` and `or` -/
  | logical {t : Tier} {op : LogicalOp} {sign : Token} {ls rs : List Token} {left right : Expr}
      (htier : logicalTier op = t) (hleft : Derives (.level (.tier t)) ls left)
      (hsign : sign.kind = .keyword op.keyword) (hright : Derives (.level t.next) rs right) :
      Derives (.level (.tier t)) (ls ++ sign :: rs) (.logical op sign.line left right)
  /-- `unary → ( "!" | "-" ) unary` -/
  | unary {op : UnaryOp} {sign : Token} {ts : List Token} {e : Expr}
      (hsign : sign.kind = .mark op.mark) (hoperand : Derives (.level .unary) ts e) :
      Derives (.level .unary) (sign :: ts) (.unary op sign.line e)
  /-- `unary → call` -/
  | unsigned {ts : List Token} {e : Expr} :
      Derives (.level .call) ts e → Derives (.level .unary) ts e
  /-- `call → call "(" ")"` -/
  | call {opening closing : Token} {ts : List Token} {callee : Expr}
      (hcallee : Derives (.level .call) ts callee) (hopening : opening.kind = .mark .leftParen)
      (hclosing : closing.kind = .mark .rightParen) :
      Derives (.level .call) (ts ++ [opening, closing]) (.call callee closing.line [])
  /-- `call → call "(" arguments ")"` -/
  | callWith {opening closing : Token} {ts as : List Token} {callee : Expr} {args : List Expr}
      (hcallee : Derives (.level .call) ts callee) (hopening : opening.kind = .mark .leftParen)
      (hargs : Derives .arguments as args) (harity : args.length ≤ 255)
      (hclosing : closing.kind = .mark .rightParen) :
      Derives (.level .call) (ts ++ opening :: (as ++ [closing])) (.call callee closing.line args)
  /-- `call → call "." IDENT` -/
  | get {dot name : Token} {ts : List Token} {object : Expr}
      (hobject : Derives (.level .call) ts object) (hdot : dot.kind = .mark .dot)
      (hname : name.kind = .identifier) :
      Derives (.level .call) (ts ++ [dot, name]) (.get object name.toName)
  /-- `call → primary` -/
  | head {ts : List Token} {e : Expr} :
      Derives (.level .primary) ts e → Derives (.level .call) ts e
  /-- `arguments → expression` -/
  | argument {ts : List Token} {e : Expr} :
      Derives (.level .assignment) ts e → Derives .arguments ts [e]
  /-- `arguments → expression "," arguments` -/
  | arguments {comma : Token} {ts us : List Token} {e : Expr} {es : List Expr}
      (hfirst : Derives (.level .assignment) ts e) (hcomma : comma.kind = .mark .comma)
      (hrest : Derives .arguments us es) :
      Derives .arguments (ts ++ comma :: us) (e :: es)
  /-- `primary → NUMBER | STRING | "true" | "false" | "nil"` -/
  | literal {value : Literal} {t : Token} (ht : t.kind = value.kind) :
      Derives (.level .primary) [t] (.literal value)
  /-- `primary → "this"` -/
  | this {site : Site} {t : Token} (ht : t.kind = .keyword .this) :
      Derives (.level .primary) [t] (.this site t.line)
  /-- `primary → IDENT` -/
  | variable {site : Site} {t : Token} (ht : t.kind = .identifier) :
      Derives (.level .primary) [t] (.variable site t.toName)
  /-- `primary → "super" "." IDENT` -/
  | super {site : Site} {t dot method : Token} (ht : t.kind = .keyword .super)
      (hdot : dot.kind = .mark .dot) (hmethod : method.kind = .identifier) :
      Derives (.level .primary) [t, dot, method] (.super site t.line method.toName)
  /-- `primary → "(" expression ")"` -/
  | group {opening closing : Token} {ts : List Token} {inner : Expr}
      (hopening : opening.kind = .mark .leftParen)
      (hinner : Derives (.level .assignment) ts inner)
      (hclosing : closing.kind = .mark .rightParen) :
      Derives (.level .primary) (opening :: (ts ++ [closing])) (.group inner)

/-- An expression of the level after a given one is one of that level. -/
theorem Derives.of_next {l : Level} {ts : List Token} {e : Expr}
    (h : Derives (.level l.next) ts e) : Derives (.level l) ts e := by
  cases l with
  | assignment => exact .operation h
  | tier t => exact .operand h
  | unary => exact .unsigned h
  | call => exact .head h
  | primary => exact h

/-- An expression of a level is one of every looser level. -/
theorem Derives.of_le {l l' : Level} {ts : List Token} {e : Expr} (hle : l ≤ l')
    (h : Derives (.level l') ts e) : Derives (.level l) ts e := by
  obtain ⟨d, hd⟩ := Nat.exists_eq_add_of_le hle
  induction d generalizing l with
  | zero =>
    obtain rfl := Level.rank_injective hd.symm
    exact h
  | succ d ih =>
    have hl : l ≠ .primary := by
      rintro rfl
      have hmax : l'.rank ≤ 9 := Level.le_primary l'
      have hrank : Level.primary.rank = 9 := rfl
      omega
    have hnext := Level.rank_next hl
    refine .of_next (ih (l := l.next) ?_ ?_)
    · rw [Level.le_def]
      omega
    · omega

end Grammar

/-! ## Canonical trees -/

namespace Expr

open Grammar

/-- The level at which a tree stands. -/
def level : Expr → Level
  | assign _ _ _ | set _ _ _ => .assignment
  | logical op _ _ _ => .tier (logicalTier op)
  | binary op _ _ _ => .tier (binaryTier op)
  | unary _ _ _ => .unary
  | call _ _ _ | get _ _ => .call
  | literal _ | group _ | .variable _ _ | this _ _ | super _ _ _ => .primary

mutual

/-- Every operand stands at a level that its place allows, and no call has more than 255 arguments.
Operators of two operands associate to the left, assignments to the right. -/
def Canonical : Expr → Prop
  | literal _ | .variable _ _ | this _ _ | super _ _ _ => True
  | group inner => inner.Canonical
  | unary _ _ operand => operand.Canonical ∧ .unary ≤ operand.level
  | binary op _ left right =>
    left.Canonical ∧ .tier (binaryTier op) ≤ left.level ∧
      right.Canonical ∧ (binaryTier op).next ≤ right.level
  | logical op _ left right =>
    left.Canonical ∧ .tier (logicalTier op) ≤ left.level ∧
      right.Canonical ∧ (logicalTier op).next ≤ right.level
  | assign _ _ value => value.Canonical
  | call callee _ args =>
    callee.Canonical ∧ .call ≤ callee.level ∧ args.length ≤ 255 ∧ EachCanonical args
  | get object _ => object.Canonical ∧ .call ≤ object.level
  | set object _ value => object.Canonical ∧ .call ≤ object.level ∧ value.Canonical

def EachCanonical : List Expr → Prop
  | [] => True
  | e :: es => e.Canonical ∧ EachCanonical es

end

mutual

/-- The leaves of a tree from left to right, with the marks and keywords between them. -/
def yield : Expr → List Terminal
  | literal value => [.plain value.kind]
  | group inner => .plain (.mark .leftParen) :: (inner.yield ++ [.plain (.mark .rightParen)])
  | unary op line operand => .kept (.mark op.mark) line :: operand.yield
  | binary op line left right => left.yield ++ .kept (.mark op.mark) line :: right.yield
  | logical op line left right => left.yield ++ .kept (.keyword op.keyword) line :: right.yield
  | .variable _ name => [.name name]
  | assign _ name value => .name name :: .plain (.mark .equal) :: value.yield
  | call callee line args =>
    callee.yield ++ .plain (.mark .leftParen) ::
      (yieldEach args ++ [.kept (.mark .rightParen) line])
  | get object name => object.yield ++ [.plain (.mark .dot), .name name]
  | set object name value =>
    object.yield ++ .plain (.mark .dot) :: .name name :: .plain (.mark .equal) :: value.yield
  | this _ line => [.kept (.keyword .this) line]
  | super _ line method => [.kept (.keyword .super) line, .plain (.mark .dot), .name method]

/-- The leaves of expressions with commas between them. -/
def yieldEach : List Expr → List Terminal
  | [] => []
  | [e] => e.yield
  | e :: e' :: es => e.yield ++ .plain (.mark .comma) :: yieldEach (e' :: es)

end

/-! ### Sites do not matter -/

theorem level_rename (f : Renaming) (e : Expr) : (e.rename f).level = e.level := by
  cases e <;> rfl

mutual

theorem canonical_rename (f : Renaming) : ∀ e : Expr, (e.rename f).Canonical ↔ e.Canonical
  | literal _ | .variable _ _ | this _ _ | super _ _ _ => Iff.rfl
  | group inner | assign _ _ inner => by
    simp only [rename, Canonical, canonical_rename f inner]
  | unary _ _ inner | get inner _ => by
    simp only [rename, Canonical, canonical_rename f inner, level_rename]
  | binary _ _ left right | logical _ _ left right | set left _ right => by
    simp only [rename, Canonical, canonical_rename f left, canonical_rename f right, level_rename]
  | call callee _ args => by
    have hlength : (renameEach f args).length = args.length := by simp
    rw [rename, Canonical, Canonical, canonical_rename f callee, eachCanonical_rename f args,
      level_rename, hlength]

theorem eachCanonical_rename (f : Renaming) :
    ∀ es : List Expr, EachCanonical (renameEach f es) ↔ EachCanonical es
  | [] => Iff.rfl
  | e :: es => by
    simp only [renameEach, EachCanonical, canonical_rename f e, eachCanonical_rename f es]

end

mutual

theorem yield_unsited : ∀ e : Expr, (e.rename .unsited).yield = e.yield
  | literal _ | .variable _ _ | this _ _ | super _ _ _ => rfl
  | group inner | assign _ _ inner | unary _ _ inner | get inner _ => by
    simp only [rename, yield, yield_unsited inner, Renaming.line_unsited, Name.rename_unsited]
  | binary _ _ left right | logical _ _ left right | set left _ right => by
    simp only [rename, yield, yield_unsited left, yield_unsited right, Renaming.line_unsited,
      Name.rename_unsited]
  | call callee _ args => by
    rw [rename, yield, yield, yield_unsited callee, yieldEach_unsited args, Renaming.line_unsited]

theorem yieldEach_unsited : ∀ es : List Expr, yieldEach (renameEach .unsited es) = yieldEach es
  | [] => rfl
  | [e] => yield_unsited e
  | e :: e' :: es => by
    have hes := yieldEach_unsited (e' :: es)
    rw [renameEach] at hes
    rw [renameEach, renameEach, yieldEach, yieldEach, yield_unsited e, hes]

end

end Expr

namespace Grammar

/-- What the tree of a derivation is like. -/
def Symbol.Fits : (s : Symbol) → List Token → s.Tree → Prop
  | .level l, ts, e => e.Canonical ∧ l ≤ e.level ∧ Spells ts e.yield
  | .arguments, ts, es => es ≠ [] ∧ Expr.EachCanonical es ∧ Spells ts (Expr.yieldEach es)

theorem Derives.fits {s : Symbol} {ts : List Token} {x : s.Tree} (h : Derives s ts x) :
    s.Fits ts x := by
  induction h with
  | assign hname hsign _ ihvalue =>
    obtain ⟨hc, -, hs⟩ := ihvalue
    exact ⟨hc, Level.le_refl _, by simp [Expr.yield, Token.Is, hname, hsign, hs]⟩
  | set _ hdot hname hsign _ ihobject ihvalue =>
    obtain ⟨hobject, hlevel, hos⟩ := ihobject
    obtain ⟨hvalue, -, hvs⟩ := ihvalue
    refine ⟨⟨hobject, hlevel, hvalue⟩, Level.le_refl _, hos.append ?_⟩
    simp [Token.Is, hdot, hname, hsign, hvs]
  | operation _ ih => exact ⟨ih.1, Nat.zero_le _, ih.2.2⟩
  | operand _ ih => exact ⟨ih.1, Level.le_trans (Tier.le_next _) ih.2.1, ih.2.2⟩
  | binary htier _ hsign _ ihleft ihright =>
    obtain ⟨hleft, hlevel, hls⟩ := ihleft
    obtain ⟨hright, hlevel', hrs⟩ := ihright
    subst htier
    refine ⟨⟨hleft, hlevel, hright, hlevel'⟩, Level.le_refl _, hls.append ?_⟩
    simp [Token.Is, hsign, hrs]
  | logical htier _ hsign _ ihleft ihright =>
    obtain ⟨hleft, hlevel, hls⟩ := ihleft
    obtain ⟨hright, hlevel', hrs⟩ := ihright
    subst htier
    refine ⟨⟨hleft, hlevel, hright, hlevel'⟩, Level.le_refl _, hls.append ?_⟩
    simp [Token.Is, hsign, hrs]
  | unary hsign _ ih =>
    exact ⟨⟨ih.1, ih.2.1⟩, Level.le_refl _, by simp [Expr.yield, Token.Is, hsign, ih.2.2]⟩
  | unsigned _ ih => exact ⟨ih.1, Level.le_trans (by decide) ih.2.1, ih.2.2⟩
  | call _ hopening hclosing ih =>
    refine ⟨⟨ih.1, ih.2.1, by simp, trivial⟩, Level.le_refl _, ih.2.2.append ?_⟩
    simp [Expr.yieldEach, Token.Is, hopening, hclosing]
  | callWith _ hopening _ harity hclosing ihcallee ihargs =>
    obtain ⟨hcallee, hlevel, hts⟩ := ihcallee
    obtain ⟨-, hargs, has⟩ := ihargs
    refine ⟨⟨hcallee, hlevel, harity, hargs⟩, Level.le_refl _, hts.append ?_⟩
    refine Spells.cons_cons.mpr ⟨hopening, has.append ?_⟩
    simp [Token.Is, hclosing]
  | get _ hdot hname ih =>
    refine ⟨⟨ih.1, ih.2.1⟩, Level.le_refl _, ih.2.2.append ?_⟩
    simp [Token.Is, hdot, hname]
  | head _ ih => exact ⟨ih.1, Level.le_trans (by decide) ih.2.1, ih.2.2⟩
  | argument _ ih => exact ⟨by simp, ⟨ih.1, trivial⟩, ih.2.2⟩
  | arguments _ hcomma _ ihfirst ihrest =>
    obtain ⟨hfirst, -, hts⟩ := ihfirst
    obtain ⟨hne, hrest, hus⟩ := ihrest
    refine ⟨by simp, ⟨hfirst, hrest⟩, ?_⟩
    obtain ⟨e, es, rfl⟩ := List.exists_cons_of_ne_nil hne
    exact hts.append (Spells.cons_cons.mpr ⟨hcomma, hus⟩)
  | literal ht => exact ⟨trivial, Level.le_refl _, by simp [Expr.yield, Token.Is, ht]⟩
  | this ht => exact ⟨trivial, Level.le_refl _, by simp [Expr.yield, Token.Is, ht]⟩
  | «variable» ht => exact ⟨trivial, Level.le_refl _, by simp [Expr.yield, Token.Is, ht]⟩
  | super ht hdot hmethod =>
    exact ⟨trivial, Level.le_refl _, by simp [Expr.yield, Token.Is, ht, hdot, hmethod]⟩
  | group hopening _ hclosing ih =>
    refine ⟨ih.1, Level.le_refl _, Spells.cons_cons.mpr ⟨hopening, ih.2.2.append ?_⟩⟩
    simp [Token.Is, hclosing]

mutual

/-- A canonical tree is derived from the tokens that spell its yield. -/
theorem derives_of_canonical : ∀ (e : Expr) {ts : List Token}, e.Canonical → Spells ts e.yield →
    Derives (.level e.level) ts e
  | .literal value, ts, _, hs => by
    simp only [Expr.yield, Spells.cons_right, Spells.nil_right] at hs
    obtain ⟨t, us, ht, rfl, rfl⟩ := hs
    exact .literal ht
  | .group inner, ts, hc, hs => by
    simp only [Expr.yield, Spells.cons_right, Spells.append_right, Spells.nil_right] at hs
    obtain ⟨opening, us, ho, ⟨us, vs, hus, ⟨closing, ws, hcl, rfl, rfl⟩, rfl⟩, rfl⟩ := hs
    exact .group ho (.of_le (Nat.zero_le _) (derives_of_canonical inner hc hus)) hcl
  | .unary op line operand, ts, hc, hs => by
    simp only [Expr.yield, Spells.cons_right] at hs
    obtain ⟨sign, us, ⟨hsign, rfl⟩, hus, rfl⟩ := hs
    exact .unary hsign (.of_le hc.2 (derives_of_canonical operand hc.1 hus))
  | .binary op line left right, ts, hc, hs => by
    simp only [Expr.yield, Spells.append_right, Spells.cons_right] at hs
    obtain ⟨ls, us, hls, ⟨sign, rs, ⟨hsign, rfl⟩, hrs, rfl⟩, rfl⟩ := hs
    obtain ⟨hleft, hlevel, hright, hlevel'⟩ := hc
    exact .binary rfl (.of_le hlevel (derives_of_canonical left hleft hls)) hsign
      (.of_le hlevel' (derives_of_canonical right hright hrs))
  | .logical op line left right, ts, hc, hs => by
    simp only [Expr.yield, Spells.append_right, Spells.cons_right] at hs
    obtain ⟨ls, us, hls, ⟨sign, rs, ⟨hsign, rfl⟩, hrs, rfl⟩, rfl⟩ := hs
    obtain ⟨hleft, hlevel, hright, hlevel'⟩ := hc
    exact .logical rfl (.of_le hlevel (derives_of_canonical left hleft hls)) hsign
      (.of_le hlevel' (derives_of_canonical right hright hrs))
  | .variable site name, ts, _, hs => by
    simp only [Expr.yield, Spells.cons_right, Spells.nil_right] at hs
    obtain ⟨t, us, ⟨ht, rfl⟩, rfl, rfl⟩ := hs
    exact .variable ht
  | .assign site name value, ts, hc, hs => by
    simp only [Expr.yield, Spells.cons_right] at hs
    obtain ⟨t, us, ⟨ht, rfl⟩, ⟨sign, vs, hsign, hvs, rfl⟩, rfl⟩ := hs
    exact .assign ht hsign (.of_le (Nat.zero_le _) (derives_of_canonical value hc hvs))
  | .call callee line [], ts, hc, hs => by
    simp only [Expr.yield, Expr.yieldEach, Spells.append_right, Spells.cons_right,
      List.nil_append, Spells.nil_right] at hs
    obtain ⟨cs, us, hcs, ⟨opening, vs, ho, ⟨closing, ws, ⟨hcl, rfl⟩, rfl, rfl⟩, rfl⟩, rfl⟩ := hs
    exact .call (.of_le hc.2.1 (derives_of_canonical callee hc.1 hcs)) ho hcl
  | .call callee line (arg :: args), ts, hc, hs => by
    rw [Expr.yield, Spells.append_right] at hs
    obtain ⟨cs, us, hcs, hs, rfl⟩ := hs
    simp only [Spells.append_right, Spells.cons_right, Spells.nil_right] at hs
    obtain ⟨opening, vs, ho, ⟨as, us, has, ⟨closing, ws, ⟨hcl, rfl⟩, rfl, rfl⟩, rfl⟩, rfl⟩ := hs
    obtain ⟨hcallee, hlevel, harity, hargs⟩ := hc
    exact .callWith (.of_le hlevel (derives_of_canonical callee hcallee hcs)) ho
      (derives_of_eachCanonical (arg :: args) (by simp) hargs has) harity hcl
  | .get object name, ts, hc, hs => by
    simp only [Expr.yield, Spells.append_right, Spells.cons_right, Spells.nil_right] at hs
    obtain ⟨os, us, hos, ⟨dot, vs, hdot, ⟨t, ws, ⟨ht, rfl⟩, rfl, rfl⟩, rfl⟩, rfl⟩ := hs
    exact .get (.of_le hc.2 (derives_of_canonical object hc.1 hos)) hdot ht
  | .set object name value, ts, hc, hs => by
    simp only [Expr.yield, Spells.append_right, Spells.cons_right] at hs
    obtain ⟨os, us, hos, ⟨dot, ws, hdot, ⟨t, xs, ⟨ht, rfl⟩, ⟨sign, vs, hsign, hvs, rfl⟩, rfl⟩,
      rfl⟩, rfl⟩ := hs
    obtain ⟨hobject, hlevel, hvalue⟩ := hc
    exact .set (.of_le hlevel (derives_of_canonical object hobject hos)) hdot ht hsign
      (.of_le (Nat.zero_le _) (derives_of_canonical value hvalue hvs))
  | .this site line, ts, _, hs => by
    simp only [Expr.yield, Spells.cons_right, Spells.nil_right] at hs
    obtain ⟨t, us, ⟨ht, rfl⟩, rfl, rfl⟩ := hs
    exact .this ht
  | .super site line method, ts, _, hs => by
    simp only [Expr.yield, Spells.cons_right, Spells.nil_right] at hs
    obtain ⟨t, us, ⟨ht, rfl⟩, ⟨dot, vs, hdot, ⟨m, ws, ⟨hm, rfl⟩, rfl, rfl⟩, rfl⟩, rfl⟩ := hs
    exact .super ht hdot hm

theorem derives_of_eachCanonical : ∀ (es : List Expr) {ts : List Token}, es ≠ [] →
    Expr.EachCanonical es → Spells ts (Expr.yieldEach es) → Derives .arguments ts es
  | [], _, hne, _, _ => absurd rfl hne
  | [e], ts, _, hc, hs => .argument (.of_le (Nat.zero_le _) (derives_of_canonical e hc.1 hs))
  | e :: e' :: es, ts, _, hc, hs => by
    simp only [Expr.yieldEach, Spells.append_right, Spells.cons_right] at hs
    obtain ⟨us, vs, hus, ⟨comma, ws, hcomma, hws, rfl⟩, rfl⟩ := hs
    exact .arguments (.of_le (Nat.zero_le _) (derives_of_canonical e hc.1 hus)) hcomma
      (derives_of_eachCanonical (e' :: es) (by simp) hc.2 hws)

end

/-- The derivations of expressions are the canonical trees with the tokens of their yields. -/
theorem derives_iff {ts : List Token} {e : Expr} :
    Derives (.level .assignment) ts e ↔ e.Canonical ∧ Spells ts e.yield := by
  constructor
  · intro h
    exact ⟨h.fits.1, h.fits.2.2⟩
  · rintro ⟨hc, hs⟩
    exact .of_le (Nat.zero_le _) (derives_of_canonical e hc hs)

end Grammar

end LoxLang
