import LoxLang.Proofs.Grammar.Acceptance
import LoxLang.Proofs.Grammar.Sites
import LoxLang.Proofs.Program.Padding

/-!
# Loops spelled out

A `for` statement can be spelled as the `while` statement that it stands for, in a block of its own
and with a block around its body. The tree of the `for` statement has the outer block only if there is
an initializer, and the inner one only if there is an increment. So the tree of a program in which
`for` statements are spelled out has more blocks, around statements that declare nothing.

## Main definitions

* `LoopTokens.spell`: the tokens of a loop that is spelled out.
* `Lowers`: tokens of a program, and the same tokens with `for` statements spelled out.

## Main results

* `Lowers.lowered`: both are derived, and the tree of the one pads that of the other.
* `Composes.exists_lowers`: all `for` statements of a program can be spelled out.
-/

namespace LoxLang.Grammar

/-! ## Tokens -/

/-- The tokens that a loop has beside those of its clauses and its body. Their lines do not matter. -/
structure LoopTokens where
  outerOpening : {t : Token // t.kind = .mark .leftBrace}
  keyword : {t : Token // t.kind = .keyword .while_}
  conditionOpening : {t : Token // t.kind = .mark .leftParen}
  /-- For a loop without a condition. -/
  always : {t : Token // t.kind = .keyword .true_}
  conditionClosing : {t : Token // t.kind = .mark .rightParen}
  innerOpening : {t : Token // t.kind = .mark .leftBrace}
  /-- After the increment. -/
  semicolon : {t : Token // t.kind = .mark .semicolon}
  innerClosing : {t : Token // t.kind = .mark .rightBrace}
  outerClosing : {t : Token // t.kind = .mark .rightBrace}

namespace LoopTokens

/-- All tokens on one line. -/
def onLine (line : Nat) : LoopTokens where
  outerOpening := ⟨⟨_, Mark.leftBrace.spelling, line⟩, rfl⟩
  keyword := ⟨⟨_, Keyword.while_.spelling, line⟩, rfl⟩
  conditionOpening := ⟨⟨_, Mark.leftParen.spelling, line⟩, rfl⟩
  always := ⟨⟨_, Keyword.true_.spelling, line⟩, rfl⟩
  conditionClosing := ⟨⟨_, Mark.rightParen.spelling, line⟩, rfl⟩
  innerOpening := ⟨⟨_, Mark.leftBrace.spelling, line⟩, rfl⟩
  semicolon := ⟨⟨_, Mark.semicolon.spelling, line⟩, rfl⟩
  innerClosing := ⟨⟨_, Mark.rightBrace.spelling, line⟩, rfl⟩
  outerClosing := ⟨⟨_, Mark.rightBrace.spelling, line⟩, rfl⟩

variable (l : LoopTokens)

/-- `"(" condition ")"` -/
def condition (condition : Option (List Token)) : List Token :=
  l.conditionOpening.val :: (condition.getD [l.always.val] ++ [l.conditionClosing.val])

/-- `"{" body increment ";" "}"` -/
def body (increment : Option (List Token)) (body : List Token) : List Token :=
  l.innerOpening.val :: (body ++ increment.elim [] (· ++ [l.semicolon.val]) ++ [l.innerClosing.val])

/-- `"{" initializer "while" "(" condition ")" "{" body increment ";" "}" "}"`, where the initializer
has a semicolon of its own. -/
def spell (init condition increment : Option (List Token)) (body : List Token) : List Token :=
  l.outerOpening.val :: (init.getD [] ++
    l.keyword.val :: (l.condition condition ++ l.body increment body) ++ [l.outerClosing.val])

end LoopTokens

/-- Tokens of a program, and the same tokens with any number of `for` statements spelled out. There is
a rule for each rule of the grammar, and one more. -/
inductive Lowers : Construct → List Token → List Token → Prop where
  | noDeclarations : Lowers .declarations [] []
  | declarations {ts ts' us us' : List Token} (hfirst : Lowers .declaration ts ts')
      (hrest : Lowers .declarations us us') : Lowers .declarations (ts ++ us) (ts' ++ us')
  | class_ {keyword name opening closing : Token} {hs ms ms' : List Token}
      {parent : Option Superclass} (hkeyword : keyword.kind = .keyword .class_)
      (hname : name.kind = .identifier) (hparent : Optional Heritage hs parent)
      (hopening : opening.kind = .mark .leftBrace) (hmethods : Lowers .routines ms ms')
      (hclosing : closing.kind = .mark .rightBrace) :
      Lowers .declaration (keyword :: name :: (hs ++ opening :: (ms ++ [closing])))
        (keyword :: name :: (hs ++ opening :: (ms' ++ [closing])))
  | function {keyword : Token} {ts ts' : List Token} (hkeyword : keyword.kind = .keyword .fun_)
      (hroutine : Lowers .routine ts ts') : Lowers .declaration (keyword :: ts) (keyword :: ts')
  | var {ts : List Token} {s : Stmt} (h : VarDeclaration ts s) : Lowers .declaration ts ts
  | statement {dangling : Bool} {ts ts' : List Token} (h : Lowers (.statement dangling) ts ts') :
      Lowers .declaration ts ts'
  | expression {ts : List Token} {s : Stmt} (h : ExpressionStatement ts s) :
      Lowers (.statement false) ts ts
  /-- A `for` statement that is left as it is. -/
  | for_ {keyword : Token} {cs bs bs' : List Token} {init : Option Stmt}
      {condition increment : Option Expr} {dangling : Bool}
      (hkeyword : keyword.kind = .keyword .for_)
      (hclauses : ForClauses cs (init, condition, increment))
      (hbody : Lowers (.statement dangling) bs bs') :
      Lowers (.statement dangling) (keyword :: (cs ++ bs)) (keyword :: (cs ++ bs'))
  /-- A `for` statement that is spelled out. -/
  | spelled {keyword opening semicolon closing : Token} {is cs ns bs bs' : List Token}
      {init : Option Stmt} {condition increment : Option Expr} {dangling : Bool}
      (hkeyword : keyword.kind = .keyword .for_) (hopening : opening.kind = .mark .leftParen)
      (hinit : ForInitializer is init)
      (hcondition : Optional (Derives (.level .assignment)) cs condition)
      (hsemicolon : semicolon.kind = .mark .semicolon)
      (hincrement : Optional (Derives (.level .assignment)) ns increment)
      (hclosing : closing.kind = .mark .rightParen)
      (hbody : Lowers (.statement dangling) bs bs') (l : LoopTokens) :
      Lowers (.statement dangling)
        (keyword :: ((opening :: (is ++ (cs ++ semicolon :: (ns ++ [closing])))) ++ bs))
        (l.spell (init.map fun _ => is) (condition.map fun _ => cs) (increment.map fun _ => ns) bs')
  | if_ {keyword : Token} {cs ts ts' : List Token} {condition : Expr} {dangling : Bool}
      (hkeyword : keyword.kind = .keyword .if_) (hcondition : Condition cs condition)
      (hthen : Lowers (.statement dangling) ts ts') :
      Lowers (.statement true) (keyword :: (cs ++ ts)) (keyword :: (cs ++ ts'))
  | ifElse {keyword otherwise : Token} {cs ts ts' es es' : List Token} {condition : Expr}
      {dangling : Bool} (hkeyword : keyword.kind = .keyword .if_)
      (hcondition : Condition cs condition) (hthen : Lowers (.statement false) ts ts')
      (hotherwise : otherwise.kind = .keyword .else_)
      (helse : Lowers (.statement dangling) es es') :
      Lowers (.statement dangling) (keyword :: (cs ++ (ts ++ otherwise :: es)))
        (keyword :: (cs ++ (ts' ++ otherwise :: es')))
  | print {keyword semicolon : Token} {ts : List Token} {e : Expr}
      (hkeyword : keyword.kind = .keyword .print) (he : Derives (.level .assignment) ts e)
      (hsemicolon : semicolon.kind = .mark .semicolon) :
      Lowers (.statement false) (keyword :: (ts ++ [semicolon])) (keyword :: (ts ++ [semicolon]))
  | return_ {keyword semicolon : Token} {ts : List Token} {value : Option Expr}
      (hkeyword : keyword.kind = .keyword .return_)
      (hvalue : Optional (Derives (.level .assignment)) ts value)
      (hsemicolon : semicolon.kind = .mark .semicolon) :
      Lowers (.statement false) (keyword :: (ts ++ [semicolon])) (keyword :: (ts ++ [semicolon]))
  | while_ {keyword : Token} {cs bs bs' : List Token} {condition : Expr} {dangling : Bool}
      (hkeyword : keyword.kind = .keyword .while_) (hcondition : Condition cs condition)
      (hbody : Lowers (.statement dangling) bs bs') :
      Lowers (.statement dangling) (keyword :: (cs ++ bs)) (keyword :: (cs ++ bs'))
  | braces {ts ts' : List Token} (h : Lowers .block ts ts') : Lowers (.statement false) ts ts'
  | block {opening closing : Token} {ts ts' : List Token} (hopening : opening.kind = .mark .leftBrace)
      (hbody : Lowers .declarations ts ts') (hclosing : closing.kind = .mark .rightBrace) :
      Lowers .block (opening :: (ts ++ [closing])) (opening :: (ts' ++ [closing]))
  | noRoutines : Lowers .routines [] []
  | routines {ts ts' us us' : List Token} (hfirst : Lowers .routine ts ts')
      (hrest : Lowers .routines us us') : Lowers .routines (ts ++ us) (ts' ++ us')
  | routine {name opening closing : Token} {ps bs bs' : List Token} {params : List Name}
      (hname : name.kind = .identifier) (hopening : opening.kind = .mark .leftParen)
      (hparams : ParameterList ps params) (hclosing : closing.kind = .mark .rightParen)
      (hbody : Lowers .block bs bs') :
      Lowers .routine (name :: opening :: (ps ++ closing :: bs))
        (name :: opening :: (ps ++ closing :: bs'))

/-! ## Trees -/

/-- The tree of a loop that is spelled out. -/
def spelledOut (init : Option Stmt) (condition increment : Option Expr) (body : Stmt) : Stmt :=
  .block (init.toList ++ [.while_ (condition.getD (.literal (.bool true)))
    (.block (body :: (increment.map .expression).toList))])

section Composes

variable {ts us is cs ns bs : List Token} {s body : Stmt} {init : Option Stmt}
  {condition increment : Option Expr}

theorem Composes.singleton (h : Composes .declaration ts s) : Composes .declarations ts [s] := by
  rw [← List.append_nil ts]
  exact .declarations h .noDeclarations

theorem ForInitializer.composes (h : ForInitializer is (some s)) : Composes .declaration is s := by
  cases h with
  | var h => exact .var h
  | expression h => exact .statement (.expression h)

theorem composes_initializer (h : ForInitializer is init) (hs : Composes .declarations us [s]) :
    Composes .declarations ((init.map fun _ => is).getD [] ++ us) (init.toList ++ [s]) := by
  cases init with
  | none => exact hs
  | some first => exact .declarations h.composes hs

variable (l : LoopTokens)

theorem LoopTokens.condition_composes
    (h : Optional (Derives (.level .assignment)) cs condition) :
    Condition (l.condition (condition.map fun _ => cs))
      (condition.getD (.literal (.bool true))) := by
  refine .mk l.conditionOpening.property ?_ l.conditionClosing.property
  cases h with
  | none => exact .of_le (Level.le_primary _) (.literal l.always.property)
  | some h => exact h

theorem LoopTokens.body_composes (hbody : Composes .declaration bs body)
    (h : Optional (Derives (.level .assignment)) ns increment) :
    Composes .block (l.body (increment.map fun _ => ns) bs)
      (body :: (increment.map .expression).toList) := by
  refine .block l.innerOpening.property ?_ l.innerClosing.property
  cases h with
  | none => exact .declarations hbody .noDeclarations
  | some h =>
    exact .declarations hbody (.singleton (.statement (.expression (.mk h l.semicolon.property))))

/-- A loop that is spelled out is derived. -/
theorem LoopTokens.spell_composes (hinit : ForInitializer is init)
    (hcondition : Optional (Derives (.level .assignment)) cs condition)
    (hincrement : Optional (Derives (.level .assignment)) ns increment)
    (hbody : Composes .declaration bs body) :
    Composes (.statement false)
      (l.spell (init.map fun _ => is) (condition.map fun _ => cs) (increment.map fun _ => ns) bs)
      (spelledOut init condition increment body) := by
  have hloop : Composes (.statement false) _ _ :=
    .while_ l.keyword.property (l.condition_composes hcondition)
      (.braces (l.body_composes hbody hincrement))
  exact .braces (.block l.outerOpening.property
    (composes_initializer hinit (.singleton (.statement hloop))) l.outerClosing.property)

end Composes

/-! ## Blocks -/

section Pads

variable {σ : Distances} {is : List Token} {init : Option Stmt} {increment : Option Expr}
  {s body body' : Stmt}

theorem ForInitializer.pads_self (h : ForInitializer is (some s)) (hσ : σ 0 = 0) :
    Pads SameBare .statement σ s s := by
  cases h with
  | var h =>
    obtain ⟨-, -, hinit, -⟩ := h
    cases hinit with
    | none => exact .var hσ .none
    | some _ => exact .var hσ (.some rfl)
  | expression h =>
    cases h
    exact .expression rfl

theorem pads_increment (hbody : ∀ σ, Pads SameBare .statement σ body body') (σ : Distances) :
    Pads SameBare .statement σ (.braced (body :: (increment.map .expression).toList))
      (.braced (body' :: (increment.map .expression).toList)) := by
  cases increment with
  | none => exact hbody σ
  | some e => exact .block (.cons (hbody _) (.cons (.expression rfl) .nil))

/-- Without an increment there is a block more. -/
theorem pads_increment_block (hbody : ∀ σ, Pads SameBare .statement σ body body')
    (σ : Distances) :
    Pads SameBare .statement σ (.braced (body :: (increment.map .expression).toList))
      (.block (body' :: (increment.map .expression).toList)) := by
  cases increment with
  | none => exact .padded (hbody _)
  | some e => exact .block (.cons (hbody _) (.cons (.expression rfl) .nil))

theorem ForInitializer.pads (h : ForInitializer is init)
    (hloop : ∀ σ, Pads SameBare .statement σ body body') (σ : Distances) :
    Pads SameBare .statement σ (.braced (init.toList ++ [body]))
      (.braced (init.toList ++ [body'])) := by
  cases init with
  | none => exact hloop σ
  | some first => exact .block (.cons (h.pads_self rfl) (.cons (hloop _) .nil))

/-- Without an initializer there is a block more. -/
theorem ForInitializer.pads_block (h : ForInitializer is init)
    (hloop : ∀ σ, Pads SameBare .statement σ body body') (σ : Distances) :
    Pads SameBare .statement σ (.braced (init.toList ++ [body]))
      (.block (init.toList ++ [body'])) := by
  cases init with
  | none => exact .padded (hloop _)
  | some first => exact .block (.cons (h.pads_self rfl) (.cons (hloop _) .nil))

end Pads

/-- Both lists of tokens are derived, and the tree of the second one is that of the first one with more
blocks. A statement that did not end with an `if` without an `else` does not do so now. -/
def Construct.Lowered (ts ts' : List Token) : Construct → Prop
  | statement dangling => ∃ s s' dangling', (dangling' = true → dangling = true) ∧
      Composes (.statement dangling) ts s ∧ Composes (.statement dangling') ts' s' ∧
        ∀ σ, Pads SameBare .statement σ s s'
  | declaration => ∃ s s', Composes .declaration ts s ∧ Composes .declaration ts' s' ∧
      ∀ σ : Distances, σ 0 = 0 → Pads SameBare .statement σ s s'
  | declarations => ∃ ss ss', Composes .declarations ts ss ∧ Composes .declarations ts' ss' ∧
      ∀ σ : Distances, σ 0 = 0 → Pads SameBare .statements σ ss ss'
  | block => ∃ ss ss', Composes .block ts ss ∧ Composes .block ts' ss' ∧
      ∀ σ : Distances, σ 0 = 0 → Pads SameBare .statements σ ss ss'
  | routine => ∃ r r', Composes .routine ts r ∧ Composes .routine ts' r' ∧
      ∀ σ, Pads SameBare .routine σ r r'
  | routines => ∃ rs rs', Composes .routines ts rs ∧ Composes .routines ts' rs' ∧
      ∀ σ, Pads SameBare .routines σ rs rs'

theorem Lowers.lowered {k : Construct} {ts ts' : List Token} (h : Lowers k ts ts') :
    k.Lowered ts ts' := by
  have hoption : ∀ (σ : Distances) (e : Option Expr), Option.Rel (SameBare σ) e e := fun σ e => by
    cases e with
    | none => exact .none
    | some e => exact .some rfl
  induction h with
  | noDeclarations => exact ⟨[], [], .noDeclarations, .noDeclarations, fun _ _ => .nil⟩
  | declarations _ _ ihfirst ihrest =>
    obtain ⟨s, s', hs, hs', hpads⟩ := ihfirst
    obtain ⟨ss, ss', hss, hss', hrest⟩ := ihrest
    exact ⟨s :: ss, s' :: ss', .declarations hs hss, .declarations hs' hss',
      fun σ hσ => .cons (hpads σ hσ) (hrest σ hσ)⟩
  | @class_ keyword name opening closing hs ms ms' parent hkeyword hname hparent hopening _ hclosing
      ih =>
    obtain ⟨rs, rs', hrs, hrs', hpads⟩ := ih
    refine ⟨_, _, .class_ hkeyword hname hparent hopening hrs hclosing,
      .class_ hkeyword hname hparent hopening hrs' hclosing, fun σ hσ => ?_⟩
    cases parent with
    | none => exact .class_ hσ (hpads _)
    | some parent => exact .derived hσ rfl (hpads _)
  | function hkeyword _ ih =>
    obtain ⟨r, r', hr, hr', hpads⟩ := ih
    exact ⟨_, _, .function hkeyword hr, .function hkeyword hr', fun σ hσ => .function hσ (hpads σ)⟩
  | var h => exact ⟨_, _, .var h, .var h, fun σ hσ => (ForInitializer.var h).pads_self hσ⟩
  | statement _ ih =>
    obtain ⟨s, s', _, -, hs, hs', hpads⟩ := ih
    exact ⟨s, s', .statement hs, .statement hs', fun σ _ => hpads σ⟩
  | expression h =>
    refine ⟨_, _, false, nofun, .expression h, .expression h, fun σ => ?_⟩
    cases h
    exact .expression rfl
  | for_ hkeyword hclauses _ ih =>
    obtain ⟨body, body', dangling', hd, hbody, hbody', hpads⟩ := ih
    refine ⟨_, _, dangling', hd, .for_ hkeyword hclauses hbody, .for_ hkeyword hclauses hbody', ?_⟩
    obtain ⟨-, hinit, -, -, -, -⟩ := hclauses
    exact hinit.pads fun σ => .while_ rfl (pads_increment hpads σ)
  | spelled hkeyword hopening hinit hcondition hsemicolon hincrement hclosing _ l ih =>
    obtain ⟨body, body', dangling', -, hbody, hbody', hpads⟩ := ih
    refine ⟨_, _, false, nofun,
      .for_ hkeyword (.mk hopening hinit hcondition hsemicolon hincrement hclosing) hbody,
      l.spell_composes hinit hcondition hincrement (.statement hbody'), ?_⟩
    exact hinit.pads_block fun σ => .while_ rfl (pads_increment_block hpads σ)
  | if_ hkeyword hcondition _ ih =>
    obtain ⟨s, s', _, -, hs, hs', hpads⟩ := ih
    exact ⟨_, _, true, fun _ => rfl, .if_ hkeyword hcondition hs, .if_ hkeyword hcondition hs',
      fun σ => .if_ rfl (hpads σ)⟩
  | ifElse hkeyword hcondition _ hotherwise _ ihthen ihelse =>
    obtain ⟨s, s', d, hd, hs, hs', hpads⟩ := ihthen
    obtain ⟨e, e', d', hd', he, he', hpads'⟩ := ihelse
    obtain rfl : d = false := Bool.eq_false_iff.mpr fun h => nomatch hd h
    exact ⟨_, _, d', hd', .ifElse hkeyword hcondition hs hotherwise he,
      .ifElse hkeyword hcondition hs' hotherwise he', fun σ => .ifElse rfl (hpads σ) (hpads' σ)⟩
  | print hkeyword he hsemicolon =>
    exact ⟨_, _, false, nofun, .print hkeyword he hsemicolon, .print hkeyword he hsemicolon,
      fun σ => .print rfl⟩
  | return_ hkeyword hvalue hsemicolon =>
    exact ⟨_, _, false, nofun, .return_ hkeyword hvalue hsemicolon,
      .return_ hkeyword hvalue hsemicolon, fun σ => .return_ (hoption σ _)⟩
  | while_ hkeyword hcondition _ ih =>
    obtain ⟨body, body', d, hd, hbody, hbody', hpads⟩ := ih
    exact ⟨_, _, d, hd, .while_ hkeyword hcondition hbody, .while_ hkeyword hcondition hbody',
      fun σ => .while_ rfl (hpads σ)⟩
  | braces _ ih =>
    obtain ⟨ss, ss', hss, hss', hpads⟩ := ih
    exact ⟨_, _, false, nofun, .braces hss, .braces hss', fun σ => .block (hpads _ rfl)⟩
  | block hopening _ hclosing ih =>
    obtain ⟨ss, ss', hss, hss', hpads⟩ := ih
    exact ⟨ss, ss', .block hopening hss hclosing, .block hopening hss' hclosing, hpads⟩
  | noRoutines => exact ⟨[], [], .noRoutines, .noRoutines, fun _ => .noRoutines⟩
  | routines _ _ ihfirst ihrest =>
    obtain ⟨r, r', hr, hr', hpads⟩ := ihfirst
    obtain ⟨rs, rs', hrs, hrs', hrest⟩ := ihrest
    exact ⟨r :: rs, r' :: rs', .routines hr hrs, .routines hr' hrs',
      fun σ => .routines (hpads σ) (hrest σ)⟩
  | routine hname hopening hparams hclosing _ ih =>
    obtain ⟨body, body', hbody, hbody', hpads⟩ := ih
    exact ⟨_, _, .routine hname hopening hparams hclosing hbody,
      .routine hname hopening hparams hclosing hbody', fun σ => .routine (hpads _ rfl)⟩

/-! ## All loops -/

/-- There is no `for` among the tokens. -/
def NoFor (ts : List Token) : Prop := ∀ t ∈ ts, t.kind ≠ .keyword .for_

@[simp] theorem noFor_nil : NoFor [] := by simp [NoFor]

@[simp] theorem noFor_cons {t : Token} {ts : List Token} :
    NoFor (t :: ts) ↔ t.kind ≠ .keyword .for_ ∧ NoFor ts := by
  simp [NoFor]

@[simp] theorem noFor_append {ts us : List Token} :
    NoFor (ts ++ us) ↔ NoFor ts ∧ NoFor us := by
  simp [NoFor, or_imp, forall_and]

section NoFor

variable {ts : List Token} {α : Type} {a : Option α}

theorem Derives.noFor {k : Symbol} {e : k.Tree} (h : Derives k ts e) : NoFor ts := by
  induction h with
  | @logical t op => cases op <;> simp_all [LogicalOp.keyword]
  | @literal value t ht =>
    rcases value with _ | b | _ | _
    · simp [ht, Literal.kind]
    · cases b <;> simp [ht, Literal.kind]
    · simp [ht, Literal.kind]
    · simp [ht, Literal.kind]
  | _ => simp_all

theorem Optional.noFor {p : List Token → α → Prop} (h : Optional p ts a)
    (hp : ∀ {ts a}, p ts a → NoFor ts) : NoFor ts := by
  cases h with
  | none => exact noFor_nil
  | some h => exact hp h

theorem Condition.noFor {e : Expr} (h : Condition ts e) : NoFor ts := by
  obtain ⟨hopening, he, hclosing⟩ := h
  simp [hopening, he.noFor, hclosing]

theorem ExpressionStatement.noFor {s : Stmt} (h : ExpressionStatement ts s) : NoFor ts := by
  obtain ⟨he, hsemicolon⟩ := h
  simp [he.noFor, hsemicolon]

theorem VarDeclaration.noFor {s : Stmt} (h : VarDeclaration ts s) : NoFor ts := by
  obtain ⟨hkeyword, hname, hinit, hsemicolon⟩ := h
  have hinit := hinit.noFor fun ⟨hsign, he⟩ => by simp [hsign, he.noFor]
  simp [hkeyword, hname, hinit, hsemicolon]

theorem ForInitializer.noFor {s : Option Stmt} (h : ForInitializer ts s) : NoFor ts := by
  cases h with
  | var h => exact h.noFor
  | expression h => exact h.noFor
  | none h => simp [h]

theorem Parameters.noFor {names : List Name} (h : Parameters ts names) : NoFor ts := by
  induction h with
  | last hname => simp [hname]
  | more hname hcomma _ ih => simp [hname, hcomma, ih]

theorem ParameterList.noFor {names : List Name} (h : ParameterList ts names) : NoFor ts := by
  cases h with
  | none => exact noFor_nil
  | some h => exact h.noFor

variable {is cs ns bs : List Token} {init : Option Stmt} {condition increment : Option Expr}

theorem LoopTokens.noFor_spell (l : LoopTokens) (hi : NoFor is) (hc : NoFor cs)
    (hn : NoFor ns) (hb : NoFor bs) :
    NoFor (l.spell (init.map fun _ => is) (condition.map fun _ => cs)
      (increment.map fun _ => ns) bs) := by
  cases init <;> cases condition <;> cases increment <;>
    simp [spell, LoopTokens.condition, LoopTokens.body, l.outerOpening.property,
      l.keyword.property, l.conditionOpening.property, l.always.property,
      l.conditionClosing.property, l.innerOpening.property, l.semicolon.property,
      l.innerClosing.property, l.outerClosing.property, hi, hc, hn, hb]

/-- All `for` statements can be spelled out, wherever they stand. -/
theorem Composes.exists_lowers {k : Construct} {tree : k.Tree} (h : Composes k ts tree)
    (l : LoopTokens) : ∃ ts', Lowers k ts ts' ∧ NoFor ts' := by
  induction h with
  | noDeclarations => exact ⟨[], .noDeclarations, noFor_nil⟩
  | declarations _ _ ihfirst ihrest =>
    obtain ⟨ts', hl, hf⟩ := ihfirst
    obtain ⟨us', hl', hf'⟩ := ihrest
    exact ⟨_, .declarations hl hl', by simp [hf, hf']⟩
  | class_ hkeyword hname hparent hopening _ hclosing ih =>
    obtain ⟨ms', hl, hf⟩ := ih
    have hp := hparent.noFor fun ⟨hless, hname⟩ => by simp [hless, hname]
    exact ⟨_, .class_ hkeyword hname hparent hopening hl hclosing,
      by simp [hkeyword, hname, hp, hopening, hf, hclosing]⟩
  | function hkeyword _ ih =>
    obtain ⟨ts', hl, hf⟩ := ih
    exact ⟨_, .function hkeyword hl, by simp [hkeyword, hf]⟩
  | var h => exact ⟨_, .var h, h.noFor⟩
  | statement _ ih =>
    obtain ⟨ts', hl, hf⟩ := ih
    exact ⟨ts', .statement hl, hf⟩
  | expression h => exact ⟨_, .expression h, h.noFor⟩
  | for_ hkeyword hclauses _ ih =>
    obtain ⟨bs', hl, hf⟩ := ih
    obtain ⟨hopening, hinit, hcondition, hsemicolon, hincrement, hclosing⟩ := hclauses
    refine ⟨_, .spelled hkeyword hopening hinit hcondition hsemicolon hincrement hclosing hl l, ?_⟩
    exact l.noFor_spell hinit.noFor (hcondition.noFor Derives.noFor)
      (hincrement.noFor Derives.noFor) hf
  | if_ hkeyword hcondition _ ih =>
    obtain ⟨ts', hl, hf⟩ := ih
    exact ⟨_, .if_ hkeyword hcondition hl, by simp [hkeyword, hcondition.noFor, hf]⟩
  | ifElse hkeyword hcondition _ hotherwise _ ihthen ihelse =>
    obtain ⟨ts', hl, hf⟩ := ihthen
    obtain ⟨es', hl', hf'⟩ := ihelse
    exact ⟨_, .ifElse hkeyword hcondition hl hotherwise hl',
      by simp [hkeyword, hcondition.noFor, hf, hotherwise, hf']⟩
  | print hkeyword he hsemicolon =>
    exact ⟨_, .print hkeyword he hsemicolon, by simp [hkeyword, he.noFor, hsemicolon]⟩
  | return_ hkeyword hvalue hsemicolon =>
    have hv := hvalue.noFor Derives.noFor
    exact ⟨_, .return_ hkeyword hvalue hsemicolon, by simp [hkeyword, hv, hsemicolon]⟩
  | while_ hkeyword hcondition _ ih =>
    obtain ⟨bs', hl, hf⟩ := ih
    exact ⟨_, .while_ hkeyword hcondition hl, by simp [hkeyword, hcondition.noFor, hf]⟩
  | braces _ ih =>
    obtain ⟨ts', hl, hf⟩ := ih
    exact ⟨ts', .braces hl, hf⟩
  | block hopening _ hclosing ih =>
    obtain ⟨ts', hl, hf⟩ := ih
    exact ⟨_, .block hopening hl hclosing, by simp [hopening, hf, hclosing]⟩
  | noRoutines => exact ⟨[], .noRoutines, noFor_nil⟩
  | routines _ _ ihfirst ihrest =>
    obtain ⟨ts', hl, hf⟩ := ihfirst
    obtain ⟨us', hl', hf'⟩ := ihrest
    exact ⟨_, .routines hl hl', by simp [hf, hf']⟩
  | routine hname hopening hparams hclosing _ ih =>
    obtain ⟨bs', hl, hf⟩ := ih
    exact ⟨_, .routine hname hopening hparams hclosing hl,
      by simp [hname, hopening, hparams.noFor, hclosing, hf]⟩

end NoFor

/-! ## Names -/

theorem LoopTokens.mem_of_identifier {l : LoopTokens} {init condition increment : Option (List Token)}
    {body : List Token} {t : Token} (ht : t ∈ l.spell init condition increment body)
    (hk : t.kind = .identifier) :
    t ∈ init.getD [] ∨ t ∈ condition.getD [] ∨ t ∈ increment.getD [] ∨ t ∈ body := by
  have hne : ∀ {kind : Token.Kind} (u : {u : Token // u.kind = kind}), kind ≠ .identifier →
      t ≠ u.val := by
    rintro kind u hu rfl
    exact hu (u.property.symm.trans hk)
  simp only [spell, LoopTokens.condition, LoopTokens.body, List.mem_cons, List.mem_append,
    List.not_mem_nil, hne l.outerOpening nofun, hne l.keyword nofun,
    hne l.conditionOpening nofun, hne l.conditionClosing nofun, hne l.innerOpening nofun,
    hne l.innerClosing nofun, hne l.outerClosing nofun, false_or, or_false] at ht
  rcases ht with ht | ht | ht | ht
  · exact .inl ht
  · cases condition with
    | none => exact absurd (List.mem_singleton.mp ht) (hne l.always nofun)
    | some cs => exact .inr (.inl ht)
  · exact .inr (.inr (.inr ht))
  · cases increment with
    | none => cases ht
    | some ns =>
      rcases List.mem_append.mp ht with ht | ht
      · exact .inr (.inr (.inl ht))
      · exact absurd (List.mem_singleton.mp ht) (hne l.semicolon nofun)

/-- Spelling out a loop brings no names. -/
theorem Lowers.mem_of_identifier {k : Construct} {ts ts' : List Token} (h : Lowers k ts ts')
    {t : Token} (ht : t ∈ ts') (hk : t.kind = .identifier) : t ∈ ts := by
  have hclause : ∀ {α : Type} (clause : Option α) {us : List Token},
      t ∈ (clause.map fun _ => us).getD [] → t ∈ us := fun clause us hm => by
    cases clause with
    | none => cases hm
    | some _ => exact hm
  induction h with
  | spelled _ _ _ _ _ _ _ _ l ih =>
    simp only [List.mem_cons, List.mem_append]
    rcases LoopTokens.mem_of_identifier ht hk with hm | hm | hm | hm
    · simp [hclause _ hm]
    · simp [hclause _ hm]
    · simp [hclause _ hm]
    · simp [ih hm]
  | _ => grind

end LoxLang.Grammar
