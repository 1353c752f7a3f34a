import LoxLang.Proofs.Grammar.Phrase
import LoxLang.Proofs.Grammar.Progress
import LoxLang.Proofs.Grammar.Sites

/-!
# Expressions that are derived are read

The tokens of a derivation are read to its tree, as long as the token after them cannot continue it.
Every token pays for the readers that are nested before it is taken, so that the bound on their
nesting is never reached.

## Main results

* `Derives.reads`: the rules of the grammar hold for reading.
* `Derives.yields`: an expression is read from the tokens of its derivation.
-/

namespace LoxLang.Grammar

/-! ## The token after an expression -/

/-- The level of the expressions that a token after them continues. -/
def joins? : Token.Kind → Option Level
  | .mark .leftParen | .mark .dot => some .call
  | .mark .equal => some .assignment
  | k => (Tier.all.find? fun t => (t.operator? k).isSome).map .tier

/-- The next token, if there is one, does not continue an expression of the level. -/
def Level.Ends (l : Level) (rest : List Token) : Prop :=
  ∀ t ∈ rest.head?, ∀ l' ∈ joins? t.kind, ¬ l ≤ l'

theorem joins?_kind (op : Operator) : joins? op.kind = some (.tier op.tier) := by
  rcases op with op | op <;> cases op <;> rfl

namespace Level

variable {l l' : Level} {t : Token} {rest : List Token}

theorem ends_nil (l : Level) : l.Ends [] := nofun

theorem ends_cons : l.Ends (t :: rest) ↔ ∀ l' ∈ joins? t.kind, ¬ l ≤ l' := by
  simp [Ends]

theorem ends_of_joins?_eq_none (h : joins? t.kind = none) (l : Level) : l.Ends (t :: rest) := by
  rw [ends_cons, h]
  exact nofun

/-- The right operand of an operator ends before an operator of the same tier. -/
theorem ends_operator {op : Operator} (h : t.kind = op.kind) : op.tier.next.Ends (t :: rest) := by
  rw [ends_cons, h, joins?_kind]
  rintro _ ⟨⟩
  cases op.tier <;> decide

theorem ends_equal (h : t.kind = .mark .equal) : (Level.tier .or).Ends (t :: rest) := by
  rw [ends_cons, h]
  rintro _ ⟨⟩
  decide

theorem Ends.mono (h : l.Ends rest) (hle : l ≤ l') : l'.Ends rest :=
  fun t ht l'' hl'' hle' => h t ht l'' hl'' (le_trans hle hle')

theorem Ends.nextIsNot (h : l.Ends rest) {k : Token.Kind} {m : Level} (hk : joins? k = some m)
    (hle : l ≤ m) : NextIsNot k rest := by
  rintro t ht rfl
  exact h t ht m hk hle

theorem Ends.operator? {tier : Tier} (h : (Level.tier tier).Ends rest) :
    ∀ t ∈ rest.head?, tier.operator? t.kind = none := by
  intro t ht
  by_contra hsome
  obtain ⟨op, hop⟩ := Option.ne_none_iff_exists'.mp hsome
  obtain ⟨rfl, hkind⟩ := operator?_eq_some.mp hop
  exact h t ht (.tier op.tier) (hkind ▸ joins?_kind op) (le_refl _)

end Level

theorem Level.length_tiers_le (l : Level) : l.tiers.length ≤ 6 := by
  rcases l with _ | t | _ | _ | _
  case tier => cases t <;> decide
  all_goals decide

/-! ## The first token of an expression -/

/-- A primary expression can begin with the token. -/
def opens (k : Token.Kind) : Bool :=
  (literal? k).isSome || k = .identifier || k = .keyword .this || k = .keyword .super ||
    k = .mark .leftParen

/-- The first token of what is derived from a symbol. -/
def Symbol.Begins : Symbol → Token.Kind → Prop
  | .level .call, k | .level .primary, k => opens k
  | _, k => opens k ∨ (unaryOperator? k).isSome

theorem Symbol.Begins.weaken {s : Symbol} {k : Token.Kind} (h : s.Begins k) :
    opens k ∨ (unaryOperator? k).isSome := by
  rcases s with (_ | _ | _ | _ | _) | _ <;> simp_all [Begins]

theorem opens_kind (v : Literal) : opens v.kind := by
  simp [opens, literal?_eq_some.mpr rfl]

theorem Derives.begins {s : Symbol} {ts : List Token} {x : s.Tree} (h : Derives s ts x) :
    ∃ t us, ts = t :: us ∧ s.Begins t.kind := by
  induction h with
  | assign hname => exact ⟨_, _, rfl, .inl (by simp [opens, hname])⟩
  | set _ _ _ _ _ ihobject =>
    obtain ⟨t, us, rfl, ht⟩ := ihobject
    exact ⟨t, _, rfl, ht.weaken⟩
  | operation _ ih => exact ih
  | operand _ ih =>
    obtain ⟨t, us, rfl, ht⟩ := ih
    exact ⟨t, us, rfl, ht.weaken⟩
  | binary _ _ _ _ ihleft =>
    obtain ⟨t, us, rfl, ht⟩ := ihleft
    exact ⟨t, _, rfl, ht⟩
  | logical _ _ _ _ ihleft =>
    obtain ⟨t, us, rfl, ht⟩ := ihleft
    exact ⟨t, _, rfl, ht⟩
  | unary hsign => exact ⟨_, _, rfl, .inr (by simp [unaryOperator?_eq_some.mpr hsign])⟩
  | unsigned _ ih =>
    obtain ⟨t, us, rfl, ht⟩ := ih
    exact ⟨t, us, rfl, ht.weaken⟩
  | call _ _ _ ih =>
    obtain ⟨t, us, rfl, ht⟩ := ih
    exact ⟨t, _, rfl, ht⟩
  | callWith _ _ _ _ _ ih =>
    obtain ⟨t, us, rfl, ht⟩ := ih
    exact ⟨t, _, rfl, ht⟩
  | get _ _ _ ih =>
    obtain ⟨t, us, rfl, ht⟩ := ih
    exact ⟨t, _, rfl, ht⟩
  | head _ ih => exact ih
  | argument _ ih => exact ih
  | arguments _ _ _ ih =>
    obtain ⟨t, us, rfl, ht⟩ := ih
    exact ⟨t, _, rfl, ht⟩
  | literal ht => exact ⟨_, _, rfl, ht ▸ opens_kind _⟩
  | this ht => exact ⟨_, _, rfl, by simp [Symbol.Begins, opens, ht]⟩
  | «variable» ht => exact ⟨_, _, rfl, by simp [Symbol.Begins, opens, ht]⟩
  | super ht => exact ⟨_, _, rfl, by simp [Symbol.Begins, opens, ht]⟩
  | group ht => exact ⟨_, _, rfl, by simp [Symbol.Begins, opens, ht]⟩

/-- An expression does not begin with a token that cannot begin one. -/
theorem Derives.nextIsNot {s : Symbol} {ts : List Token} {x : s.Tree} (h : Derives s ts x)
    {k : Token.Kind} (hopens : opens k = false) (hunary : unaryOperator? k = none)
    (rest : List Token) : NextIsNot k (ts ++ rest) := by
  obtain ⟨t, us, rfl, ht⟩ := h.begins
  rw [List.cons_append, nextIsNot_cons]
  rintro rfl
  simpa [hopens, hunary] using ht.weaken

namespace Reader

/-! ## Expressions -/

theorem bare_apply (op : Operator) (line : Nat) (left right : Expr) :
    (op.apply line left right).bare = op.apply line left.bare right.bare := by
  cases op <;> rfl

theorem bare_call (callee : Expr) (line : Nat) (args : List Expr) :
    (Expr.call callee line args).bare = .call callee.bare line (args.map Expr.bare) := by
  simp only [Expr.bare, Expr.rename, Expr.renameEach_eq_map]
  rfl

theorem eq_variable_of_bare_eq {e : Expr} {site : Site} {name : Name}
    (h : e.bare = (Expr.variable site name).bare) : ∃ site', e = .variable site' name := by
  cases e with
  | «variable» site' name' =>
    obtain ⟨-, hname⟩ := Expr.variable.inj h
    rw [Name.rename_unsited, Name.rename_unsited] at hname
    exact ⟨site', by rw [hname]⟩
  | _ => cases h

theorem eq_get_of_bare_eq {e object : Expr} {name : Name}
    (h : e.bare = (Expr.get object name).bare) :
    ∃ object', e = .get object' name ∧ object'.bare = object.bare := by
  cases e with
  | get object' name' =>
    obtain ⟨hobject, hname⟩ := Expr.get.inj h
    rw [Name.rename_unsited, Name.rename_unsited] at hname
    exact ⟨object', by rw [hname], hobject⟩
  | _ => cases h

/-- Reading operators of a tier comes to the loop over the operators that follow `e`. -/
def AtOperators (t : Tier) (e : Expr) (rest : List Token) (r : Reader Expr) : Prop :=
  ∃ m e', r = operationRest m t t.next.tiers e' ∧ e'.bare = e.bare ∧ 16 * rest.length + 1 ≤ m

/-- Reading a call comes to the loop over the calls and properties that follow `e`. -/
def AtCalls (e : Expr) (rest : List Token) (r : Reader Expr) : Prop :=
  ∃ m e', r = callRest m e' ∧ e'.bare = e.bare ∧ 16 * rest.length + 1 ≤ m

/-- The tokens are read to the tree, up to sites, whatever follows that does not continue it. -/
def Reads : (s : Symbol) → List Token → s.Tree → Prop
  | .level .assignment, ts, e => ∀ n c rest, c.rest = ts ++ rest →
      16 * c.rest.length + 10 ≤ n → Level.assignment.Ends rest →
      Yields (assignment n) c rest (·.bare = e.bare)
  | .level (.tier t), ts, e => ∀ n c rest, c.rest = ts ++ rest →
      16 * c.rest.length + 4 + t.next.tiers.length ≤ n → t.next.Ends rest →
      Becomes (operation n (t :: t.next.tiers)) c rest (AtOperators t e rest)
  | .level .unary, ts, e => ∀ n c rest, c.rest = ts ++ rest →
      16 * c.rest.length + 2 ≤ n → Level.unary.Ends rest →
      Yields (unary n) c rest (·.bare = e.bare)
  | .level .call, ts, e => ∀ n c rest, c.rest = ts ++ rest → 16 * c.rest.length + 1 ≤ n →
      Becomes (primary n >>= callRest n) c rest (AtCalls e rest)
  | .level .primary, ts, e => ∀ n c rest, c.rest = ts ++ rest → 16 * c.rest.length + 1 ≤ n →
      Yields (primary n) c rest (·.bare = e.bare)
  | .arguments, ts, es => ∀ n count c rest, c.rest = ts ++ rest →
      16 * c.rest.length + 11 ≤ n → count + es.length ≤ 255 → Level.assignment.Ends rest →
      NextIsNot (.mark .comma) rest →
      Yields (arguments n count) c rest (·.map Expr.bare = es.map Expr.bare)

namespace Reads

variable {ts : List Token} {e : Expr}

/-- What is read up to the operators of a level is read as an operand. -/
theorem operation {l : Level} (hl : l.IsOperand) (h : Reads (.level l) ts e) {n : Nat} {c : Cursor}
    {rest : List Token} (hc : c.rest = ts ++ rest)
    (hn : 16 * c.rest.length + 3 + l.tiers.length ≤ n) (hends : l.Ends rest) :
    Yields (operation n l.tiers) c rest (·.bare = e.bare) := by
  cases l with
  | tier t =>
    rw [Level.tiers_tier, List.length_cons] at hn
    rw [Level.tiers_tier]
    refine (h n c rest hc (by omega) (hends.mono t.le_next)).trans ?_
    rintro _ c' ⟨m, e', rfl, he, hm⟩ hrest
    obtain ⟨m, rfl⟩ : ∃ k, m = k + 1 := ⟨m - 1, by omega⟩
    rw [operationRest]
    refine .skip (fun t ht => ?_) (.pure he hrest)
    rw [hends.operator? t (hrest ▸ ht)]
    rfl
  | unary =>
    obtain ⟨n, rfl⟩ : ∃ k, n = k + 1 := ⟨n - 1, by omega⟩
    have htiers : Level.unary.tiers = [] := rfl
    rw [htiers, Reader.operation]
    exact h n c rest hc (by omega) hends
  | assignment => exact absurd hl.1 (by decide)
  | call => exact absurd hl.2 (by decide)
  | primary => exact absurd hl.2 (by decide)

theorem operand {t : Tier} (h : Reads (.level t.next) ts e) : Reads (.level (.tier t)) ts e := by
  intro n c rest hc hn hends
  obtain ⟨n, rfl⟩ : ∃ k, n = k + 1 := ⟨n - 1, by omega⟩
  rw [Reader.operation]
  refine .bind (operation t.isOperand_next h hc (by omega) hends) fun e' c' he hrest => ?_
  refine .refl ⟨n, e', rfl, he, ?_⟩ hrest
  have hlength := congrArg List.length hc
  rw [List.length_append] at hlength
  omega

theorem operator (op : Operator) {sign : Token} {ls rs : List Token} {left right : Expr}
    (hleft : Reads (.level (.tier op.tier)) ls left) (hsign : sign.kind = op.kind)
    (hright : Reads (.level op.tier.next) rs right) :
    Reads (.level (.tier op.tier)) (ls ++ sign :: rs) (op.apply sign.line left right) := by
  intro n c rest hc hn hends
  refine (hleft n c (sign :: (rs ++ rest)) (by simp [hc]) hn (Level.ends_operator hsign)).trans ?_
  rintro _ c' ⟨m, left', rfl, hl, hm⟩ hrest
  obtain ⟨m, rfl⟩ : ∃ k, m = k + 1 := ⟨m - 1, by omega⟩
  simp only [List.length_cons, List.length_append] at hm
  have hfound : (op.tier.operator? sign.kind).map (·, sign.line) = some (op, sign.line) := by
    rw [operator?_eq_some.mpr ⟨rfl, hsign⟩]
    rfl
  rw [operationRest]
  refine .takeIf? hrest hfound ?_
  have htiers := op.tier.next.length_tiers_le
  refine .bind (operation op.tier.isOperand_next hright (n := m) rfl ?_ hends)
    fun right' c₂ hr hrest₂ => ?_
  · simp only [List.length_append]
    omega
  · refine .refl ⟨m, _, rfl, ?_, by omega⟩ hrest₂
    rw [bare_apply, bare_apply, hl, hr]

theorem unary {op : UnaryOp} {sign : Token} (hsign : sign.kind = .mark op.mark)
    (h : Reads (.level .unary) ts e) :
    Reads (.level .unary) (sign :: ts) (.unary op sign.line e) := by
  intro n c rest hc hn hends
  obtain ⟨n, rfl⟩ : ∃ k, n = k + 1 := ⟨n - 1, by omega⟩
  have hc : c.rest = sign :: (ts ++ rest) := hc
  have hlength := congrArg List.length hc
  rw [List.length_cons] at hlength
  have hfound : (unaryOperator? sign.kind).map (·, sign.line) = some (op, sign.line) := by
    rw [unaryOperator?_eq_some.mpr hsign]
    rfl
  rw [Reader.unary]
  refine .takeIf? hc hfound (.bind (h n _ rest rfl ?_ hends) fun e' c' he hrest => .pure ?_ hrest)
  · simp only
    omega
  · exact congrArg (Expr.unary op sign.line) he

/-- A call is an operand when no operator stands before it. -/
theorem unsigned (hd : Derives (.level .call) ts e) (h : Reads (.level .call) ts e) :
    Reads (.level .unary) ts e := by
  intro n c rest hc hn hends
  obtain ⟨n, rfl⟩ : ∃ k, n = k + 1 := ⟨n - 1, by omega⟩
  obtain ⟨t, us, rfl, ht⟩ := hd.begins
  have hnone : unaryOperator? t.kind = none := by
    by_contra hsome
    obtain ⟨op, hop⟩ := Option.ne_none_iff_exists'.mp hsome
    have ht : opens t.kind := ht
    rw [unaryOperator?_eq_some.mp hop] at ht
    cases op <;> simp [opens, literal?, UnaryOp.mark] at ht
  rw [Reader.unary]
  refine .skip (by simp [hc, hnone]) ((h n c rest hc (by omega)).trans ?_)
  rintro _ c' ⟨m, e', rfl, he, hm⟩ hrest
  obtain ⟨m, rfl⟩ : ∃ k, m = k + 1 := ⟨m - 1, by omega⟩
  rw [callRest]
  refine .pass (k := .mark .leftParen) ?_ (.pass (k := .mark .dot) ?_ (.pure he hrest))
  · exact hrest ▸ hends.nextIsNot (m := .call) rfl (by decide)
  · exact hrest ▸ hends.nextIsNot (m := .call) rfl (by decide)

theorem head (h : Reads (.level .primary) ts e) : Reads (.level .call) ts e := by
  intro n c rest hc hn
  refine .bind (h n c rest hc hn) fun e' c' he hrest => .refl ⟨n, e', rfl, he, ?_⟩ hrest
  have hlength := congrArg List.length hc
  rw [List.length_append] at hlength
  omega

/-- What is read as a call is read as an operand of the loosest operators. -/
theorem of_call (hd : Derives (.level .call) ts e) (h : Reads (.level .call) ts e) :
    Reads (.level (.tier .or)) ts e :=
  operand (t := .or) <| operand (t := .and) <| operand (t := .equality) <|
    operand (t := .comparison) <| operand (t := .term) <| operand (t := .factor) <| unsigned hd h

theorem call {opening closing : Token} (h : Reads (.level .call) ts e)
    (hopening : opening.kind = .mark .leftParen) (hclosing : closing.kind = .mark .rightParen) :
    Reads (.level .call) (ts ++ [opening, closing]) (.call e closing.line []) := by
  intro n c rest hc hn
  refine (h n c (opening :: closing :: rest) (by simp [hc]) hn).trans ?_
  rintro _ c' ⟨m, e', rfl, he, hm⟩ hrest
  obtain ⟨m, rfl⟩ : ∃ k, m = k + 1 := ⟨m - 1, by omega⟩
  simp only [List.length_cons] at hm
  rw [callRest]
  refine .take hrest hopening (.isNext rfl hclosing ?_)
  simp only [if_true, pure_bind]
  refine .expectMark rfl hclosing (.refl ⟨m, _, rfl, ?_, by omega⟩ rfl)
  exact congrArg (Expr.call · closing.line []) he

theorem callWith {as : List Token} {args : List Expr} {opening closing : Token}
    (h : Reads (.level .call) ts e) (hopening : opening.kind = .mark .leftParen)
    (hd : Derives .arguments as args) (hargs : Reads .arguments as args)
    (harity : args.length ≤ 255) (hclosing : closing.kind = .mark .rightParen) :
    Reads (.level .call) (ts ++ opening :: (as ++ [closing])) (.call e closing.line args) := by
  intro n c rest hc hn
  refine (h n c (opening :: (as ++ closing :: rest)) (by simp [hc]) hn).trans ?_
  rintro _ c' ⟨m, e', rfl, he, hm⟩ hrest
  obtain ⟨m, rfl⟩ : ∃ k, m = k + 1 := ⟨m - 1, by omega⟩
  simp only [List.length_cons, List.length_append] at hm
  rw [callRest]
  refine .take hrest hopening (.isNotNext (hd.nextIsNot rfl rfl _) ?_)
  simp only [Bool.false_eq_true, if_false]
  refine .bind (hargs m 0 _ (closing :: rest) rfl ?_ (by omega)
    (Level.ends_of_joins?_eq_none (by rw [hclosing]; rfl) _) (by simp [hclosing])) ?_
  · simp only [List.length_append, List.length_cons]
    omega
  · intro args' c₂ ha hrest₂
    refine .expectMark hrest₂ hclosing (.refl ⟨m, _, rfl, ?_, by omega⟩ rfl)
    rw [bare_call, bare_call, he, ha]

theorem get {dot name : Token} (h : Reads (.level .call) ts e) (hdot : dot.kind = .mark .dot)
    (hname : name.kind = .identifier) :
    Reads (.level .call) (ts ++ [dot, name]) (.get e name.toName) := by
  intro n c rest hc hn
  refine (h n c (dot :: name :: rest) (by simp [hc]) hn).trans ?_
  rintro _ c' ⟨m, e', rfl, he, hm⟩ hrest
  obtain ⟨m, rfl⟩ : ∃ k, m = k + 1 := ⟨m - 1, by omega⟩
  simp only [List.length_cons] at hm
  rw [callRest]
  refine .pass (k := .mark .leftParen) (by simp [hrest, hdot]) (.take hrest hdot ?_)
  refine .expectName rfl hname (.refl ⟨m, _, rfl, ?_, by omega⟩ rfl)
  exact congrArg (Expr.get · name.toName) he

/-! ### Assignments -/

theorem operation_or (h : Reads (.level (.tier .or)) ts e) : Reads (.level .assignment) ts e := by
  intro n c rest hc hn hends
  obtain ⟨n, rfl⟩ : ∃ k, n = k + 1 := ⟨n - 1, by omega⟩
  rw [assignment]
  have hlength := (Level.tier .or).length_tiers_le
  refine .bind (operation (l := .tier .or) (Tier.isOperand .or) h hc (by omega)
    (hends.mono (Nat.zero_le _))) fun e' c' he hrest => ?_
  exact .pass (hrest ▸ hends.nextIsNot (m := .assignment) rfl (Nat.le_refl _)) (.pure he hrest)

/-- A target, a sign and a value are read as the assignment that the target stands for. -/
theorem assignTo {us vs : List Token} {sign : Token} {target value e : Expr}
    (htarget : Reads (.level (.tier .or)) us target) (hsign : sign.kind = .mark .equal)
    (hvalue : Reads (.level .assignment) vs value)
    (h : ∀ target' value' c, target'.bare = target.bare → value'.bare = value.bare →
      Yields (assignTo sign value' target') c c.rest (·.bare = e.bare)) :
    Reads (.level .assignment) (us ++ sign :: vs) e := by
  intro n c rest hc hn hends
  obtain ⟨n, rfl⟩ : ∃ k, n = k + 1 := ⟨n - 1, by omega⟩
  have hc : c.rest = us ++ sign :: (vs ++ rest) := by simp [hc]
  have hlength := congrArg List.length hc
  simp only [List.length_append, List.length_cons] at hlength
  have htiers := (Level.tier .or).length_tiers_le
  rw [assignment]
  refine .bind (operation (l := .tier .or) (Tier.isOperand .or) htarget hc (by omega)
    (Level.ends_equal hsign)) fun target' c₁ ht hrest₁ => ?_
  refine .take hrest₁ hsign (.bind (hvalue n _ rest rfl ?_ hends) fun value' c₂ hv hrest₂ => ?_)
  · simp only [List.length_append]
    omega
  · exact hrest₂ ▸ h target' value' c₂ ht hv

theorem assign {site : Site} {name sign : Token} {vs : List Token} {value : Expr}
    (htarget : Reads (.level (.tier .or)) [name] (.variable site name.toName))
    (hsign : sign.kind = .mark .equal) (hvalue : Reads (.level .assignment) vs value) :
    Reads (.level .assignment) (name :: sign :: vs) (.assign site name.toName value) := by
  refine assignTo htarget hsign hvalue fun target' value' c ht hv => ?_
  obtain ⟨site', rfl⟩ := eq_variable_of_bare_eq ht
  exact .freshSite (.pure (congrArg (Expr.assign 0 name.toName) hv) rfl)

theorem set {dot name sign : Token} {os vs : List Token} {object value : Expr}
    (hd : Derives (.level .call) os object) (hobject : Reads (.level .call) os object)
    (hdot : dot.kind = .mark .dot) (hname : name.kind = .identifier)
    (hsign : sign.kind = .mark .equal) (hvalue : Reads (.level .assignment) vs value) :
    Reads (.level .assignment) (os ++ dot :: name :: sign :: vs)
      (.set object name.toName value) := by
  have htarget := of_call (.get hd hdot hname) (get hobject hdot hname)
  have hassign := assignTo htarget hsign hvalue (e := .set object name.toName value)
    fun target' value' c ht hv => by
      obtain ⟨object', rfl, ho⟩ := eq_get_of_bare_eq ht
      exact .pure (congrArg₂ (Expr.set · name.toName ·) ho hv) rfl
  simpa using hassign

/-! ### Arguments -/

theorem arguments_eq_commaList {n count : Nat} (h : count < 255) : Reader.arguments (n + 1) count =
    commaList (Reader.assignment n) (Reader.arguments n (count + 1)) := by
  rw [arguments_succ, if_neg (show ¬ maxArity ≤ count from Nat.not_le.mpr h)]

theorem argument (h : Reads (.level .assignment) ts e) : Reads .arguments ts [e] := by
  intro n count c rest hc hn hcount hends hcomma
  obtain ⟨n, rfl⟩ : ∃ k, n = k + 1 := ⟨n - 1, by omega⟩
  rw [List.length_singleton] at hcount
  rw [arguments_eq_commaList (by omega)]
  refine .bind (h n c rest hc (by omega) hends) fun e' c' he hrest => ?_
  exact .pass (hrest ▸ hcomma) (.pure (by simp [he]) hrest)

theorem arguments {us : List Token} {es : List Expr} {comma : Token}
    (h : Reads (.level .assignment) ts e) (hcomma : comma.kind = .mark .comma)
    (hrest : Reads .arguments us es) : Reads .arguments (ts ++ comma :: us) (e :: es) := by
  intro n count c rest hc hn hcount hends hnext
  obtain ⟨n, rfl⟩ : ∃ k, n = k + 1 := ⟨n - 1, by omega⟩
  have hlength := congrArg List.length hc
  simp only [List.append_assoc, List.cons_append, List.length_append, List.length_cons] at hlength
  rw [List.length_cons] at hcount
  rw [arguments_eq_commaList (by omega)]
  refine .bind (h n c (comma :: (us ++ rest)) (by simp [hc]) (by omega)
    (Level.ends_of_joins?_eq_none (by rw [hcomma]; rfl) _)) fun e' c₁ he hrest₁ => ?_
  refine .take hrest₁ hcomma ?_
  refine .bind (hrest n (count + 1) _ rest rfl ?_ (by omega) hends hnext)
    fun es' c₂ hes hrest₂ => ?_
  · simp only [List.length_append]
    omega
  · exact .pure (by simp [he, hes]) hrest₂

/-! ### Primary expressions -/

theorem literal {value : Literal} {t : Token} (ht : t.kind = value.kind) :
    Reads (.level .primary) [t] (.literal value) := by
  intro n c rest hc hn
  obtain ⟨n, rfl⟩ : ∃ k, n = k + 1 := ⟨n - 1, by omega⟩
  rw [primary]
  exact .takeIf? hc (literal?_eq_some.mpr ht) (.pure rfl rfl)

theorem super {site : Site} {t dot method : Token} (ht : t.kind = .keyword .super)
    (hdot : dot.kind = .mark .dot) (hmethod : method.kind = .identifier) :
    Reads (.level .primary) [t, dot, method] (.super site t.line method.toName) := by
  intro n c rest hc hn
  obtain ⟨n, rfl⟩ : ∃ k, n = k + 1 := ⟨n - 1, by omega⟩
  rw [primary]
  refine .skip (by simp [hc, ht, literal?]) (.take hc ht ?_)
  exact .expectMark rfl hdot (.expectName rfl hmethod (.freshSite (.pure rfl rfl)))

theorem this {site : Site} {t : Token} (ht : t.kind = .keyword .this) :
    Reads (.level .primary) [t] (.this site t.line) := by
  intro n c rest hc hn
  obtain ⟨n, rfl⟩ : ∃ k, n = k + 1 := ⟨n - 1, by omega⟩
  rw [primary]
  refine .skip (by simp [hc, ht, literal?]) (.pass (by simp [hc, ht]) (.take hc ht ?_))
  exact .freshSite (.pure rfl rfl)

theorem «variable» {site : Site} {t : Token} (ht : t.kind = .identifier) :
    Reads (.level .primary) [t] (.variable site t.toName) := by
  intro n c rest hc hn
  obtain ⟨n, rfl⟩ : ∃ k, n = k + 1 := ⟨n - 1, by omega⟩
  rw [primary]
  refine .skip (by simp [hc, ht, literal?]) (.pass (by simp [hc, ht]) (.pass (by simp [hc, ht]) ?_))
  exact .take hc ht (.freshSite (.pure rfl rfl))

theorem group {opening closing : Token} (hopening : opening.kind = .mark .leftParen)
    (h : Reads (.level .assignment) ts e) (hclosing : closing.kind = .mark .rightParen) :
    Reads (.level .primary) (opening :: (ts ++ [closing])) (.group e) := by
  intro n c rest hc hn
  obtain ⟨n, rfl⟩ : ∃ k, n = k + 1 := ⟨n - 1, by omega⟩
  have hc : c.rest = opening :: (ts ++ closing :: rest) := by simp [hc]
  have hlength := congrArg List.length hc
  rw [List.length_cons] at hlength
  rw [primary]
  refine .skip (by simp [hc, hopening, literal?]) (.pass (by simp [hc, hopening])
    (.pass (by simp [hc, hopening]) (.pass (by simp [hc, hopening]) (.take hc hopening ?_))))
  refine .bind (h n _ (closing :: rest) rfl ?_
    (Level.ends_of_joins?_eq_none (by rw [hclosing]; rfl) _)) fun e' c' he hrest => ?_
  · simp only
    omega
  · exact .expectMark hrest hclosing (.pure (congrArg Expr.group he) rfl)

end Reads

end Reader

open Reader in
/-- The tokens of a derivation are read to its tree. -/
theorem Derives.reads {s : Symbol} {ts : List Token} {x : s.Tree} (h : Derives s ts x) :
    Reads s ts x := by
  induction h with
  | assign hname hsign _ ihvalue =>
    exact .assign (.of_call (.head (.variable hname)) (.head (.variable hname))) hsign ihvalue
  | set hobject hdot hname hsign _ ihobject ihvalue =>
    exact .set hobject ihobject hdot hname hsign ihvalue
  | operation _ ih => exact ih.operation_or
  | operand _ ih => exact ih.operand
  | @binary _ op _ _ _ _ _ htier _ hsign _ ihleft ihright =>
    subst htier
    exact Reads.operator (.binary op) ihleft hsign ihright
  | @logical _ op _ _ _ _ _ htier _ hsign _ ihleft ihright =>
    subst htier
    exact Reads.operator (.logical op) ihleft hsign ihright
  | unary hsign _ ih => exact .unary hsign ih
  | unsigned h ih => exact .unsigned h ih
  | call _ hopening hclosing ih => exact ih.call hopening hclosing
  | callWith _ hopening hargs harity hclosing ihcallee ihargs =>
    exact ihcallee.callWith hopening hargs ihargs harity hclosing
  | get _ hdot hname ih => exact ih.get hdot hname
  | head _ ih => exact ih.head
  | argument _ ih => exact ih.argument
  | arguments _ hcomma _ ihfirst ihrest => exact ihfirst.arguments hcomma ihrest
  | literal ht => exact .literal ht
  | this ht => exact .this ht
  | «variable» ht => exact .variable ht
  | super ht hdot hmethod => exact .super ht hdot hmethod
  | group hopening _ hclosing ih => exact .group hopening ih hclosing

/-- An expression is read from the tokens of its derivation. -/
theorem Derives.yields {c : Cursor} {ts rest : List Token} {e : Expr}
    (h : Derives (.level .assignment) ts e) (hc : c.rest = ts ++ rest)
    (hends : Level.assignment.Ends rest) : Reader.expression.Yields c rest (·.bare = e.bare) := by
  have hdepth : 16 * c.rest.length + 10 ≤ c.depth := by
    unfold Cursor.depth
    omega
  exact (h.reads c.depth c rest hc hdepth hends).congr (Reader.expression_apply c) rfl

end LoxLang.Grammar
