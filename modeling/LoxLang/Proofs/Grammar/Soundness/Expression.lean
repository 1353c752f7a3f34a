import LoxLang.Proofs.Grammar.Phrase
import LoxLang.Proofs.Grammar.Sites

/-!
# Expressions that are read are derived

The tokens that a reader takes without reporting anything are derived by the grammar, and its result
is the tree of the derivation.

## Main results

* `Reader.meets_expression_took`: what is read as an expression is derived as one.
-/

namespace LoxLang.Grammar

theorem Operator.derives_apply {op : Operator} {sign : Token} {ls rs : List Token}
    {left right : Expr} (hleft : Derives (.level (.tier op.tier)) ls left)
    (hsign : sign.kind = op.kind) (hright : Derives (.level op.tier.next) rs right) :
    Derives (.level (.tier op.tier)) (ls ++ sign :: rs) (op.apply sign.line left right) := by
  cases op with
  | logical op => exact .logical rfl hleft hsign hright
  | binary op => exact .binary rfl hleft hsign hright

namespace Reader

/-! ## Expressions -/

/-- What was taken between two cursors is related to the result, unless something was reported. -/
def Took {α : Type} (p : List Token → α → Prop) (c : Cursor) (a : α) (c' : Cursor) : Prop :=
  c'.reported = [] → ∃ ts, c.rest = ts ++ c'.rest ∧ p ts a

/-- What was taken between two cursors extends an expression of a level to another one. -/
def Extends (l : Level) (c : Cursor) (left e : Expr) (c' : Cursor) : Prop :=
  c'.reported = [] → ∃ ts, c.rest = ts ++ c'.rest ∧
    ∀ ls, Derives (.level l) ls left → Derives (.level l) (ls ++ ts) e

theorem Took.extend {l : Level} {c c₁ c' : Cursor} {left e : Expr}
    (h : Took (Derives (.level l)) c left c₁) (h' : Extends l c₁ left e c') (hl : c₁.Leads c') :
    Took (Derives (.level l)) c e c' := by
  intro hquiet
  obtain ⟨ls, hls, hleft⟩ := h (hl.quiet hquiet)
  obtain ⟨ts, hts, hextend⟩ := h' hquiet
  exact ⟨ls ++ ts, by simp [hls, hts], hextend ls hleft⟩

theorem Extends.refl (l : Level) (c : Cursor) (e : Expr) : Extends l c e e c :=
  fun _ => ⟨[], by simp, fun ls h => by simpa using h⟩

theorem Extends.trans {l : Level} {c c₁ c' : Cursor} {e₁ e₂ e₃ : Expr} (h : Extends l c e₁ e₂ c₁)
    (h' : Extends l c₁ e₂ e₃ c') (hl : c₁.Leads c') : Extends l c e₁ e₃ c' := by
  intro hquiet
  obtain ⟨ts, hts, h⟩ := h (hl.quiet hquiet)
  obtain ⟨us, hus, h'⟩ := h' hquiet
  refine ⟨ts ++ us, by simp [hts, hus], fun ls hls => ?_⟩
  rw [← List.append_assoc]
  exact h' _ (h ls hls)

/-- A name that is derived as an operand is one token. -/
theorem exists_of_derives_variable {l : Level} {ts : List Token} {site : Site} {name : Name}
    (h : Derives (.level l) ts (.variable site name)) :
    ∃ t, ts = [t] ∧ t.kind = .identifier ∧ t.toName = name := by
  obtain ⟨-, -, hs⟩ := h.fits
  simp only [Expr.yield, Spells.cons_right, Spells.nil_right] at hs
  obtain ⟨t, us, ⟨ht, hname⟩, rfl, rfl⟩ := hs
  exact ⟨t, rfl, ht, hname⟩

/-- The object of a property is a call, and a point and a name come after it. -/
theorem exists_of_derives_get {l : Level} {ts : List Token} {object : Expr} {name : Name}
    (h : Derives (.level l) ts (.get object name)) :
    ∃ os dot t, ts = os ++ [dot, t] ∧ Derives (.level .call) os object ∧
      dot.kind = .mark .dot ∧ t.kind = .identifier ∧ t.toName = name := by
  obtain ⟨⟨hobject, hlevel⟩, -, hs⟩ := h.fits
  simp only [Expr.yield, Spells.append_right, Spells.cons_right, Spells.nil_right] at hs
  obtain ⟨os, us, hos, ⟨dot, vs, hdot, ⟨t, ws, ⟨ht, hname⟩, rfl, rfl⟩, rfl⟩, rfl⟩ := hs
  exact ⟨os, dot, t, rfl, .of_le hlevel (derives_of_canonical object hobject hos), hdot, ht, hname⟩

/-- A target, a sign and a value are derived as an assignment, unless the target is reported. -/
theorem took_assignTo {c c₁ c₂ : Cursor} {sign : Token} {l : List Token} {target value : Expr}
    (htarget : Took (Derives (.level (.tier .or))) c target c₁) (hrest : c₁.rest = sign :: l)
    (hsign : sign.kind = .mark .equal)
    (hvalue : Took (Derives (.level .assignment)) { c₁ with rest := l } value c₂)
    (hl : Cursor.Leads { c₁ with rest := l } c₂) :
    Meets (assignTo sign value target) c₂ (Took (Derives (.level .assignment)) c) := by
  -- The tokens before and after the sign.
  have hparts : c₂.reported = [] → ∃ ts vs, c.rest = ts ++ sign :: vs ++ c₂.rest ∧
      Derives (.level (.tier .or)) ts target ∧ Derives (.level .assignment) vs value := by
    intro hquiet
    obtain ⟨ts, hts, ht⟩ := htarget (hl.quiet hquiet)
    obtain ⟨vs, hvs, hv⟩ := hvalue hquiet
    have hvs : l = vs ++ c₂.rest := hvs
    exact ⟨ts, vs, by simp [hts, hrest, hvs], ht, hv⟩
  unfold assignTo
  split
  · refine .bind (.freshSite (.pure fun hquiet => ?_))
    obtain ⟨ts, vs, hc, ht, hv⟩ := hparts hquiet
    obtain ⟨t, rfl, hkind, rfl⟩ := exists_of_derives_variable ht
    exact ⟨_, hc, .assign hkind hsign hv⟩
  · refine .pure fun hquiet => ?_
    obtain ⟨ts, vs, hc, ht, hv⟩ := hparts hquiet
    obtain ⟨os, dot, t, rfl, ho, hdot, hkind, rfl⟩ := exists_of_derives_get ht
    refine ⟨os ++ dot :: t :: sign :: vs, by simpa using hc, ?_⟩
    exact .set ho hdot hkind hsign hv
  · exact .bind (.report (.pure fun hquiet => absurd hquiet (by simp)))

/-- What the readers of expressions promise when they nest at most `n` deep. -/
structure DerivingReaders (n : Nat) : Prop where
  assignment : ∀ c : Cursor, Meets (assignment n) c (Took (Derives (.level .assignment)) c)
  operation : ∀ (l : Level) (c : Cursor), l.IsOperand →
    Meets (operation n l.tiers) c (Took (Derives (.level l)) c)
  operationRest : ∀ (t : Tier) (left : Expr) (c : Cursor),
    Meets (operationRest n t t.next.tiers left) c (Extends (.tier t) c left)
  unary : ∀ c : Cursor, Meets (unary n) c (Took (Derives (.level .unary)) c)
  callRest : ∀ (e : Expr) (c : Cursor), Meets (callRest n e) c (Extends .call c e)
  arguments : ∀ (count : Nat) (c : Cursor), Meets (arguments n count) c fun es c' =>
    Took (Derives .arguments) c es c' ∧ (c'.reported = [] → count + es.length ≤ 255)
  primary : ∀ c : Cursor, Meets (primary n) c (Took (Derives (.level .primary)) c)

namespace DerivingReaders

variable {n : Nat} {c : Cursor}

theorem meets_assignment (ih : DerivingReaders n) :
    Meets (Reader.assignment (n + 1)) c (Took (Derives (.level .assignment)) c) := by
  rw [Reader.assignment]
  have hoperation := ih.operation (.tier .or) c (Tier.isOperand .or)
  refine .bind (hoperation.mono fun target c₁ hl₁ htarget => ?_)
  refine .bind (.take? (.pure fun hquiet => ?_) fun sign l hrest hsign => ?_)
  · obtain ⟨ts, hts, hd⟩ := htarget hquiet
    exact ⟨ts, hts, .operation hd⟩
  · refine .bind ((ih.assignment _).mono fun value c₂ hl₂ hvalue => ?_)
    exact took_assignTo htarget hrest hsign hvalue hl₂

theorem meets_operation (ih : DerivingReaders n) {l : Level} (hl : l.IsOperand) :
    Meets (Reader.operation (n + 1) l.tiers) c (Took (Derives (.level l)) c) := by
  cases l with
  | tier t =>
    rw [Level.tiers_tier, Reader.operation]
    refine .bind ((ih.operation t.next c t.isOperand_next).mono fun left c₁ hl₁ hleft => ?_)
    refine (ih.operationRest t left c₁).mono fun e c' hl₂ he => Took.extend ?_ he hl₂
    intro hquiet
    obtain ⟨ts, hts, hd⟩ := hleft hquiet
    exact ⟨ts, hts, .operand hd⟩
  | unary =>
    have htiers : Level.unary.tiers = [] := rfl
    rw [htiers, Reader.operation]
    exact ih.unary c
  | assignment => exact absurd hl.1 (by decide)
  | call => exact absurd hl.2 (by decide)
  | primary => exact absurd hl.2 (by decide)

theorem meets_operationRest (ih : DerivingReaders n) (t : Tier) (left : Expr) :
    Meets (Reader.operationRest (n + 1) t t.next.tiers left) c (Extends (.tier t) c left) := by
  rw [Reader.operationRest]
  refine .bind (.takeIf? (.pure (Extends.refl _ c left)) fun sign l found hrest hfound => ?_)
  obtain ⟨op, hop, rfl⟩ := Option.map_eq_some_iff.mp hfound
  obtain ⟨rfl, hsign⟩ := operator?_eq_some.mp hop
  refine .bind ((ih.operation _ _ (Tier.isOperand_next _)).mono fun right c₁ hl₁ hright => ?_)
  refine (ih.operationRest _ _ c₁).mono fun e c' hl₂ he => Extends.trans ?_ he hl₂
  intro hquiet
  obtain ⟨rs, hrs, hd⟩ := hright hquiet
  exact ⟨sign :: rs, by simpa [hrest] using hrs, fun ls hls => op.derives_apply hls hsign hd⟩

theorem meets_unary (ih : DerivingReaders n) :
    Meets (Reader.unary (n + 1)) c (Took (Derives (.level .unary)) c) := by
  rw [Reader.unary]
  refine .bind (.takeIf? ?_ fun sign l found hrest hfound => ?_)
  · refine .bind ((ih.primary c).mono fun e c₁ hl₁ he => ?_)
    refine (ih.callRest e c₁).mono fun e' c' hl₂ he' hquiet => ?_
    obtain ⟨ts, hts, hd⟩ := he (hl₂.quiet hquiet)
    obtain ⟨us, hus, hextend⟩ := he' hquiet
    exact ⟨ts ++ us, by simp [hts, hus], .unsigned (hextend ts (.head hd))⟩
  · obtain ⟨op, hop, rfl⟩ := Option.map_eq_some_iff.mp hfound
    refine .bind ((ih.unary _).mono fun operand c₁ hl₁ hoperand => .pure fun hquiet => ?_)
    obtain ⟨ts, hts, hd⟩ := hoperand hquiet
    exact ⟨sign :: ts, by simpa [hrest] using hts, .unary (unaryOperator?_eq_some.mp hop) hd⟩

theorem meets_callRest (ih : DerivingReaders n) (e : Expr) :
    Meets (Reader.callRest (n + 1) e) c (Extends .call c e) := by
  rw [Reader.callRest]
  refine .bind (.take? ?_ fun opening l hrest hopening => ?_)
  · refine .bind (.take? (.pure (Extends.refl _ c e)) fun dot l hrest hdot => ?_)
    refine .bind (.expectName fun name l' hrest' hname => ?_)
    refine (ih.callRest _ _).mono fun e' c' hl he => Extends.trans (fun _ => ?_) he hl
    refine ⟨[dot, name], ?_, fun ls hls => .get hls hdot hname⟩
    simp only [hrest, List.cons_append, List.nil_append, List.cons.injEq, true_and]
    exact hrest'
  · refine .bind (.isNext ?_)
    dsimp only
    split
    · refine .bind (.pure (.bind (.expectMark fun closing l' hrest' hclosing => ?_)))
      refine (ih.callRest _ _).mono fun e' c' hl he => Extends.trans (fun _ => ?_) he hl
      refine ⟨[opening, closing], ?_, fun ls hls => .call hls hopening hclosing⟩
      simp only [hrest, List.cons_append, List.nil_append, List.cons.injEq, true_and]
      exact hrest'
    · refine .bind ((ih.arguments 0 _).mono fun args c₁ hl₁ hargs => ?_)
      refine .bind (.expectMark fun closing l' hrest' hclosing => ?_)
      refine (ih.callRest _ _).mono fun e' c' hl he => Extends.trans (fun hquiet => ?_) he hl
      obtain ⟨as, has, hd⟩ := hargs.1 hquiet
      have harity := hargs.2 hquiet
      refine ⟨opening :: (as ++ [closing]), ?_, fun ls hls => ?_⟩
      · have has : l = as ++ c₁.rest := has
        simp [hrest, has, hrest']
      · exact .callWith hls hopening hd (by omega) hclosing

theorem meets_arguments (ih : DerivingReaders n) (count : Nat) :
    Meets (Reader.arguments (n + 1) count) c fun es c' =>
      Took (Derives .arguments) c es c' ∧ (c'.reported = [] → count + es.length ≤ 255) := by
  rw [arguments_succ]
  split
  · -- The first argument that is too many is reported, which nothing undoes.
    refine .bind (.reportHere ?_)
    have hloud : ∀ c' : Cursor, Cursor.Leads { c with reported := c.reported ++
        [.grammar .tooManyArguments c.place] } c' → c'.reported ≠ [] := by
      intro c' hl hquiet
      exact absurd (hl.quiet hquiet) (by simp)
    refine .commaList ((ih.assignment _).mono fun e c₁ hl₁ _ => ?_)
    refine ⟨⟨fun h => absurd h (hloud c₁ hl₁), fun h => absurd h (hloud c₁ hl₁)⟩, ?_⟩
    intro comma l hrest _
    refine (ih.arguments _ _).mono fun es c₂ hl₂ _ => ?_
    have hloud₂ := hloud c₂ ((hl₁.trans (.token hrest)).trans hl₂)
    exact ⟨fun h => absurd h hloud₂, fun h => absurd h hloud₂⟩
  · next hcount =>
    have hcount : count < 255 := Nat.not_le.mp hcount
    refine .commaList ((ih.assignment c).mono fun e c₁ hl₁ he => ?_)
    refine ⟨⟨fun hquiet => ?_, fun _ => hcount⟩, fun comma l hrest hcomma => ?_⟩
    · obtain ⟨ts, hts, hd⟩ := he hquiet
      exact ⟨ts, hts, .argument hd⟩
    · refine (ih.arguments _ _).mono fun es c₂ hl₂ hes => ⟨fun hquiet => ?_, fun hquiet => ?_⟩
      · obtain ⟨us, hus, hds⟩ := hes.1 hquiet
        obtain ⟨ts, hts, hd⟩ := he (hl₂.quiet hquiet)
        have hus : l = us ++ c₂.rest := hus
        exact ⟨ts ++ comma :: us, by simp [hts, hrest, hus], .arguments hd hcomma hds⟩
      · have := hes.2 hquiet
        simp only [List.length_cons]
        omega

theorem meets_primary (ih : DerivingReaders n) :
    Meets (Reader.primary (n + 1)) c (Took (Derives (.level .primary)) c) := by
  rw [Reader.primary]
  refine .bind (.takeIf? ?_ fun token l value hrest hvalue => ?_)
  · refine .bind (.take? ?_ fun keyword l hrest hkeyword => ?_)
    · refine .bind (.take? ?_ fun keyword l hrest hkeyword => ?_)
      · refine .bind (.take? ?_ fun token l hrest htoken => ?_)
        · refine .bind (.take? (.fail _) fun opening l hrest hopening => ?_)
          refine .bind ((ih.assignment _).mono fun inner c₁ _ hinner => ?_)
          refine .bind (.expectMark fun closing l' hrest' hclosing => .pure fun hquiet => ?_)
          obtain ⟨ts, hts, hd⟩ := hinner hquiet
          have hts : l = ts ++ c₁.rest := hts
          refine ⟨opening :: (ts ++ [closing]), by simp [hrest, hts, hrest'], ?_⟩
          exact .group hopening hd hclosing
        · refine .bind (.freshSite (.pure fun _ => ?_))
          exact ⟨[token], by simpa using hrest, .variable htoken⟩
      · exact .bind (.freshSite (.pure fun _ => ⟨[keyword], by simpa using hrest, .this hkeyword⟩))
    · refine .bind (.expectMark fun dot l₁ hrest₁ hdot => ?_)
      refine .bind (.expectName fun m l₂ hrest₂ hm => ?_)
      refine .bind (.freshSite (.pure fun _ => ⟨[keyword, dot, m], ?_, .super hkeyword hdot hm⟩))
      simp_all
  · exact .pure fun _ => ⟨[token], by simpa using hrest, .literal (literal?_eq_some.mp hvalue)⟩

end DerivingReaders

theorem derivingReaders (n : Nat) : DerivingReaders n := by
  induction n with
  | zero =>
    constructor <;> intros
    · rw [assignment]; exact .fail _
    · rw [operation]; exact .fail _
    · rw [operationRest]; exact .fail _
    · rw [unary]; exact .fail _
    · rw [callRest]; exact .fail _
    · rw [arguments]; exact .fail _
    · rw [primary]; exact .fail _
  | succ n ih =>
    exact ⟨fun _ => ih.meets_assignment, fun _ _ hl => ih.meets_operation hl,
      fun t left _ => ih.meets_operationRest t left, fun _ => ih.meets_unary,
      fun e _ => ih.meets_callRest e, fun count _ => ih.meets_arguments count,
      fun _ => ih.meets_primary⟩

/-- What is read as an expression is derived as one, unless something is reported. -/
theorem meets_expression_took (c : Cursor) :
    Meets expression c (Took (Derives (.level .assignment)) c) :=
  ((derivingReaders c.depth).assignment c).congr (expression_apply c).symm

end Reader

end LoxLang.Grammar
