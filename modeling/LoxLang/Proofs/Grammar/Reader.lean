import LoxLang.Grammar.Cursor
import LoxLang.Proofs.Scoping.Occurrence

/-!
# Reasoning about readers

Whether it succeeds or fails, a reader only moves on: it takes tokens from the front, hands out
sites and adds to the faults reported. `Meets` is what a reader promises from a given cursor on, with
a rule for each way to build a reader.
-/

namespace LoxLang.Grammar

/-! ## Moving on -/

namespace Cursor

/-- The second cursor is one that reading from the first can come to. -/
structure Leads (c c' : Cursor) : Prop where
  rest : c'.rest <:+ c.rest
  nextSite : c.nextSite ≤ c'.nextSite
  reported : c.reported <+: c'.reported

namespace Leads

variable {c c' c'' : Cursor}

theorem refl (c : Cursor) : c.Leads c := ⟨List.suffix_refl _, Nat.le_refl _, List.prefix_refl _⟩

theorem trans (h : c.Leads c') (h' : c'.Leads c'') : c.Leads c'' :=
  ⟨h'.rest.trans h.rest, Nat.le_trans h.nextSite h'.nextSite, h.reported.trans h'.reported⟩

theorem of_rest (h : l <:+ c.rest) : c.Leads { c with rest := l } :=
  ⟨h, Nat.le_refl _, List.prefix_refl _⟩

/-- If nothing is reported at the end, nothing was before. -/
theorem quiet (h : c.Leads c') (hc : c'.reported = []) : c.reported = [] :=
  List.prefix_nil.mp (hc ▸ h.reported)

/-- Taking a token. -/
theorem token {t : Token} {l : List Token} (h : c.rest = t :: l) : c.Leads { c with rest := l } :=
  .of_rest (h ▸ List.suffix_cons t l)

end Leads

/-- No identifier that is still to be read is a reserved word. -/
def Ordinary (c : Cursor) : Prop :=
  ∀ t ∈ c.rest, t.kind = .identifier → Name.IsOrdinary ⟨t.lexeme, t.line⟩

theorem Ordinary.leads {c c' : Cursor} (hc : c.Ordinary) (h : c.Leads c') : c'.Ordinary :=
  fun t ht => hc t (h.rest.subset ht)

end Cursor

/-! ## What a reader promises -/

namespace Reader

variable {α β : Type}

theorem bind_apply (x : Reader β) (f : β → Reader α) (c : Cursor) :
    (x >>= f) c = match x c with
      | .ok b c' => f b c'
      | .error d c' => .error d c' := by
  change EStateM.bind x f c = _
  unfold EStateM.bind
  cases x c <;> rfl

/-- An item, and after a comma `more` of them. -/
def commaList (item : Reader α) (more : Reader (List α)) : Reader (List α) := do
  let a ← item
  match ← takeMark? .comma with
  | some _ => return a :: (← more)
  | none => return [a]

/-- From a cursor on, a reader only moves on, and its result satisfies `post`. -/
def Meets (r : Reader α) (c : Cursor) (post : α → Cursor → Prop) : Prop :=
  match r c with
  | .ok a c' => c.Leads c' ∧ post a c'
  | .error _ c' => c.Leads c'

namespace Meets

variable {c : Cursor} {post : α → Cursor → Prop}

theorem mono {r : Reader α} {post' : α → Cursor → Prop} (h : Meets r c post')
    (hp : ∀ a c', c.Leads c' → post' a c' → post a c') : Meets r c post := by
  unfold Meets at h ⊢
  cases he : r c with
  | error d c' => simpa only [he] using h
  | ok a c' =>
    simp only [he] at h ⊢
    exact ⟨h.1, hp a c' h.1 h.2⟩

/-- Only what a reader does at the cursor counts. -/
theorem congr {r r' : Reader α} (h : Meets r c post) (he : r c = r' c) : Meets r' c post := by
  simpa only [Meets, he] using h

protected theorem pure {a : α} (h : post a c) : Meets (pure a) c post := ⟨.refl c, h⟩

protected theorem bind {x : Reader β} {f : β → Reader α}
    (h : Meets x c fun b c' => Meets (f b) c' post) : Meets (x >>= f) c post := by
  simp only [Meets, bind_apply] at h ⊢
  cases hx : x c with
  | error d c' => simpa only [hx] using h
  | ok b c' =>
    simp only [hx] at h ⊢
    obtain ⟨hl, h⟩ := h
    cases hf : f b c' with
    | error d c'' =>
      simp only [hf] at h ⊢
      exact hl.trans h
    | ok a c'' =>
      simp only [hf] at h ⊢
      exact ⟨hl.trans h.1, h.2⟩

protected theorem map {x : Reader β} {f : β → α} (h : Meets x c fun b c' => post (f b) c') :
    Meets (f <$> x) c post :=
  Meets.bind (f := fun b => pure (f b)) (h.mono fun _ _ _ hp => .pure hp)

theorem fail (what : Expected) : Meets (fail what) c post := Cursor.Leads.refl c

theorem report {d : Diagnostic} {post : Unit → Cursor → Prop}
    (h : post () { c with reported := c.reported ++ [d] }) : Meets (report d) c post :=
  ⟨⟨List.suffix_refl _, Nat.le_refl _, List.prefix_append _ _⟩, h⟩

theorem reportHere {fault : GrammarFault} {post : Unit → Cursor → Prop}
    (h : post () { c with reported := c.reported ++ [.grammar fault c.place] }) :
    Meets (reportHere fault) c post :=
  report h

theorem freshSite {post : Site → Cursor → Prop}
    (h : post c.nextSite { c with nextSite := c.nextSite + 1 }) : Meets freshSite c post :=
  ⟨⟨List.suffix_refl _, Nat.le_succ _, List.prefix_refl _⟩, h⟩

theorem isNext {kind : Token.Kind} {post : Bool → Cursor → Prop}
    (h : post (c.kind? = some kind) c) : Meets (isNext kind) c post := ⟨.refl c, h⟩

theorem isAtEnd {post : Bool → Cursor → Prop} (h : post c.rest.isEmpty c) :
    Meets isAtEnd c post := ⟨.refl c, h⟩

theorem takeIf? {test : Token → Option α} {post : Option α → Cursor → Prop} (hnone : post none c)
    (hsome : ∀ t l a, c.rest = t :: l → test t = some a → post (some a) { c with rest := l }) :
    Meets (takeIf? test) c post := by
  unfold Meets Reader.takeIf?
  cases hrest : c.rest with
  | nil => exact ⟨.refl c, hnone⟩
  | cons t l =>
    dsimp only
    cases ht : test t with
    | none => exact ⟨.refl c, hnone⟩
    | some a => exact ⟨.token hrest, hsome t l a hrest ht⟩

theorem take? {kind : Token.Kind} {post : Option Token → Cursor → Prop} (hnone : post none c)
    (hsome : ∀ t l, c.rest = t :: l → t.kind = kind → post (some t) { c with rest := l }) :
    Meets (take? kind) c post := by
  refine takeIf? hnone fun t l a hrest ht => ?_
  split at ht
  · next hk =>
    cases ht
    exact hsome t l hrest hk
  · cases ht

theorem expectMark {m : Mark} {what : Expected} {post : Token → Cursor → Prop}
    (h : ∀ t l, c.rest = t :: l → t.kind = .mark m → post t { c with rest := l }) :
    Meets (expectMark m what) c post := by
  unfold Reader.expectMark
  refine .bind (take? (.fail what) fun t l hrest hk => ?_)
  exact .pure (h t l hrest hk)

theorem expectName {what : Expected} {post : Name → Cursor → Prop}
    (h : ∀ t l, c.rest = t :: l → t.kind = .identifier →
      post ⟨t.lexeme, t.line⟩ { c with rest := l }) :
    Meets (expectName what) c post := by
  unfold Reader.expectName
  refine .bind (take? (.fail what) fun t l hrest hk => ?_)
  exact .pure (h t l hrest hk)

theorem commaList {item : Reader α} {more : Reader (List α)} {post : List α → Cursor → Prop}
    (h : Meets item c fun a c₁ => post [a] c₁ ∧ ∀ t l, c₁.rest = t :: l → t.kind = .mark .comma →
      Meets more { c₁ with rest := l } fun as c₂ => post (a :: as) c₂) :
    Meets (commaList item more) c post := by
  refine .bind (h.mono fun a c₁ _ ha => ?_)
  refine .bind (take? (.pure ha.1) fun t l hrest ht => ?_)
  exact .bind ((ha.2 t l hrest ht).mono fun as c₂ _ has => .pure has)

end Meets

end Reader

end LoxLang.Grammar
