import LoxLang.Grammar.Statement
import LoxLang.Proofs.Grammar.Reader

/-!
# Reading that goes on

What it takes for a reader to succeed. `Becomes` says that reading with one reader comes to reading
with another one, later in the same tokens and with nothing reported on the way; a reader that gives
a result has become `pure`. The rules follow the ways to build a reader, so that a proof that tokens
are read takes them one after the other.

## Main definitions

* `Reader.Becomes`: reading goes on with another reader.
* `Reader.Yields`: reading gives a result.
-/

namespace LoxLang.Grammar

/-- The next token, if there is one, is not of a kind. -/
def NextIsNot (k : Token.Kind) (rest : List Token) : Prop := ∀ t ∈ rest.head?, t.kind ≠ k

theorem nextIsNot_nil (k : Token.Kind) : NextIsNot k [] := nofun

@[simp] theorem nextIsNot_cons {k : Token.Kind} {t : Token} {l : List Token} :
    NextIsNot k (t :: l) ↔ t.kind ≠ k := by
  simp [NextIsNot]

theorem Cursor.kind?_eq_some_iff {c : Cursor} {k : Token.Kind} :
    c.kind? = some k ↔ ¬ NextIsNot k c.rest := by
  cases h : c.rest <;> simp [Cursor.kind?, NextIsNot, h]

namespace Reader

variable {α β : Type}

/-- Reading with `r` from a cursor on comes to reading with one of the readers `next`, when the
tokens `rest` are left. Nothing is reported on the way. -/
def Becomes (r : Reader α) (c : Cursor) (rest : List Token) (next : Reader α → Prop) : Prop :=
  ∃ r' c', r c = r' c' ∧ next r' ∧ c'.rest = rest ∧ c'.reported = c.reported

/-- Reading gives a result that satisfies `good`, and the tokens `rest` are left. -/
abbrev Yields (r : Reader α) (c : Cursor) (rest : List Token) (good : α → Prop) : Prop :=
  Becomes r c rest fun r' => ∃ a, r' = pure a ∧ good a

namespace Becomes

variable {r : Reader α} {c : Cursor} {rest : List Token} {next : Reader α → Prop}

protected theorem refl (h : next r) (hrest : c.rest = rest) : Becomes r c rest next :=
  ⟨r, c, rfl, h, hrest, rfl⟩

protected theorem trans {mid : List Token} {next' : Reader α → Prop} (h : Becomes r c mid next')
    (h' : ∀ r' c', next' r' → c'.rest = mid → Becomes r' c' rest next) : Becomes r c rest next := by
  obtain ⟨r₁, c₁, he₁, hr₁, hrest₁, hreported₁⟩ := h
  obtain ⟨r₂, c₂, he₂, hr₂, hrest₂, hreported₂⟩ := h' r₁ c₁ hr₁ hrest₁
  exact ⟨r₂, c₂, he₁.trans he₂, hr₂, hrest₂, hreported₂.trans hreported₁⟩

theorem mono {next' : Reader α → Prop} (h : Becomes r c rest next')
    (hn : ∀ r', next' r' → next r') : Becomes r c rest next :=
  h.trans fun _ _ hr hrest => .refl (hn _ hr) hrest

/-- Only what a reader does at the cursor counts. -/
theorem congr {r' : Reader α} {c' : Cursor} (h : Becomes r' c' rest next) (he : r c = r' c')
    (hr : c'.reported = c.reported) : Becomes r c rest next := by
  obtain ⟨r₁, c₁, he₁, hr₁, hrest₁, hreported₁⟩ := h
  exact ⟨r₁, c₁, he.trans he₁, hr₁, hrest₁, hreported₁.trans hr⟩

protected theorem pure {a : α} {good : α → Prop} (h : good a) (hrest : c.rest = rest) :
    Yields (pure a) c rest good := .refl ⟨a, rfl, h⟩ hrest

protected theorem bind {x : Reader β} {f : β → Reader α} {good : β → Prop} {mid : List Token}
    (h : Yields x c mid good)
    (h' : ∀ b c', good b → c'.rest = mid → Becomes (f b) c' rest next) :
    Becomes (x >>= f) c rest next := by
  obtain ⟨_, c₁, he, ⟨b, rfl, hb⟩, hrest, hreported⟩ := h
  refine (h' b c₁ hb hrest).congr ?_ hreported
  rw [bind_apply, he]
  rfl

protected theorem map {x : Reader β} {f : β → α} {good : α → Prop}
    (h : Yields x c rest fun b => good (f b)) : Yields (f <$> x) c rest good :=
  Becomes.bind (f := fun b => pure (f b)) h fun _ _ hb hrest => .pure hb hrest

/-! ### Tokens -/

section Tokens

variable {t : Token} {l : List Token}

theorem takeIf? {test : Token → Option β} {f : Option β → Reader α} {b : β}
    (hrest : c.rest = t :: l) (ht : test t = some b)
    (h : Becomes (f (some b)) { c with rest := l } rest next) :
    Becomes (takeIf? test >>= f) c rest next := by
  refine h.congr ?_ rfl
  rw [bind_apply]
  simp [Reader.takeIf?, hrest, ht]

theorem skip {test : Token → Option β} {f : Option β → Reader α}
    (ht : ∀ t ∈ c.rest.head?, test t = none) (h : Becomes (f none) c rest next) :
    Becomes (Reader.takeIf? test >>= f) c rest next := by
  refine h.congr ?_ rfl
  rw [bind_apply]
  cases hrest : c.rest with
  | nil => simp [Reader.takeIf?, hrest]
  | cons t l => simp [Reader.takeIf?, hrest, ht t (by simp [hrest])]

theorem take {k : Token.Kind} {f : Option Token → Reader α} (hrest : c.rest = t :: l)
    (ht : t.kind = k) (h : Becomes (f (some t)) { c with rest := l } rest next) :
    Becomes (take? k >>= f) c rest next :=
  takeIf? hrest (if_pos ht) h

theorem pass {k : Token.Kind} {f : Option Token → Reader α} (ht : NextIsNot k c.rest)
    (h : Becomes (f none) c rest next) : Becomes (take? k >>= f) c rest next :=
  skip (fun t hmem => if_neg (ht t hmem)) h

theorem expectMark {m : Mark} {what : Expected} {f : Token → Reader α} (hrest : c.rest = t :: l)
    (ht : t.kind = .mark m) (h : Becomes (f t) { c with rest := l } rest next) :
    Becomes (expectMark m what >>= f) c rest next := by
  refine h.congr ?_ rfl
  rw [bind_apply]
  simp [Reader.expectMark, bind_apply, takeMark?, take?, Reader.takeIf?, hrest, ht, pure,
    EStateM.pure]

theorem expectName {what : Expected} {f : Name → Reader α} (hrest : c.rest = t :: l)
    (ht : t.kind = .identifier)
    (h : Becomes (f ⟨t.lexeme, t.line⟩) { c with rest := l } rest next) :
    Becomes (expectName what >>= f) c rest next := by
  refine h.congr ?_ rfl
  rw [bind_apply]
  simp [Reader.expectName, bind_apply, take?, Reader.takeIf?, hrest, ht, pure, EStateM.pure]

theorem isNext {k : Token.Kind} {f : Bool → Reader α} (hrest : c.rest = t :: l) (ht : t.kind = k)
    (h : Becomes (f true) c rest next) : Becomes (isNext k >>= f) c rest next := by
  refine h.congr ?_ rfl
  rw [bind_apply]
  simp [Reader.isNext, Cursor.kind?, hrest, ht]

theorem isNotNext {k : Token.Kind} {f : Bool → Reader α} (ht : NextIsNot k c.rest)
    (h : Becomes (f false) c rest next) : Becomes (Reader.isNext k >>= f) c rest next := by
  refine h.congr ?_ rfl
  have hkind : c.kind? ≠ some k := fun he => Cursor.kind?_eq_some_iff.mp he ht
  rw [bind_apply]
  simp [Reader.isNext, hkind]

theorem isAtEnd {f : Bool → Reader α} (hrest : c.rest = []) (h : Becomes (f true) c rest next) :
    Becomes (isAtEnd >>= f) c rest next := by
  refine h.congr ?_ rfl
  rw [bind_apply]
  simp [Reader.isAtEnd, hrest]

theorem isNotAtEnd {f : Bool → Reader α} (hrest : c.rest = t :: l)
    (h : Becomes (f false) c rest next) : Becomes (Reader.isAtEnd >>= f) c rest next := by
  refine h.congr ?_ rfl
  rw [bind_apply]
  simp [Reader.isAtEnd, hrest]

theorem freshSite {f : Site → Reader α}
    (h : Becomes (f c.nextSite) { c with nextSite := c.nextSite + 1 } rest next) :
    Becomes (freshSite >>= f) c rest next :=
  h.congr (bind_apply _ _ _) rfl

end Tokens

theorem recovering {r : Reader Stmt} {good : Stmt → Prop} (h : Yields r c rest good) :
    Yields (recovering r) c rest fun s => ∃ s', s = some s' ∧ good s' := by
  obtain ⟨_, c', he, ⟨s, rfl, hs⟩, hrest, hreported⟩ := h
  refine ⟨pure (some s), c', ?_, ⟨some s, rfl, s, rfl, hs⟩, hrest, hreported⟩
  unfold Reader.recovering
  rw [he]
  rfl

end Becomes

end Reader

end LoxLang.Grammar
