import LoxLang.Proofs.Grammar.Reader
import LoxLang.Proofs.Program.Renaming

/-!
# Reading the same tokens elsewhere

Tokens are read in the same way when they stand on other lines, when sites are numbered from another
number on, and, as long as nothing goes wrong, when other tokens follow them. A reader that looks at
the token after its result has to see one for that.

## Main definitions

* `Passage`: another place at which tokens are read.
* `Reader.Tracks`: a reader that goes through tokens at that place as another one does here.
-/

namespace LoxLang.Grammar

/-- Another place at which tokens are read. -/
structure Passage where
  /-- How far the sites are moved. -/
  shift : Nat
  /-- What becomes of the lines. -/
  line : Nat → Nat
  /-- The tokens that follow there. -/
  more : List Token
  /-- What becomes of the last line. -/
  endLine : Nat → Nat

namespace Passage

def names (t : Passage) : Renaming := ⟨(· + t.shift), t.line⟩

def cursor (t : Passage) (c : Cursor) : Cursor :=
  ⟨c.rest.map (·.rename t.names) ++ t.more, t.endLine c.endLine, c.nextSite + t.shift,
    c.reported.map (·.rename t.names)⟩

/-- A semicolon follows, with which no expression goes on. -/
def Stops (t : Passage) : Prop := ∃ token ∈ t.more.head?, token.kind = .mark .semicolon

/-- Nothing follows, so that faults too are the same. -/
def Exact (t : Passage) : Prop := t.more = [] ∧ t.endLine = t.line

variable {t : Passage} {c : Cursor}

theorem rest_cursor {token : Token} {l : List Token} (h : c.rest = token :: l) :
    (t.cursor c).rest = token.rename t.names :: (t.cursor { c with rest := l }).rest := by
  simp [cursor, h]

theorem Exact.rest_cursor (he : t.Exact) :
    (t.cursor c).rest = c.rest.map (·.rename t.names) := by
  simp [cursor, he.1]

theorem Exact.place_cursor (he : t.Exact) : (t.cursor c).place = c.place.rename t.names := by
  obtain ⟨rest, endLine, site, reported⟩ := c
  cases rest with
  | nil => simp [cursor, Cursor.place, he.1, he.2, Place.rename, names]
  | cons token l => rfl

/-- The kind of the next token is the same when there is one. -/
theorem kind?_cursor (h : t.Exact ∨ c.rest ≠ []) : (t.cursor c).kind? = c.kind? := by
  obtain ⟨rest, endLine, site, reported⟩ := c
  cases rest with
  | nil =>
    obtain he | h := h
    · simp [cursor, Cursor.kind?, he.1]
    · exact absurd rfl h
  | cons token l => rfl

theorem isEmpty_cursor (h : t.Exact ∨ c.rest ≠ []) : (t.cursor c).rest.isEmpty = c.rest.isEmpty := by
  obtain ⟨rest, endLine, site, reported⟩ := c
  cases rest with
  | nil =>
    obtain he | h := h
    · simp [cursor, he.1]
    · exact absurd rfl h
  | cons token l => rfl

end Passage

namespace Reader

variable {α β : Type} {t : Passage}

/-! ## Readers that do the same -/

/-- When `r` yields something, `r'` yields the same at the other place, if nothing was reported and
the cursor is `ready` then. When nothing follows there, `r'` does the same as `r` in all cases. -/
def Tracks (t : Passage) (ready : Cursor → Prop) (φ : α → α) (r r' : Reader α) : Prop :=
  ∀ c, match r c with
    | .ok a c' => c.Leads c' ∧
      (t.Exact ∨ c'.reported = [] ∧ ready c' → r' (t.cursor c) = .ok (φ a) (t.cursor c'))
    | .error d c' => c.Leads c' ∧
      (t.Exact → r' (t.cursor c) = .error (d.rename t.names) (t.cursor c'))

namespace Tracks

variable {ready : Cursor → Prop} {φ : α → α} {r r' : Reader α}

theorem leads (h : Tracks t ready φ r r') {c c' : Cursor} {a : α} (he : r c = .ok a c') :
    c.Leads c' := by
  have := h c
  simp only [he] at this
  exact this.1

theorem ok (h : Tracks t ready φ r r') {c c' : Cursor} {a : α} (he : r c = .ok a c')
    (hready : t.Exact ∨ c'.reported = [] ∧ ready c') :
    r' (t.cursor c) = .ok (φ a) (t.cursor c') := by
  have := h c
  simp only [he] at this
  exact this.2 hready

theorem error (h : Tracks t ready φ r r') {c c' : Cursor} {d : Diagnostic}
    (he : r c = .error d c') (hexact : t.Exact) :
    r' (t.cursor c) = .error (d.rename t.names) (t.cursor c') := by
  have := h c
  simp only [he] at this
  exact this.2 hexact

theorem leads_of_error (h : Tracks t ready φ r r') {c c' : Cursor} {d : Diagnostic}
    (he : r c = .error d c') : c.Leads c' := by
  have := h c
  simp only [he] at this
  exact this.1

theorem mono {ready' : Cursor → Prop} (h : Tracks t ready φ r r')
    (hr : ∀ c, ready' c → ready c) : Tracks t ready' φ r r' := by
  intro c
  have hc := h c
  cases he : r c with
  | error d c' => simpa only [he] using hc
  | ok a c' =>
    simp only [he] at hc ⊢
    exact ⟨hc.1, fun hready => hc.2 (hready.imp_right fun h => ⟨h.1, hr c' h.2⟩)⟩

/-- Each part is ready when the part after it is. -/
protected theorem bind {ready₁ : Cursor → Prop} {ψ : β → β} {x x' : Reader β} {f f' : β → Reader α}
    (hx : Tracks t ready₁ ψ x x') (hf : ∀ b, Tracks t ready φ (f b) (f' (ψ b)))
    (hr : ∀ b c a c', f b c = .ok a c' → c.Leads c' → ready c' → ready₁ c) :
    Tracks t ready φ (x >>= f) (x' >>= f') := by
  intro c
  simp only [bind_apply]
  cases hxc : x c with
  | error d c₁ =>
    refine ⟨hx.leads_of_error hxc, fun he => ?_⟩
    rw [hx.error hxc he]
  | ok b c₁ =>
    have hl := hx.leads hxc
    dsimp only
    cases hfc : f b c₁ with
    | error d c₂ =>
      refine ⟨hl.trans ((hf b).leads_of_error hfc), fun he => ?_⟩
      rw [hx.ok hxc (.inl he)]
      exact (hf b).error hfc he
    | ok a c₂ =>
      have hl' := (hf b).leads hfc
      refine ⟨hl.trans hl', fun hready => ?_⟩
      have hready₁ : t.Exact ∨ c₁.reported = [] ∧ ready₁ c₁ := by
        rcases hready with he | ⟨hquiet, hready⟩
        · exact .inl he
        · have hquiet₁ : c₁.reported = [] := List.prefix_nil.mp (hquiet ▸ hl'.reported)
          exact .inr ⟨hquiet₁, hr b c₁ a c₂ hfc hl' hready⟩
      rw [hx.ok hxc hready₁]
      exact (hf b).ok hfc hready

protected theorem pure {a a' : α} (h : a' = φ a) : Tracks t ready φ (pure a) (pure a') :=
  fun c => ⟨.refl c, fun _ => h ▸ rfl⟩

/-- A reader that fails does so only where nothing follows. -/
theorem fail {what : Expected} (h : t.Exact → r' = fail what) :
    Tracks t ready φ (fail what) r' := by
  refine fun c => ⟨.refl c, fun he => ?_⟩
  rw [h he]
  simp only [Reader.fail, he.place_cursor]
  rfl

theorem report {d d' : Diagnostic} (h : d' = d.rename t.names) :
    Tracks t ready id (report d) (report d') := by
  subst h
  refine fun c => ⟨⟨List.suffix_refl _, Nat.le_refl _, List.prefix_append _ _⟩, fun _ => ?_⟩
  simp [Reader.report, Passage.cursor]

/-- A fault that is reported is reported only where nothing follows. -/
theorem reportHere (fault : GrammarFault) :
    Tracks t ready id (reportHere fault) (reportHere fault) := by
  refine fun c => ⟨⟨List.suffix_refl _, Nat.le_refl _, List.prefix_append _ _⟩, ?_⟩
  rintro (he | ⟨hquiet, -⟩)
  · simp only [Reader.reportHere, he.place_cursor]
    simp [Reader.report, Passage.cursor, Diagnostic.rename]
  · simp at hquiet

theorem freshSite : Tracks t ready (· + t.shift) freshSite freshSite := by
  refine fun c => ⟨⟨List.suffix_refl _, Nat.le_succ _, List.prefix_refl _⟩, fun _ => ?_⟩
  simp only [Reader.freshSite, Passage.cursor, Nat.add_right_comm]

end Tracks

/-! ## Readers that look at the next token -/

/-- The cursor has to stand before a token. -/
abbrev Loose (t : Passage) (φ : α → α) (r r' : Reader α) : Prop :=
  Tracks t (fun c => c.rest ≠ []) φ r r'

/-- The cursor has to stand before a token, here or there before a semicolon. -/
abbrev Stopping (t : Passage) (φ : α → α) (r r' : Reader α) : Prop :=
  Tracks t (fun c => c.rest ≠ [] ∨ t.Stops) φ r r'

/-- The cursor may stand at the end. -/
abbrev Steady (t : Passage) (φ : α → α) (r r' : Reader α) : Prop :=
  Tracks t (fun _ => True) φ r r'

/-- The cursor may stand at the end, and at least one token is taken. -/
structure Firm (t : Passage) (φ : α → α) (r r' : Reader α) : Prop where
  steady : Steady t φ r r'
  takes : ∀ {c a c'}, r c = .ok a c' → c'.rest.length < c.rest.length

theorem Tracks.loose {φ : α → α} {r r' : Reader α} (h : Steady t φ r r') : Loose t φ r r' :=
  h.mono fun _ _ => trivial

theorem Tracks.stopping {φ : α → α} {r r' : Reader α} (h : Steady t φ r r') : Stopping t φ r r' :=
  h.mono fun _ _ => trivial

theorem Stopping.loose {φ : α → α} {r r' : Reader α} (h : Stopping t φ r r') : Loose t φ r r' :=
  h.mono fun _ hc => .inl hc

theorem Cursor.Leads.rest_ne_nil {c c' : Cursor} (h : c.Leads c') (hc : c'.rest ≠ []) :
    c.rest ≠ [] := fun he => hc (List.suffix_nil.mp (he ▸ h.rest))

section Loose

variable {φ : α → α} {ψ : β → β} {x x' : Reader β} {f f' : β → Reader α}

theorem Loose.bind (hx : Loose t ψ x x') (hf : ∀ b, Loose t φ (f b) (f' (ψ b))) :
    Loose t φ (x >>= f) (x' >>= f') :=
  Tracks.bind hx hf fun _ _ _ _ _ hl hc => Cursor.Leads.rest_ne_nil hl hc

theorem Loose.map {g g' : β → α} (hx : Loose t ψ x x') (h : ∀ b, g' (ψ b) = φ (g b)) :
    Loose t φ (g <$> x) (g' <$> x') :=
  Loose.bind hx fun b => .pure (h b)

theorem Stopping.bind (hx : Stopping t ψ x x') (hf : ∀ b, Stopping t φ (f b) (f' (ψ b))) :
    Stopping t φ (x >>= f) (x' >>= f') :=
  Tracks.bind hx hf fun _ _ _ _ _ hl hc => hc.imp_left (Cursor.Leads.rest_ne_nil hl)

theorem Steady.bind (hx : Steady t ψ x x') (hf : ∀ b, Steady t φ (f b) (f' (ψ b))) :
    Steady t φ (x >>= f) (x' >>= f') :=
  Tracks.bind hx hf fun _ _ _ _ _ _ _ => trivial

/-- What takes a token stands before one. -/
theorem Firm.rest_ne_nil {r r' : Reader α} (h : Firm t φ r r') {c c' : Cursor} {a : α}
    (he : r c = .ok a c') : c.rest ≠ [] := by
  have := h.takes he
  intro hnil
  simp [hnil] at this

theorem Firm.of_bind (hx : Loose t ψ x x') (hf : ∀ b, Firm t φ (f b) (f' (ψ b))) :
    Firm t φ (x >>= f) (x' >>= f') := by
  refine ⟨Tracks.bind hx (fun b => (hf b).steady) fun b c a c' he _ _ => (hf b).rest_ne_nil he,
    fun {c a c'} he => ?_⟩
  rw [bind_apply] at he
  cases hxc : x c with
  | error d c₁ => simp [hxc] at he
  | ok b c₁ =>
    simp only [hxc] at he
    exact Nat.lt_of_lt_of_le ((hf b).takes he) (hx.leads hxc).rest.length_le

theorem Firm.bind (hx : Firm t ψ x x') (hf : ∀ b, Steady t φ (f b) (f' (ψ b))) :
    Firm t φ (x >>= f) (x' >>= f') := by
  refine ⟨hx.steady.bind hf, fun {c a c'} he => ?_⟩
  rw [bind_apply] at he
  cases hxc : x c with
  | error d c₁ => simp [hxc] at he
  | ok b c₁ =>
    simp only [hxc] at he
    exact Nat.lt_of_le_of_lt ((hf b).leads he).rest.length_le (hx.takes hxc)

theorem Firm.map {g g' : β → α} (hx : Firm t ψ x x') (h : ∀ b, g' (ψ b) = φ (g b)) :
    Firm t φ (g <$> x) (g' <$> x') :=
  Firm.bind hx fun b => .pure (h b)

end Loose

theorem Loose.isNext (kind : Token.Kind) : Loose t id (isNext kind) (isNext kind) := by
  refine fun c => ⟨.refl c, fun h => ?_⟩
  simp [Reader.isNext, Passage.kind?_cursor (h.imp_right And.right)]

theorem Loose.isAtEnd : Loose t id isAtEnd isAtEnd := by
  refine fun c => ⟨.refl c, fun h => ?_⟩
  simp [Reader.isAtEnd, Passage.isEmpty_cursor (h.imp_right And.right)]

/-- At the end, nothing may be taken from what follows. -/
theorem Tracks.takeIf? {ready : Cursor → Prop} {φ : α → α} {test : Token → Option α}
    (htest : ∀ token, test (token.rename t.names) = (test token).map φ)
    (hend : ∀ c, ready c → c.rest = [] → t.more.head?.bind test = none) :
    Tracks t ready (Option.map φ) (takeIf? test) (takeIf? test) := by
  intro c
  cases hrest : c.rest with
  | nil =>
    have hc : Reader.takeIf? test c = .ok none c := by simp [Reader.takeIf?, hrest]
    rw [hc]
    refine ⟨.refl c, fun h => ?_⟩
    have hnone : t.more.head?.bind test = none := by
      obtain he | ⟨-, hready⟩ := h
      · simp [he.1]
      · exact hend c hready hrest
    simp only [Reader.takeIf?, Passage.cursor, hrest, List.map_nil, List.nil_append]
    cases hmore : t.more with
    | nil => rfl
    | cons token l =>
      rw [hmore] at hnone
      simp only [List.head?_cons, Option.bind_some] at hnone
      simp [hnone]
  | cons token l =>
    have hcursor := Passage.rest_cursor (t := t) hrest
    simp only [Reader.takeIf?, hrest, hcursor, htest]
    cases test token with
    | none => exact ⟨.refl c, fun _ => rfl⟩
    | some a => exact ⟨.token hrest, fun _ => rfl⟩

theorem Loose.takeIf? {φ : α → α} {test : Token → Option α}
    (htest : ∀ token, test (token.rename t.names) = (test token).map φ) :
    Loose t (Option.map φ) (takeIf? test) (takeIf? test) :=
  Tracks.takeIf? htest fun _ h he => absurd he h

/-- At the end, nothing is taken if a semicolon follows. -/
theorem Stopping.takeIf? {φ : α → α} {test : Token → Option α}
    (htest : ∀ token, test (token.rename t.names) = (test token).map φ)
    (hsemicolon : ∀ token, token.kind = .mark .semicolon → test token = none) :
    Stopping t (Option.map φ) (takeIf? test) (takeIf? test) := by
  refine Tracks.takeIf? htest fun c h he => ?_
  obtain ⟨token, hmem, hkind⟩ := h.resolve_left fun hne => hne he
  rw [Option.mem_def.mp hmem, Option.bind_some, hsemicolon token hkind]

theorem map_ofKind (kind : Token.Kind) (token : Token) :
    (if (token.rename t.names).kind = kind then some (token.rename t.names) else none) =
      (if token.kind = kind then some token else none).map (Token.rename t.names) := by
  change (if token.kind = kind then _ else _) = _
  split <;> rfl

theorem Loose.take? (kind : Token.Kind) :
    Loose t (Option.map (Token.rename t.names)) (take? kind) (take? kind) :=
  Loose.takeIf? (map_ofKind kind)

theorem Stopping.take? {kind : Token.Kind} (h : kind ≠ .mark .semicolon) :
    Stopping t (Option.map (Token.rename t.names)) (take? kind) (take? kind) :=
  Stopping.takeIf? (map_ofKind kind) fun _ hkind => if_neg fun he => h (he.symm.trans hkind)

theorem Stopping.isNext {kind : Token.Kind} (h : kind ≠ .mark .semicolon) :
    Stopping t id (isNext kind) (isNext kind) := by
  refine fun c => ⟨.refl c, fun hready => ?_⟩
  suffices hnext : (t.cursor c).kind? = some kind ↔ c.kind? = some kind by
    simp [Reader.isNext, hnext]
  rcases hready with he | ⟨-, hne | ⟨token, hmem, hkind⟩⟩
  · rw [Passage.kind?_cursor (.inl he)]
  · rw [Passage.kind?_cursor (.inr hne)]
  · cases hrest : c.rest with
    | cons token l => rw [Passage.kind?_cursor (c := c) (.inr (by simp [hrest]))]
    | nil => simp [Cursor.kind?, Passage.cursor, hrest, Option.mem_def.mp hmem, hkind, h.symm]

theorem Stopping.commaList {ψ : β → β} {item item' : Reader β} {more more' : Reader (List β)}
    (hitem : Stopping t ψ item item') (hmore : Stopping t (List.map ψ) more more') :
    Stopping t (List.map ψ) (commaList item more) (commaList item' more') := by
  have hcomma : Stopping t (Option.map (Token.rename t.names)) (Reader.take? (.mark .comma))
      (Reader.take? (.mark .comma)) := .take? (by simp)
  refine Stopping.bind hitem fun b => Stopping.bind hcomma fun comma => ?_
  cases comma with
  | none => exact .pure rfl
  | some comma => exact Stopping.bind hmore fun bs => .pure rfl

/-- Nothing is taken at the end if no such token follows. -/
theorem Steady.take? {kind : Token.Kind} (h : t.more.head?.map (·.kind) ≠ some kind) :
    Steady t (Option.map (Token.rename t.names)) (take? kind) (take? kind) := by
  refine Tracks.takeIf? (map_ofKind kind) fun c _ _ => ?_
  cases hmore : t.more with
  | nil => rfl
  | cons token l => simpa [hmore] using h

/-- A token that has to come next is taken, whatever follows it. -/
theorem Firm.expect {φ : β → β} {test : Token → Option β}
    (htest : ∀ token, test (token.rename t.names) = (test token).map φ) {ψ : α → α} {g : β → α}
    (hg : ∀ b, g (φ b) = ψ (g b)) {what : Expected} {f : Option β → Reader α}
    (hsome : ∀ b, f (some b) = pure (g b)) (hnone : f none = fail what) :
    Firm t ψ (takeIf? test >>= f) (takeIf? test >>= f) := by
  have hfail : Steady t ψ (fail what) (fail what) := Tracks.fail fun _ => rfl
  constructor
  · intro c
    cases hrest : c.rest with
    | nil =>
      have hc : (Reader.takeIf? test >>= f) c = Reader.fail what c := by
        simp [bind_apply, Reader.takeIf?, hrest, hnone]
      rw [hc]
      refine ⟨.refl c, fun he => ?_⟩
      have hrest' : (t.cursor c).rest = [] := by simp [he.rest_cursor, hrest]
      rw [bind_apply, Reader.takeIf?, hrest']
      simp only [hnone]
      exact hfail.error rfl he
    | cons token l =>
      have hcursor := Passage.rest_cursor (t := t) hrest
      simp only [bind_apply, Reader.takeIf?, hrest, hcursor, htest]
      cases test token with
      | none =>
        simp only [hnone, Option.map_none]
        exact hfail c
      | some b =>
        simp only [hsome, Option.map_some, hg]
        exact ⟨.token hrest, fun _ => rfl⟩
  · intro c a c' he
    rw [bind_apply, Reader.takeIf?] at he
    cases hrest : c.rest with
    | nil =>
      simp only [hrest, hnone] at he
      cases he
    | cons token l =>
      simp only [hrest] at he
      cases ht : test token with
      | none =>
        simp only [ht, hnone] at he
        cases he
      | some b =>
        simp only [ht, hsome] at he
        cases he
        exact Nat.lt_succ_self _

theorem Firm.expectMark (m : Mark) (what : Expected) :
    Firm t (Token.rename t.names) (expectMark m what) (expectMark m what) :=
  Firm.expect (map_ofKind _) (ψ := Token.rename t.names) (g := fun token => token) (fun _ => rfl)
    (fun _ => rfl) rfl

theorem Firm.expectName (what : Expected) :
    Firm t (Name.rename t.names) (expectName what) (expectName what) :=
  Firm.expect (map_ofKind _) (g := fun token => Name.mk token.lexeme token.line) (fun _ => rfl)
    (fun _ => rfl) rfl

theorem expectMark_eq_ok {m : Mark} {what : Expected} {c c' : Cursor} {token : Token}
    (h : expectMark m what c = .ok token c') :
    c.rest = token :: c'.rest ∧ token.kind = .mark m := by
  obtain ⟨rest, endLine, site, reported⟩ := c
  simp only [expectMark, bind_apply, takeMark?, Reader.take?, Reader.takeIf?] at h
  cases rest with
  | nil => cases h
  | cons token' l =>
    by_cases hk : token'.kind = .mark m
    · simp only [hk, if_true] at h
      cases h
      exact ⟨rfl, hk⟩
    · simp only [hk, if_false] at h
      cases h

end Reader

end LoxLang.Grammar
