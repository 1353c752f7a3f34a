import LoxLang.Proofs.Grammar.FaultOrder
import LoxLang.Proofs.Grammar.Progress

/-!
# Reading goes on to the end

A program is read declaration by declaration, each of which leaves at least one token behind, until
no token is left. What follows a program without faults is read as if it stood alone, whether it can
be read or not.

## Main results

* `readProgram_after`: tokens that follow a program.
* `reading_advances`: reading ends, at the end of the tokens, with faults in their order.
-/

namespace LoxLang.Grammar

namespace Production

variable {α : Type}

/-- A bound on the nesting that is large enough makes no difference. -/
theorem read_eq_read (p : Production α) (c : Cursor) {m n : Nat} (hm : p.bound c.rest.length ≤ m)
    (hn : p.bound c.rest.length ≤ n) : p.read m c = p.read n c :=
  (unroll_eq_read (fun q => q.read 0) p c (Nat.le_refl _) hm).symm.trans
    (unroll_eq_read (fun q => q.read 0) p c (Nat.le_refl _) hn)

/-- From every cursor on the calls of a reader come to an end, and it reads what `r` reads. -/
def Settles (p : Production α) (r : Reader α) : Prop :=
  ∀ (bottom : ∀ {β : Type}, Production β → Reader β) (c : Cursor) (k : Nat),
    p.bound c.rest.length ≤ k → unroll bottom k p c = r c

theorem settles_of_bound {p : Production α} {n : Cursor → Nat}
    (h : ∀ c, p.bound c.rest.length ≤ n c) : p.Settles fun c => p.read (n c) c :=
  fun bottom c _ hk => unroll_eq_read bottom p c hk (h c)

end Production

namespace Reader

/-- The cursor at which a reader stops, with a result or without. -/
def after {α : Type} (r : Reader α) (c : Cursor) : Cursor :=
  match r c with
  | .ok _ c' => c'
  | .error _ c' => c'

/-- Declarations are read as long as there are tokens. -/
theorem exists_declarations {n : Nat} {c : Cursor} (h : c.rest.length < n) :
    ∃ p c', declarations n c = .ok p c' ∧ c'.rest = [] := by
  induction n generalizing c with
  | zero => exact absurd h (Nat.not_lt_zero _)
  | succ n ih =>
    cases hrest : c.rest with
    | nil => exact ⟨[], c, declarations_of_nil hrest, hrest⟩
    | cons t l =>
      have hne : c.rest ≠ [] := by simp [hrest]
      obtain ⟨s, c₁, last, hs, hsuffix⟩ := Production.exists_recovering_declaration
        (r := fun c => declaration c.depth c) rfl hne
      have hlt := hsuffix.length_le
      rw [List.length_cons] at hlt
      obtain ⟨p, c', hp, hend⟩ := ih (c := c₁) (by omega)
      refine ⟨s.toList ++ p, c', ?_, hend⟩
      rw [declarations_of_ne_nil hne]
      simp only [hs, map_apply, hp]

end Reader

/-! ## Tokens after a program -/

/-- What follows a program without faults is read as if it stood alone: its statements come after
those of the program, and its faults are the same. Only an `else` may belong to the program. -/
theorem readProgram_after {ps qs : List Token} {endLine : Nat} {first mid : Site} {p : Program}
    (hp : readProgram ps endLine first = ⟨.ok p, mid⟩) (hq : NextIsNot (.keyword .else_) qs)
    (last : Nat) :
    readProgram (ps ++ qs) last first =
      ⟨(readProgram qs last mid).result.map (p ++ ·), (readProgram qs last mid).nextSite⟩ := by
  have helse : qs.head?.map (·.kind) ≠ some (.keyword .else_) := by
    intro h
    obtain ⟨t, ht, hkind⟩ := Option.map_eq_some_iff.mp h
    exact hq t ht hkind
  obtain ⟨k, hk, heq⟩ := exists_declarations_append hp helse last (m := (ps ++ qs).length + 1)
    (by simp; omega)
  have hbound : Reader.declarations k ⟨qs, last, mid, []⟩ =
      Reader.declarations (qs.length + 1) ⟨qs, last, mid, []⟩ :=
    Production.declarations.read_eq_read ⟨qs, last, mid, []⟩
      (by simp only [Production.bound]; simp at hk; omega) (Nat.le_refl _)
  simp only [readProgram, Reading.of, Reader.program, heq, Reader.map_apply, hbound]
  cases Reader.declarations (qs.length + 1) ⟨qs, last, mid, []⟩ with
  | error d c => rfl
  | ok q c =>
    dsimp only
    cases c.reported with
    | nil => rfl
    | cons d ds => rfl

/-- A statement before tokens with two faults. -/
theorem readProgram_after_malformed :
    let ps := (scan "if(a)b;").tokens
    let qs := (scan "c d;\nvar;").tokens
    (∃ p, readProgram ps 1 0 = ⟨.ok p, 2⟩) ∧ NextIsNot (.keyword .else_) qs ∧
      (readProgram (ps ++ qs) 2 0).faults =
        [.grammar (.expected .expressionEnd) (.lexeme "d" 1),
          .grammar (.expected .variableName) (.lexeme ";" 2)] ∧
      (readProgram (ps ++ qs) 2 0).nextSite = 3 := by
  intro ps qs
  have hp : ∃ p, readProgram ps 1 0 = ⟨.ok p, 2⟩ := by
    have hok : (readProgram ps 1 0).result.isOk := by decide +kernel
    have hmid : (readProgram ps 1 0).nextSite = 2 := by decide +kernel
    cases hr : (readProgram ps 1 0).result with
    | error ds => simp [hr, Except.isOk, Except.toBool] at hok
    | ok p => exact ⟨p, by rw [← hr, ← hmid]⟩
  have hq : NextIsNot (.keyword .else_) qs := by
    have hhead : qs.head? = some ⟨.identifier, "c", 1⟩ := by decide +kernel
    simp [NextIsNot, hhead]
  refine ⟨hp, hq, ?_⟩
  obtain ⟨p, hp⟩ := hp
  rw [readProgram_after hp hq 2, Reading.faults_map]
  have hnext : (readProgram qs 2 2).nextSite = 3 := by decide +kernel
  exact ⟨by decide +kernel, hnext⟩

/-! ## Going on to the end -/

namespace Reader

/-- A token that is taken is the one before the cursor then. -/
theorem rest_of_takeIf? {α : Type} {test : Token → Option α} {c c' : Cursor} {a : α}
    (h : takeIf? test c = .ok (some a) c') : ∃ t, c.rest = t :: c'.rest ∧ test t = some a := by
  unfold takeIf? at h
  cases hrest : c.rest with
  | nil => simp [hrest] at h
  | cons t l =>
    cases ht : test t with
    | none => simp [hrest, ht] at h
    | some b =>
      simp only [hrest, ht] at h
      cases h
      exact ⟨t, rfl, ht⟩

theorem tracks_wholeExpression {t : Passage} :
    Loose t (Expr.rename t.names) wholeExpression wholeExpression := by
  refine Loose.bind loose_expression fun e => Loose.bind Loose.isAtEnd fun ends => ?_
  cases ends with
  | true => exact .pure rfl
  | false => exact .fail fun _ => rfl

theorem tracks_program {t : Passage} (he : t.Exact) :
    Steady t (List.map (Stmt.rename t.names)) program program := by
  intro c
  have hlength : (t.cursor c).rest.length = c.rest.length := by simp [Passage.cursor, he.1]
  have h := tracks_declarations he (c.rest.length + 1) c
  unfold program
  rwa [hlength]

theorem keepsOrder_wholeExpression (last : Nat) : KeepsOrder last wholeExpression := by
  have hexpression : KeepsOrder last expression :=
    .bounded fun n => Production.assignment.keepsOrder_read n
  refine .bind hexpression fun e => .bind .isAtEnd fun ends => ?_
  cases ends with
  | true => exact .pure e
  | false => exact .fail _

theorem keepsOrder_program (last : Nat) : KeepsOrder last program :=
  fun c => Production.declarations.keepsOrder_read (c.rest.length + 1) c

theorem after_suffix {α : Type} (p : Production α) (n : Nat) (c : Cursor) :
    (after (p.read n) c).rest <:+ c.rest := by
  unfold after
  cases h : p.read n c with
  | ok a c' => exact (p.leads_of_read h).rest
  | error d c' => exact (p.leads_of_read_error h).rest

/-- A declaration fails with what is expected at the cursor. -/
theorem place_of_declaration_error {n : Nat} {c c' : Cursor} {d : Diagnostic}
    (h : declaration n c = .error d c') : ∃ what, d = .grammar (.expected what) c'.place := by
  have hkeeps : KeepsOrder 0 (declaration n) := Production.declaration.keepsOrder_read n
  have hc := hkeeps c
  rw [h] at hc
  exact hc.2

end Reader

/-- Reading ends on all tokens, since the calls of each reader end, and it ends behind the last
token. No reader goes back, a token that is taken is the one before the cursor, and each declaration
that is read or given up before the end leaves at least one token behind. Faults are found in the
order of the tokens. -/
theorem reading_advances (tokens : List Token) (endLine : Nat) (first : Site) :
    (Production.declarations.Settles Reader.program ∧
      Production.declaration.Settles (fun c => Reader.declaration c.depth c) ∧
      (Production.parameters 0).Settles (fun c => Reader.parameters c.depth 0 c) ∧
      Production.assignment.Settles Reader.expression) ∧
    (∃ p c, Reader.program ⟨tokens, endLine, first, []⟩ = .ok p c ∧ c.rest = []) ∧
    (∀ {α : Type} (p : Production α) (n : Nat) (c : Cursor),
      ((p.read n).after c).rest <:+ c.rest) ∧
    (∀ {α : Type} (test : Token → Option α) (c c' : Cursor) (a : α),
      Reader.takeIf? test c = .ok (some a) c' → ∃ t, c.rest = t :: c'.rest ∧ test t = some a) ∧
    (∀ (n : Nat) (c : Cursor), c.rest ≠ [] → ∃ s c' last,
      Reader.recovering (Reader.declaration n) c = .ok s c' ∧ last :: c'.rest <:+ c.rest) ∧
    (∀ (n : Nat) (c c' : Cursor) (d : Diagnostic), Reader.declaration n c = .error d c' →
      ∃ what, d = .grammar (.expected what) c'.place) ∧
    FaultsInOrder (readProgram · · first) tokens endLine ∧
    FaultsInOrder (readExpression · · first) tokens endLine := by
  have hdepth : ∀ (c : Cursor) {i : Nat}, i ≤ 16 → 16 * c.rest.length + i ≤ c.depth := by
    intro c i hi
    unfold Cursor.depth
    omega
  refine ⟨⟨?_, ?_, ?_, ?_⟩, ?_, ?_, ?_, ?_, ?_, ?_, ?_⟩
  · exact Production.settles_of_bound fun c => Nat.le_refl _
  · exact Production.settles_of_bound (n := Cursor.depth) fun c => hdepth c (by decide)
  · exact Production.settles_of_bound (n := Cursor.depth) fun c => hdepth c (by decide)
  · exact Production.settles_of_bound (n := Cursor.depth) fun c => hdepth c (by decide)
  · exact Reader.exists_declarations (Nat.lt_succ_self _)
  · exact Reader.after_suffix
  · exact fun test c c' a => Reader.rest_of_takeIf?
  · exact fun n c hc => Production.exists_recovering_declaration rfl hc
  · exact fun n c c' d => Reader.place_of_declaration_error
  · exact faultsInOrder_of (fun line => ⟨_, _, Reader.tracks_program ⟨rfl, rfl⟩⟩)
      Reader.keepsOrder_program tokens endLine first
  · exact faultsInOrder_of (fun line => ⟨_, _, Reader.tracks_wholeExpression⟩)
      Reader.keepsOrder_wholeExpression tokens endLine first

end LoxLang.Grammar
