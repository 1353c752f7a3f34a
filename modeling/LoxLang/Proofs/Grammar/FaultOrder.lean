import LoxLang.Proofs.Grammar.Production

/-!
# Faults in the order of the tokens

When the line of each token is its position, the line of a fault is the position at which it was
found. Faults are found from left to right, except that a wrong target of an assignment is noticed
only after the value. Where a declaration was given up, reading goes on behind that position, so
that no two declarations are given up at the same token.

## Main definitions

* `Diagnostic.InOrder`: faults that are in the order of their positions.
* `Reader.KeepsOrder`: a reader that adds faults in order.
* `FaultsInOrder`: what is read from whole sources has its faults in order.

## Main results

* `Production.keepsOrder_read`: all readers of the grammar keep the order.
* `faultsInOrder_of`: the faults of a whole source are in order.
-/

namespace LoxLang

namespace Diagnostic

/-- A fault with which reading cannot go on. -/
def isFatal : Diagnostic → Bool
  | .grammar (.expected _) _ => true
  | _ => false

/-- A wrong target of an assignment. -/
def isTarget : Diagnostic → Bool
  | .grammar .invalidAssignmentTarget _ => true
  | _ => false

/-- The positions of all faults but the wrong targets. -/
def positions (ds : List Diagnostic) : List Nat := (ds.filter (!·.isTarget)).map (·.line)

def fatalPositions (ds : List Diagnostic) : List Nat := (ds.filter (·.isFatal)).map (·.line)

/-- Faults in the order of their positions, where `last` is the position of the end. Only at the end
there can be more than one that is fatal. -/
structure InOrder (last : Nat) (ds : List Diagnostic) : Prop where
  sorted : (positions ds).Pairwise (· ≤ ·)
  fatal : (fatalPositions ds).Pairwise fun i j => i < j ∨ i = last ∧ j = last

@[simp] theorem positions_append (ds es : List Diagnostic) :
    positions (ds ++ es) = positions ds ++ positions es := by
  simp [positions]

@[simp] theorem fatalPositions_append (ds es : List Diagnostic) :
    fatalPositions (ds ++ es) = fatalPositions ds ++ fatalPositions es := by
  simp [fatalPositions]

namespace InOrder

variable {last : Nat} {ds : List Diagnostic} {what what' : Expected} {place place' : Place}

/-- One more fatal fault. -/
theorem append_expected_iff : InOrder last (ds ++ [.grammar (.expected what) place]) ↔
    InOrder last ds ∧ (∀ i ∈ positions ds, i ≤ place.line) ∧
      ∀ i ∈ fatalPositions ds, i < place.line ∨ i = last ∧ place.line = last := by
  have hpositions : positions [.grammar (.expected what) place] = [place.line] := rfl
  have hfatal : fatalPositions [.grammar (.expected what) place] = [place.line] := rfl
  constructor
  · rintro ⟨hsorted, hfatals⟩
    simp only [positions_append, fatalPositions_append, hpositions, hfatal, List.pairwise_append,
      List.mem_singleton, forall_eq] at hsorted hfatals
    exact ⟨⟨hsorted.1, hfatals.1⟩, hsorted.2.2, hfatals.2.2⟩
  · rintro ⟨h, hle, hlt⟩
    constructor
    · simp only [positions_append, hpositions, List.pairwise_append, List.mem_singleton, forall_eq]
      exact ⟨h.sorted, List.pairwise_singleton _ _, hle⟩
    · simp only [fatalPositions_append, hfatal, List.pairwise_append, List.mem_singleton, forall_eq]
      exact ⟨h.fatal, List.pairwise_singleton _ _, hlt⟩

/-- What can be found here can also be found further on. -/
theorem move (h : InOrder last (ds ++ [.grammar (.expected what) place]))
    (hle : place.line ≤ place'.line) (hlast : place'.line ≤ last) :
    InOrder last (ds ++ [.grammar (.expected what') place']) := by
  obtain ⟨hds, hpositions, hfatal⟩ := append_expected_iff.mp h
  refine append_expected_iff.mpr ⟨hds, fun i hi => ?_, fun i hi => ?_⟩
  · exact Nat.le_trans (hpositions i hi) hle
  · have := hfatal i hi
    omega

/-- After a fatal fault, the next one is further on or at the end. -/
theorem again (h : InOrder last (ds ++ [.grammar (.expected what) place]))
    (hlt : place.line < place'.line ∨ place.line = last ∧ place'.line = last) :
    InOrder last
      (ds ++ [.grammar (.expected what) place] ++ [.grammar (.expected what') place']) := by
  obtain ⟨-, hpositions, hfatal⟩ := append_expected_iff.mp h
  refine append_expected_iff.mpr ⟨h, fun i hi => ?_, fun i hi => ?_⟩
  · rw [positions_append, List.mem_append] at hi
    rcases hi with hi | hi
    · have := hpositions i hi
      omega
    · obtain rfl : i = place.line := List.mem_singleton.mp hi
      omega
  · rw [fatalPositions_append, List.mem_append] at hi
    rcases hi with hi | hi
    · have := hfatal i hi
      omega
    · obtain rfl : i = place.line := List.mem_singleton.mp hi
      exact hlt

/-- A fault with which reading goes on at the same place. -/
theorem report {d : Diagnostic} (hd : d.isFatal = false) (hline : d.isTarget ∨ d.line = place.line)
    (h : InOrder last (ds ++ [.grammar (.expected what) place])) :
    InOrder last (ds ++ [d] ++ [.grammar (.expected what) place]) := by
  obtain ⟨hds, hpositions, hfatal⟩ := append_expected_iff.mp h
  have hnone : fatalPositions [d] = [] := by simp [fatalPositions, hd]
  have hone : (positions [d]).Pairwise (· ≤ ·) := by
    cases htarget : d.isTarget <;> simp [positions, htarget]
  have hhere : ∀ i ∈ positions [d], i = place.line := by
    intro i hi
    obtain ⟨e, he, rfl⟩ := List.mem_map.mp hi
    obtain ⟨hmem, hnot⟩ := List.mem_filter.mp he
    obtain rfl := List.mem_singleton.mp hmem
    exact hline.resolve_left (by simpa using hnot)
  refine append_expected_iff.mpr ⟨⟨?_, ?_⟩, fun i hi => ?_, ?_⟩
  · rw [positions_append, List.pairwise_append]
    exact ⟨hds.sorted, hone, fun i hi j hj => hhere j hj ▸ hpositions i hi⟩
  · simpa [hnone] using hds.fatal
  · rcases List.mem_append.mp (positions_append ds [d] ▸ hi) with hi | hi
    · exact hpositions i hi
    · exact Nat.le_of_eq (hhere i hi)
  · simpa [hnone] using hfatal

/-- Only at the end there is more than one fatal fault. -/
theorem count_le_one (h : InOrder last ds) {i : Nat} (hi : i ≠ last) :
    (fatalPositions ds).count i ≤ 1 := by
  have hfatal := h.fatal
  generalize fatalPositions ds = positions at hfatal ⊢
  induction positions with
  | nil => simp
  | cons j l ih =>
    obtain ⟨hj, hl⟩ := List.pairwise_cons.mp hfatal
    by_cases hji : j = i
    · subst hji
      have hnot : j ∉ l := by
        intro hmem
        have := hj j hmem
        omega
      simp [List.count_eq_zero_of_not_mem hnot]
    · rw [List.count_cons_of_ne hji]
      exact ih hl

end InOrder

end Diagnostic

namespace Grammar

/-! ## Cursors over positions -/

/-- The lines of the tokens count up to the position of the end. -/
def Counted (last : Nat) : List Token → Prop
  | [] => True
  | t :: l => t.line + (l.length + 1) = last ∧ Counted last l

theorem Counted.suffix {last : Nat} {l m : List Token} (h : Counted last m) (hs : l <:+ m) :
    Counted last l := by
  obtain ⟨init, rfl⟩ := hs
  induction init with
  | nil => exact h
  | cons t init ih => exact ih h.2

namespace Cursor

/-- The lines are positions, and the faults reported so far are in order, with those that can be
found from here on. -/
structure InOrder (last : Nat) (c : Cursor) : Prop where
  endLine : c.endLine = last
  counted : Counted last c.rest
  faults : ∀ what, Diagnostic.InOrder last (c.reported ++ [.grammar (.expected what) c.place])

theorem line_place {last : Nat} {c : Cursor} (he : c.endLine = last) (hc : Counted last c.rest) :
    c.place.line + c.rest.length = last := by
  unfold Cursor.place
  cases hrest : c.rest with
  | nil => exact he
  | cons t l =>
    rw [hrest] at hc
    exact hc.1

namespace InOrder

variable {last : Nat} {c : Cursor}

theorem move (h : c.InOrder last) {l : List Token} (hs : l <:+ c.rest) :
    InOrder last { c with rest := l } := by
  have hcounted := h.counted.suffix hs
  have hline := line_place h.endLine h.counted
  have hline' := line_place (c := { c with rest := l }) h.endLine hcounted
  have hle := hs.length_le
  dsimp only at hline'
  exact ⟨h.endLine, hcounted, fun what => (h.faults what).move (by omega) (by omega)⟩

theorem report (h : c.InOrder last) {d : Diagnostic} (hd : d.isFatal = false)
    (hline : d.isTarget ∨ d.line = c.place.line) :
    InOrder last { c with reported := c.reported ++ [d] } :=
  ⟨h.endLine, h.counted, fun what => (h.faults what).report hd hline⟩

/-- Where reading goes on after a failure. -/
theorem recover (h : c.InOrder last) (what : Expected) : InOrder last
    { c with reported := c.reported ++ [.grammar (.expected what) c.place],
             rest := Grammar.recover c.rest } := by
  have hmoved := h.move (Reader.recover_suffix c.rest)
  have hline := line_place h.endLine h.counted
  have hline' := line_place hmoved.endLine hmoved.counted
  refine ⟨h.endLine, hmoved.counted, fun what' => (h.faults what).again ?_⟩
  change c.place.line < (Cursor.place { c with rest := Grammar.recover c.rest }).line ∨
    c.place.line = last ∧ (Cursor.place { c with rest := Grammar.recover c.rest }).line = last
  cases hrest : c.rest with
  | nil =>
    simp only [hrest, Grammar.recover, List.length_nil] at hline hline' ⊢
    omega
  | cons t l =>
    have hle := (Reader.skipToBorder_suffix t l).length_le
    simp only [hrest, Grammar.recover, List.length_cons] at hline hline' ⊢
    omega

end InOrder

end Cursor

/-! ## Readers that keep the order -/

namespace Reader

variable {α β : Type} {last : Nat}

/-- A reader reports faults in order. What it fails with is expected at the place where it fails. -/
def KeepsOrder (last : Nat) (r : Reader α) : Prop :=
  ∀ c : Cursor, match r c with
    | .ok _ c' => c.InOrder last → c'.InOrder last
    | .error d c' =>
      (c.InOrder last → c'.InOrder last) ∧ ∃ what, d = .grammar (.expected what) c'.place

namespace KeepsOrder

protected theorem pure (a : α) : KeepsOrder last (pure a) := fun _ => id

protected theorem bind {x : Reader β} {f : β → Reader α} (hx : KeepsOrder last x)
    (hf : ∀ b, KeepsOrder last (f b)) : KeepsOrder last (x >>= f) := by
  intro c
  have h := hx c
  rw [bind_apply]
  cases hxc : x c with
  | error d c' => simpa only [hxc] using h
  | ok b c' =>
    have h' := hf b c'
    simp only [hxc] at h ⊢
    cases hfc : f b c' with
    | ok a c'' =>
      simp only [hfc] at h' ⊢
      exact h' ∘ h
    | error d c'' =>
      simp only [hfc] at h' ⊢
      exact ⟨h'.1 ∘ h, h'.2⟩

protected theorem map {x : Reader β} {g : β → α} (hx : KeepsOrder last x) :
    KeepsOrder last (g <$> x) := .bind hx fun b => .pure (g b)

theorem fail (what : Expected) : KeepsOrder last (fail (α := α) what) := fun _ => ⟨id, what, rfl⟩

theorem reportHere {fault : GrammarFault} (h : ∀ what, fault ≠ .expected what) :
    KeepsOrder last (reportHere fault) := by
  intro c hc
  refine hc.report ?_ (.inr rfl)
  cases fault with
  | expected what => exact absurd rfl (h what)
  | _ => rfl

theorem freshSite : KeepsOrder last freshSite := fun _ h => ⟨h.endLine, h.counted, h.faults⟩

theorem isNext (kind : Token.Kind) : KeepsOrder last (isNext kind) := fun _ => id

theorem isAtEnd : KeepsOrder last isAtEnd := fun _ => id

theorem takeIf? (test : Token → Option α) : KeepsOrder last (takeIf? test) := by
  intro c
  unfold Reader.takeIf?
  cases hrest : c.rest with
  | nil => exact id
  | cons t l =>
    dsimp only
    cases test t with
    | none => exact id
    | some a => exact fun hc => hc.move (hrest ▸ List.suffix_cons t l)

theorem expectMark (m : Mark) (what : Expected) : KeepsOrder last (expectMark m what) := by
  refine .bind (takeIf? _) fun found => ?_
  cases found with
  | none => exact .fail what
  | some t => exact .pure t

theorem expectName (what : Expected) : KeepsOrder last (expectName what) := by
  refine .bind (takeIf? _) fun found => ?_
  cases found with
  | none => exact .fail what
  | some t => exact .pure _

theorem commaList {item : Reader α} {more : Reader (List α)} (hitem : KeepsOrder last item)
    (hmore : KeepsOrder last more) : KeepsOrder last (commaList item more) := by
  refine .bind hitem fun a => .bind (takeIf? _) fun comma => ?_
  cases comma with
  | none => exact .pure _
  | some _ => exact .bind hmore fun as => .pure _

theorem recovering {r : Reader Stmt} (hr : KeepsOrder last r) : KeepsOrder last (recovering r) := by
  intro c
  have h := hr c
  unfold Reader.recovering
  cases hrc : r c with
  | ok s c' => simpa only [hrc] using h
  | error d c' =>
    simp only [hrc] at h ⊢
    obtain ⟨hc', what, rfl⟩ := h
    exact fun hc => (hc' hc).recover what

/-- The bound on the nesting may depend on the cursor. -/
theorem bounded {r : Nat → Reader α} (h : ∀ n, KeepsOrder last (r n)) :
    KeepsOrder last fun c => r c.depth c := fun c => h c.depth c

theorem assignTo (sign : Token) (value target : Expr) :
    KeepsOrder last (assignTo sign value target) := by
  cases target with
  | «variable» site name => exact .bind freshSite fun site => .pure _
  | get object name => exact .pure _
  | _ => exact .bind (fun c hc => hc.report rfl (.inl rfl)) fun _ => .pure _

/-! ### Parts of statements -/

section Statements

variable (h : KeepsOrder last Reader.expression)
include h

theorem expressionUnless (m : Mark) : KeepsOrder last (expressionUnless m) := by
  refine .bind (isNext _) fun ends => ?_
  cases ends with
  | true => exact .pure none
  | false => exact .bind h fun e => .pure (some e)

theorem expressionStatement : KeepsOrder last expressionStatement :=
  .bind h fun _ => .bind (expectMark _ _) fun _ => .pure _

theorem printStatement : KeepsOrder last printStatement :=
  .bind h fun _ => .bind (expectMark _ _) fun _ => .pure _

theorem returnStatement (line : Nat) : KeepsOrder last (returnStatement line) :=
  .bind (expressionUnless h _) fun _ => .bind (expectMark _ _) fun _ => .pure _

theorem varDeclaration : KeepsOrder last varDeclaration := by
  refine .bind (expectName _) fun name => .bind (takeIf? _) fun equal => ?_
  have hend : ∀ init : Option Expr, KeepsOrder last
      (Reader.expectMark .semicolon .variableEnd >>= fun _ => pure (Stmt.var name init)) :=
    fun init => .bind (expectMark _ _) fun _ => .pure _
  cases equal with
  | none => exact .bind (.pure _) hend
  | some _ => exact .bind h fun e => .bind (.pure _) hend

theorem forClauses : KeepsOrder last forClauses := by
  refine .bind (expectMark _ _) fun _ => .bind (takeIf? _) fun semicolon => ?_
  have hafter : ∀ init : Option Stmt, KeepsOrder last (do
      let condition ← Reader.expressionUnless .semicolon
      let _ ← Reader.expectMark .semicolon .forConditionEnd
      let increment ← Reader.expressionUnless .rightParen
      let _ ← Reader.expectMark .rightParen .forClausesEnd
      return (init, condition, increment)) :=
    fun init => .bind (expressionUnless h _) fun _ => .bind (expectMark _ _) fun _ =>
      .bind (expressionUnless h _) fun _ => .bind (expectMark _ _) fun _ => .pure _
  cases semicolon with
  | some _ => exact .bind (.pure _) hafter
  | none =>
    refine .bind (takeIf? _) fun keyword => ?_
    cases keyword with
    | some _ => exact .bind (.map (varDeclaration h)) hafter
    | none => exact .bind (.map (expressionStatement h)) hafter

theorem condition (opening closing : Expected) : KeepsOrder last (condition opening closing) :=
  .bind (expectMark _ _) fun _ => .bind h fun e => .bind (expectMark _ _) fun _ => .pure e

end Statements

theorem superclass : KeepsOrder last superclass := by
  refine .bind (takeIf? _) fun less => ?_
  cases less with
  | none => exact .pure none
  | some _ => exact .bind (expectName _) fun name => .bind freshSite fun site => .pure _

theorem parameterList (h : ∀ n, KeepsOrder last (parameters n 0)) :
    KeepsOrder last parameterList := by
  rw [parameterList_eq]
  refine .bind (isNext _) fun closes => ?_
  cases closes with
  | true => exact .pure []
  | false => exact .bounded h

end KeepsOrder

end Reader

namespace Production

open Reader (KeepsOrder)

variable {α : Type} {last : Nat}

/-- Readers call only readers of the same layer. Those of lower layers are read with bounds of their
own. -/
def layer {α : Type} : Production α → Nat
  | .declarations => 2
  | .declaration | .classDeclaration | .methods | .routine _ => 1
  | .statement | .block | .blockItems => 1
  | _ => 0

section Body

variable {call : ∀ {β : Type}, Production β → Reader β}

theorem keepsOrder_callRest
    (h : ∀ {β : Type} (q : Production β), q.layer = 0 → KeepsOrder last (call q))
    (callee : Expr) : KeepsOrder last ((callRest callee).body call) := by
  refine .bind (.takeIf? _) fun paren => ?_
  cases paren with
  | none =>
    refine .bind (.takeIf? _) fun dot => ?_
    cases dot with
    | none => exact .pure callee
    | some _ => exact .bind (.expectName _) fun name => h (.callRest _) rfl
  | some _ =>
    have hafter : ∀ args, KeepsOrder last
        (Reader.expectMark .rightParen .argumentsEnd >>= fun paren =>
          call (.callRest (.call callee paren.line args))) :=
      fun args => .bind (.expectMark _ _) fun paren => h (.callRest _) rfl
    refine .bind (.isNext _) fun closes => ?_
    cases closes with
    | true => exact .bind (.pure _) hafter
    | false => exact .bind (h (.arguments 0) rfl) hafter

theorem keepsOrder_primary (h : KeepsOrder last (call .assignment)) :
    KeepsOrder last (primary.body call) := by
  refine .bind (.takeIf? _) fun value => ?_
  cases value with
  | some value => exact .pure _
  | none =>
  refine .bind (.takeIf? _) fun keyword => ?_
  cases keyword with
  | some keyword =>
    refine .bind (.expectMark _ _) fun _ => .bind (.expectName _) fun method => ?_
    exact .bind .freshSite fun site => .pure _
  | none =>
  refine .bind (.takeIf? _) fun keyword => ?_
  cases keyword with
  | some keyword => exact .bind .freshSite fun site => .pure _
  | none =>
  refine .bind (.takeIf? _) fun token => ?_
  cases token with
  | some token => exact .bind .freshSite fun site => .pure _
  | none =>
  refine .bind (.takeIf? _) fun paren => ?_
  cases paren with
  | some paren => exact .bind h fun inner => .bind (.expectMark _ _) fun _ => .pure _
  | none => exact .fail _

theorem keepsOrder_expression (p : Production α) (hp : p.layer = 0)
    (h : ∀ {β : Type} (q : Production β), q.layer = 0 → KeepsOrder last (call q)) :
    KeepsOrder last (p.body call) := by
  cases p with
  | assignment =>
    refine .bind (h (.operation _) rfl) fun target => .bind (.takeIf? _) fun sign => ?_
    cases sign with
    | none => exact .pure target
    | some sign => exact .bind (h .assignment rfl) fun value => .assignTo sign value target
  | operation tiers =>
    cases tiers with
    | nil => exact h .unary rfl
    | cons tier tiers =>
      exact .bind (h (.operation tiers) rfl) fun left => h (.operationRest _ _ _) rfl
  | operationRest tier tiers left =>
    refine .bind (.takeIf? _) fun found => ?_
    cases found with
    | none => exact .pure left
    | some found => exact .bind (h (.operation tiers) rfl) fun right => h (.operationRest _ _ _) rfl
  | unary =>
    refine .bind (.takeIf? _) fun found => ?_
    cases found with
    | none => exact .bind (h .primary rfl) fun e => h (.callRest e) rfl
    | some found => exact .bind (h .unary rfl) fun operand => .pure _
  | callRest callee => exact keepsOrder_callRest h callee
  | arguments count =>
    have hitems := KeepsOrder.commaList (h .assignment rfl) (h (.arguments (count + 1)) rfl)
    rw [body]
    split
    · exact .bind (.reportHere (by simp)) fun _ => hitems
    · exact hitems
  | primary => exact keepsOrder_primary (h .assignment rfl)
  | parameters count =>
    have hitems := KeepsOrder.commaList (.expectName .parameterName)
      (h (.parameters (count + 1)) rfl)
    rw [body]
    split
    · exact .bind (.reportHere (by simp)) fun _ => hitems
    · exact hitems
  | _ => cases hp

theorem keepsOrder_statementBody (he : KeepsOrder last Reader.expression)
    (hs : KeepsOrder last (call .statement)) (hb : KeepsOrder last (call .block)) :
    KeepsOrder last (statement.body call) := by
  refine .bind (.takeIf? _) fun keyword => ?_
  cases keyword with
  | some _ => exact .bind (.forClauses he) fun clauses => .bind hs fun body => .pure _
  | none =>
  refine .bind (.takeIf? _) fun keyword => ?_
  cases keyword with
  | some _ =>
    refine .bind (.condition he _ _) fun condition => .bind hs fun then_ => ?_
    refine .bind (.takeIf? _) fun else_ => ?_
    cases else_ with
    | none => exact .pure _
    | some _ => exact .bind hs fun else_ => .pure _
  | none =>
  refine .bind (.takeIf? _) fun keyword => ?_
  cases keyword with
  | some _ => exact .printStatement he
  | none =>
  refine .bind (.takeIf? _) fun keyword => ?_
  cases keyword with
  | some keyword => exact .returnStatement he keyword.line
  | none =>
  refine .bind (.takeIf? _) fun keyword => ?_
  cases keyword with
  | some _ => exact .bind (.condition he _ _) fun condition => .bind hs fun body => .pure _
  | none =>
  refine .bind (.takeIf? _) fun brace => ?_
  cases brace with
  | some _ => exact .bind hb fun body => .pure _
  | none => exact .expressionStatement he

theorem keepsOrder_items {r : Reader Stmt} {more : Reader (List Stmt)} (hr : KeepsOrder last r)
    (hmore : KeepsOrder last more) : KeepsOrder last (do
      if ← Reader.isAtEnd then return []
      let s ← Reader.recovering r
      return s.toList ++ (← more)) := by
  refine .bind .isAtEnd fun ends => ?_
  cases ends with
  | true => exact .pure []
  | false => exact .bind (.recovering hr) fun s => .bind hmore fun rest => .pure _

theorem keepsOrder_statement (he : KeepsOrder last Reader.expression)
    (hl : KeepsOrder last Reader.parameterList) (p : Production α) (hp : p.layer = 1)
    (h : ∀ {β : Type} (q : Production β), q.layer = 1 → KeepsOrder last (call q)) :
    KeepsOrder last (p.body call) := by
  cases p with
  | declaration =>
    refine .bind (.takeIf? _) fun keyword => ?_
    cases keyword with
    | some _ => exact h .classDeclaration rfl
    | none =>
    refine .bind (.takeIf? _) fun keyword => ?_
    cases keyword with
    | some _ => exact .map (h (.routine .function) rfl)
    | none =>
    refine .bind (.takeIf? _) fun keyword => ?_
    cases keyword with
    | some _ => exact .varDeclaration he
    | none => exact h .statement rfl
  | classDeclaration =>
    refine .bind (.expectName _) fun name => .bind .superclass fun parent => ?_
    refine .bind (.expectMark _ _) fun _ => .bind (h .methods rfl) fun methods => ?_
    exact .bind (.expectMark _ _) fun _ => .pure _
  | methods =>
    refine .bind (.isNext _) fun closes => ?_
    cases closes with
    | true => exact .pure []
    | false =>
    refine .bind .isAtEnd fun ends => ?_
    cases ends with
    | true => exact .pure []
    | false =>
      refine .bind (h (.routine .method) rfl) fun method => ?_
      exact .bind (h .methods rfl) fun rest => .pure _
  | routine kind =>
    refine .bind (.expectName _) fun name => .bind (.expectMark _ _) fun _ => ?_
    refine .bind hl fun params => .bind (.expectMark _ _) fun _ => .bind (.expectMark _ _) fun _ => ?_
    exact .bind (h .block rfl) fun body => .pure _
  | statement => exact keepsOrder_statementBody he (h .statement rfl) (h .block rfl)
  | block => exact .bind (h .blockItems rfl) fun body => .bind (.expectMark _ _) fun _ => .pure body
  | blockItems =>
    refine .bind (.isNext _) fun closes => ?_
    cases closes with
    | true => exact .pure []
    | false => exact keepsOrder_items (h .declaration rfl) (h .blockItems rfl)
  | _ => cases hp

theorem keepsOrder_program (hd : KeepsOrder last fun c => Reader.declaration c.depth c)
    (p : Production α) (hp : p.layer = 2)
    (h : ∀ {β : Type} (q : Production β), q.layer = 2 → KeepsOrder last (call q)) :
    KeepsOrder last (p.body call) := by
  cases p with
  | declarations => exact keepsOrder_items hd (h .declarations rfl)
  | _ => cases hp

end Body

theorem keepsOrder_read_zero (p : Production α) : KeepsOrder last (p.read 0) := by
  cases p with
  | blockItems | declarations => exact .pure []
  | _ => exact .fail _

/-- Within a layer, by induction on the bound. -/
theorem keepsOrder_layer {l : Nat}
    (hbody : ∀ {call : ∀ {β : Type}, Production β → Reader β} {β : Type} (p : Production β),
      p.layer = l → (∀ {β : Type} (q : Production β), q.layer = l → KeepsOrder last (call q)) →
        KeepsOrder last (p.body call))
    (n : Nat) (p : Production α) (hp : p.layer = l) : KeepsOrder last (p.read n) := by
  induction n generalizing α p with
  | zero => exact p.keepsOrder_read_zero
  | succ n ih =>
    rw [read_succ]
    exact hbody p hp fun q hq => ih q hq

/-- All readers of the grammar report faults in order. -/
theorem keepsOrder_read (p : Production α) (n : Nat) : KeepsOrder last (p.read n) := by
  -- From the lowest layer up, as readers of lower layers are called with any bound.
  have hexpression : KeepsOrder last Reader.expression :=
    .bounded fun n => keepsOrder_layer keepsOrder_expression n .assignment rfl
  have hparameters : KeepsOrder last Reader.parameterList :=
    .parameterList fun n => keepsOrder_layer keepsOrder_expression n (.parameters 0) rfl
  have hdeclaration : KeepsOrder last fun c => Reader.declaration c.depth c :=
    .bounded fun n =>
      keepsOrder_layer (keepsOrder_statement hexpression hparameters) n .declaration rfl
  obtain hp | hp | hp : p.layer = 0 ∨ p.layer = 1 ∨ p.layer = 2 := by cases p <;> simp [layer]
  · exact keepsOrder_layer keepsOrder_expression n p hp
  · exact keepsOrder_layer (keepsOrder_statement hexpression hparameters) n p hp
  · exact keepsOrder_layer (keepsOrder_program hdeclaration) n p hp

end Production

/-! ## Whole sources -/

namespace Reading

variable {α : Type}

/-- The faults of what was read. -/
def faults (r : Reading α) : List Diagnostic :=
  match r.result with
  | .ok _ => []
  | .error ds => ds

theorem faults_map {β : Type} (g : α → β) (r : Reading α) :
    faults ⟨r.result.map g, r.nextSite⟩ = r.faults := by
  unfold faults
  cases r.result <;> rfl

theorem faults_of {r : Reader α} (tokens : List Token) (endLine : Nat) (first : Site) :
    (of r tokens endLine first).faults = match r ⟨tokens, endLine, first, []⟩ with
      | .ok _ c => c.reported
      | .error d c => c.reported ++ [d] := by
  unfold of
  cases r ⟨tokens, endLine, first, []⟩ with
  | ok a c => cases hc : c.reported <;> simp [faults, hc]
  | error d c => rfl

theorem faults_inOrder {last : Nat} {r : Reader α} (h : Reader.KeepsOrder last r)
    {tokens : List Token} (htokens : Counted last tokens) (first : Site) :
    Diagnostic.InOrder last (of r tokens last first).faults := by
  have hstart : Cursor.InOrder last ⟨tokens, last, first, []⟩ :=
    ⟨rfl, htokens, fun what => ⟨List.pairwise_singleton _ _, List.pairwise_singleton _ _⟩⟩
  have hr := h ⟨tokens, last, first, []⟩
  rw [faults_of]
  cases hread : r ⟨tokens, last, first, []⟩ with
  | ok a c =>
    simp only [hread] at hr ⊢
    exact (Diagnostic.InOrder.append_expected_iff.mp ((hr hstart).faults .expression)).1
  | error d c =>
    simp only [hread] at hr ⊢
    obtain ⟨hc, what, rfl⟩ := hr
    exact (hc hstart).faults what

/-- On other lines the same faults are found. -/
theorem faults_rename {line : Nat → Nat} {ready : Cursor → Prop} {φ : α → α} {r : Reader α}
    (h : Reader.Tracks ⟨0, line, [], line⟩ ready φ r r) (tokens : List Token) (endLine : Nat)
    (first : Site) :
    (of r (tokens.map (·.rename (.ofLine line))) (line endLine) first).faults =
      (of r tokens endLine first).faults.map (·.rename (.ofLine line)) := by
  let t : Passage := ⟨0, line, [], line⟩
  have he : t.Exact := ⟨rfl, rfl⟩
  have hcursor : t.cursor ⟨tokens, endLine, first, []⟩ =
      ⟨tokens.map (·.rename (.ofLine line)), line endLine, first, []⟩ := by
    simp only [Passage.cursor, t, List.append_nil]
    rfl
  rw [faults_of, faults_of, ← hcursor]
  cases hread : r ⟨tokens, endLine, first, []⟩ with
  | ok a c =>
    rw [h.ok hread (.inl he)]
    rfl
  | error d c =>
    rw [h.error hread he]
    rw [List.map_append]
    rfl

end Reading

/-- Tokens whose lines are their positions. -/
def numbered (tokens : List Token) : List Token := tokens.mapIdx fun i t => { t with line := i }

/-- The line of the token at a position. -/
def lineAt (tokens : List Token) (endLine i : Nat) : Nat := (tokens[i]?.map (·.line)).getD endLine

theorem counted_numbered (tokens : List Token) : Counted tokens.length (numbered tokens) := by
  -- The first token may have any position.
  have h : ∀ (l : List Token) (i : Nat),
      Counted (i + l.length) (l.mapIdx fun j t => { t with line := i + j }) := by
    intro l
    induction l with
    | nil => exact fun i => trivial
    | cons t l ih =>
      intro i
      have hl := ih (i + 1)
      rw [List.mapIdx_cons]
      refine ⟨by simp, ?_⟩
      simpa only [List.length_cons, Nat.add_assoc, Nat.add_comm 1] using hl
  simpa only [numbered, Nat.zero_add] using h tokens 0

theorem map_rename_numbered (tokens : List Token) (endLine : Nat) :
    (numbered tokens).map (·.rename (.ofLine (lineAt tokens endLine))) = tokens := by
  refine List.ext_getElem (by simp [numbered]) fun i _ hi => ?_
  simp [numbered, Token.rename, Renaming.ofLine, lineAt, hi]

theorem lineAt_length (tokens : List Token) (endLine : Nat) :
    lineAt tokens endLine tokens.length = endLine := by
  simp [lineAt]

/-- The faults found in tokens are those found at the positions of the tokens, in order, and at most
one at each position is fatal, unless it is the end. -/
def FaultsInOrder {α : Type} (read : List Token → Nat → Reading α) (tokens : List Token)
    (endLine : Nat) : Prop :=
  let found := (read (numbered tokens) tokens.length).faults
  (read tokens endLine).faults = found.map (·.rename (.ofLine (lineAt tokens endLine))) ∧
    Diagnostic.InOrder tokens.length found ∧
    ∀ i ≠ tokens.length, (Diagnostic.fatalPositions found).count i ≤ 1

theorem faultsInOrder_of {α : Type} {r : Reader α}
    (hr : ∀ line, ∃ ready φ, Reader.Tracks ⟨0, line, [], line⟩ ready φ r r)
    (hk : ∀ last, Reader.KeepsOrder last r) (tokens : List Token) (endLine : Nat) (first : Site) :
    FaultsInOrder (Reading.of r · · first) tokens endLine := by
  obtain ⟨ready, φ, htracks⟩ := hr (lineAt tokens endLine)
  have hlines := Reading.faults_rename htracks (numbered tokens) tokens.length first
  rw [map_rename_numbered, lineAt_length] at hlines
  have horder := Reading.faults_inOrder (hk _) (counted_numbered tokens) first
  exact ⟨hlines, horder, fun i hi => horder.count_le_one hi⟩

end Grammar

end LoxLang
