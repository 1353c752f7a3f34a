import LoxLang.Proofs.Machine.Extent
import LoxLang.Proofs.Machine.Holdings
import LoxLang.Proofs.Session.Safety

/-!
# The course of a session

The machine of a session is started for one request after the other, and for some requests more than
once. The starts in their order say through which configurations it goes. What a step keeps, and what
is kept when the machine rests and is started again, holds from some moment on for the rest of the
session.

## Main definitions

* `Session.Answers`: how a request runs the machine.
* `Session.Course`: all starts of the machine in a session, the last request included.
* `Session.Visits`, `Session.Precedes`: configurations that the machine comes to, and their order.
* `Session.Persists`: what is kept from one configuration to the next.

## Main results

* `Persists.precedes`, `Persists.visits`, `Persists.reachable`: what persists holds at all later
  configurations.
* `Persists.exists_visits`: what ends is ended by some step.
* `Course.precedes_of_lt`: of two moments the one with less of what never gets less is the earlier.
* `Course.le`: the scopes keep their names and the reserved words their values.
-/

namespace LoxLang

open Scoping Machine

namespace Machine.State

/-- At rest. -/
def idle (s : State) : Config := ⟨.value .nil, [], s⟩

/-- The configurations from which the machine may go on when it was at rest. -/
inductive Begins (s : State) : Config → Prop where
  | rest : Begins s s.idle
  | evaluate (e : Expr) : Begins s (s.evaluating e)
  | execute (stmt : Stmt) : Begins s (s.executing stmt)
  | interpret (p : Program) : Begins s (s.interpreting p)

/-- A machine that starts holds nothing but what is in the store. -/
theorem Begins.holds {s : State} {c : Config} {v : Value} (h : s.Begins c) (hv : c.Holds v) :
    v.IsPlain ∨ s.store.Holds v := by
  have hnil : ∀ {c : Config}, c.values = [.nil] → v ∈ c.values → v.IsPlain := by
    intro c hc hv
    obtain rfl := List.mem_singleton.mp (hc ▸ hv)
    trivial
  cases h with
  | rest => exact hv.imp_left (hnil rfl)
  | evaluate e => exact hv.imp_left nofun
  | execute stmt => exact hv.imp_left nofun
  | interpret p => exact hv.imp_left (hnil rfl)

/-- In the beginning there are no functions, classes and objects. -/
theorem isPlain_of_holds_initial {clock : Clock} {room : Option Room} {v : Value}
    (h : (State.initial clock room).idle.Holds v) : v.IsPlain := by
  rcases Begins.rest.holds h with h | h
  · exact h
  · rcases holds_addScope h with ⟨name, h⟩ | h
    · rw [eq_of_get?_singleton h]
      trivial
    · rcases h with h | h
      · simp [Store.lookup?, Store.empty] at h
      · simp [Store.field?, Store.empty] at h

end Machine.State

namespace Session

/-! ## Requests -/

/-- How a request runs the machine: it is rejected, or the machine is started a number of times, each
time from where it ended before. -/
inductive Answers (steps : Nat) : Session → List Config → List Report → Session → Prop where
  | rejected (r : Rejection) : Answers steps s [] [.rejected r] s
  | done : Answers steps s [] [] s
  | last (hc : s.machine.Begins c) :
      Answers steps s [c] [(s.continueWith (Machine.run steps c)).1]
        (s.continueWith (Machine.run steps c)).2
  | next {s s' : Session} {c : Config} {o : Outcome} {starts : List Config}
      {reports : List Report} (hc : s.machine.Begins c) (ho : (Machine.run steps c).outcome? = some o)
      (h : Answers steps { s with machine := (Machine.run steps c).state } starts reports s') :
      Answers steps s (c :: starts) (.ended o :: reports) s'

theorem answers_executeEach (steps : Nat) (s : Session) (p : Program) :
    Answers steps s (s.statementStarts steps p) (s.executeEach steps p).1
      (s.executeEach steps p).2 := by
  induction p generalizing s with
  | nil => exact .done
  | cons stmt rest ih =>
    have hlast : Answers steps s _ _ _ := .last (.execute stmt)
    rw [statementStarts, executeEach]
    unfold continueWith at hlast ⊢
    cases ho : (Machine.run steps (s.machine.executing stmt)).outcome? with
    | none =>
      rw [ho] at hlast
      exact hlast
    | some o =>
      rw [ho] at hlast
      cases o with
      | value v => exact .next (.execute stmt) ho (ih _)
      | returned v => exact .next (.execute stmt) ho (ih _)
      | failed f => exact hlast

/-- Before it runs the machine, a request changes at most its table. -/
theorem exists_answers_perform (steps : Nat) (s : Session) (r : Request) :
    ∃ table nextSite, Answers steps ⟨{ s.machine with table := table }, nextSite⟩
      (s.starts steps r) (s.perform steps r).1 (s.perform steps r).2 := by
  cases r with
  | evaluate source =>
    refine ⟨s.machine.table, (s.readExpression source).2.nextSite, ?_⟩
    unfold starts perform Session.evaluate
    cases hread : s.readExpression source with
    | mk result s' =>
      have hm : s'.machine = s.machine := (congrArg (·.2.machine) hread).symm
      simp only [hread]
      rw [← hm]
      cases result with
      | error r => exact .rejected r
      | ok e => exact .last (.evaluate e)
  | interpret source tied =>
    obtain ⟨table, hm⟩ := s.exists_machine_readProgram source tied
    refine ⟨table, (s.readProgram source tied).2.nextSite, ?_⟩
    unfold starts perform Session.interpret
    cases hread : s.readProgram source tied with
    | mk result s' =>
      rw [hread] at hm
      simp only [hread]
      rw [← hm]
      cases result with
      | error r => exact .rejected r
      | ok p => exact .last (.interpret p)
  | execute source tied =>
    obtain ⟨table, hm⟩ := s.exists_machine_readProgram source tied
    refine ⟨table, (s.readProgram source tied).2.nextSite, ?_⟩
    unfold starts perform Session.execute
    cases hread : s.readProgram source tied with
    | mk result s' =>
      rw [hread] at hm
      simp only [hread]
      rw [← hm]
      cases result with
      | error r => exact .rejected r
      | ok p => exact answers_executeEach steps s' p

/-! ## Histories -/

/-- A session together with the starts of its machine so far. The first one is where the machine rests
before there was any request. -/
inductive History : Session → List Config → Prop where
  | start (clock : Clock) (room : Option Room) :
      History (.start clock room) [(State.initial clock room).idle]
  | clearOutput {starts : List Config} : History s starts → History s.clearOutput starts
  | setClock {starts : List Config} (reading : Nat → Float) : History s starts →
      History (s.setClock reading) starts
  | perform {starts : List Config} : History s starts →
      (∀ report ∈ (s.perform steps r).1, report.isFinished) →
        History (s.perform steps r).2 (starts ++ s.starts steps r)

theorem History.reachable {s : Session} {starts : List Config} (h : s.History starts) :
    s.Reachable := by
  induction h with
  | start clock room => exact .start clock room
  | clearOutput _ ih => exact ih.clearOutput
  | setClock reading _ ih => exact ih.setClock reading
  | perform _ hf ih => exact ih.perform hf

theorem Reachable.exists_history {s : Session} (h : s.Reachable) : ∃ starts, s.History starts := by
  induction h with
  | start clock room => exact ⟨_, .start clock room⟩
  | clearOutput _ ih =>
    obtain ⟨starts, h⟩ := ih
    exact ⟨starts, h.clearOutput⟩
  | setClock reading _ ih =>
    obtain ⟨starts, h⟩ := ih
    exact ⟨starts, h.setClock reading⟩
  | perform _ hf ih =>
    obtain ⟨starts, h⟩ := ih
    exact ⟨_, h.perform hf⟩

/-- The starts of the machine in a session, in their order. Its last request may go on for ever. -/
inductive Course : List Config → Prop where
  | intro {starts : List Config} (h : History s starts) (steps : Nat) (r : Request) :
      Course (starts ++ s.starts steps r)

/-- The machine comes to a configuration. -/
inductive Visits (starts : List Config) : Config → Prop where
  | intro (h : c ∈ starts) (n : Nat) : Visits starts (Machine.run n c)

/-- The machine comes to a configuration, and then or later to another one. -/
inductive Precedes (starts : List Config) : Config → Config → Prop where
  | run (h : c ∈ starts) (m n : Nat) :
      Precedes starts (Machine.run m c) (Machine.run (m + n) c)
  | later (h : [c, c'].Sublist starts) (m n : Nat) :
      Precedes starts (Machine.run m c) (Machine.run n c')

theorem Precedes.run_right {starts : List Config} {c c' : Config} (h : Precedes starts c c')
    (n : Nat) : Precedes starts c (Machine.run n c') := by
  cases h with
  | run h m k =>
    rw [← run_add, Nat.add_assoc]
    exact .run h m (k + n)
  | later h m k =>
    rw [← run_add]
    exact .later h m (k + n)

theorem sublist_or_sublist {starts : List Config} {c c' : Config} (h : c ∈ starts)
    (h' : c' ∈ starts) (hne : c ≠ c') : [c, c'].Sublist starts ∨ [c', c].Sublist starts := by
  induction starts with
  | nil => cases h
  | cons first rest ih =>
    rcases List.mem_cons.mp h with rfl | hc <;> rcases List.mem_cons.mp h' with rfl | hc'
    · exact absurd rfl hne
    · exact .inl ((List.singleton_sublist.mpr hc').cons_cons _)
    · exact .inr ((List.singleton_sublist.mpr hc).cons_cons _)
    · exact (ih hc hc').imp (·.cons _) (·.cons _)

/-- Of two moments one is the earlier. -/
theorem Visits.precedes_or {starts : List Config} {c c' : Config} (h : Visits starts c)
    (h' : Visits starts c') : Precedes starts c c' ∨ Precedes starts c' c := by
  obtain ⟨hmem, m⟩ := h
  obtain ⟨hmem', n⟩ := h'
  rename_i c c'
  by_cases he : c = c'
  · subst he
    rcases Nat.le_total m n with hle | hle
    · obtain ⟨d, rfl⟩ := Nat.exists_eq_add_of_le hle
      exact .inl (.run hmem m d)
    · obtain ⟨d, rfl⟩ := Nat.exists_eq_add_of_le hle
      exact .inr (.run hmem n d)
  · rcases sublist_or_sublist hmem hmem' he with hl | hl
    · exact .inl (.later hl m n)
    · exact .inr (.later hl n m)

theorem Precedes.eq_or_step {starts : List Config} {c c' : Config} (h : Precedes starts c c') :
    c = c' ∨ Precedes starts (Machine.step c) c' := by
  cases h with
  | run h m n =>
    cases n with
    | zero => exact .inl rfl
    | succ n =>
      rw [← run_succ', Nat.add_comm n, ← Nat.add_assoc]
      exact .inr (.run h (m + 1) n)
  | later h m n =>
    rw [← run_succ']
    exact .inr (.later h (m + 1) n)

/-! ## What persists -/

/-- What a step from some configurations keeps, and what is kept when the machine rests and goes
on. -/
structure Persists (V I : Config → Prop) : Prop where
  step : ∀ {c}, V c → I c → I (Machine.step c)
  rests : ∀ {c}, c.isFinal → I c → I c.state.idle
  begins : ∀ {s : State} {table output clock c}, I s.idle →
    State.Begins { s with table := table, output := output, clock := clock } c → I c

namespace Persists

variable {V I : Config → Prop} (hI : Persists V I) {s s' : Session} {c : Config}

include hI

/-- From one moment of a run to a later one. -/
theorem run_add (hc : ∀ n, V (Machine.run n c)) {m : Nat} (h : I (Machine.run m c)) (n : Nat) :
    I (Machine.run (m + n) c) := by
  induction n with
  | zero => exact h
  | succ n ih =>
    rw [← Nat.add_assoc, run_succ']
    exact hI.step (hc _) ih

/-- What held at some moment of a run holds when the machine rests after it. -/
theorem idle_of_run (hc : ∀ n, V (Machine.run n c)) {o : Outcome} {steps m : Nat}
    (ho : (Machine.run steps c).outcome? = some o) (h : I (Machine.run m c)) :
    I (Machine.run steps c).state.idle := by
  have hfinal := Config.isFinal_of_outcome? ho
  refine hI.rests hfinal ?_
  rcases Nat.le_total m steps with hle | hle
  · obtain ⟨n, rfl⟩ := Nat.exists_eq_add_of_le hle
    exact hI.run_add hc h n
  · obtain ⟨n, rfl⟩ := Nat.exists_eq_add_of_le hle
    rwa [Machine.run_add, run_of_isFinal hfinal] at h

omit hI

/-- What held before or during the runs of a request holds at its later starts, and after it if all
runs end. -/
structure Passes (I : Config → Prop) (s : Session) (starts : List Config) (reports : List Report)
    (s' : Session) : Prop where
  begins : I s.machine.idle → ∀ c ∈ starts, I c
  goesOn : starts.Pairwise fun c c' => ∀ m, I (Machine.run m c) → I c'
  ends : (∀ report ∈ reports, report.isFinished) →
    (∀ c ∈ starts, ∀ m, I (Machine.run m c) → I s'.machine.idle) ∧
      (I s.machine.idle → I s'.machine.idle)

include hI

theorem passes_of_answers {steps : Nat} {starts : List Config} {reports : List Report}
    (h : Answers steps s starts reports s') (hV : ∀ c ∈ starts, ∀ n, V (Machine.run n c)) :
    Passes I s starts reports s' := by
  induction h with
  | rejected r => exact ⟨by simp, .nil, fun _ => ⟨by simp, fun h => h⟩⟩
  | done => exact ⟨by simp, .nil, fun _ => ⟨by simp, fun h => h⟩⟩
  | @last s c hc =>
    have hbegins : I s.machine.idle → I c := fun h => hI.begins h hc
    refine ⟨by simpa using hbegins, List.pairwise_singleton _ _, fun hf => ?_⟩
    obtain ⟨o, ho⟩ := exists_outcome?_of_isFinished (hf _ List.mem_cons_self)
    have hends : ∀ m, I (Machine.run m c) → I (Machine.run steps c).state.idle :=
      fun m => hI.idle_of_run (hV c List.mem_cons_self) ho
    exact ⟨by simpa [continueWith] using hends, fun h => hends 0 (hbegins h)⟩
  | @next s s' c o starts reports hc ho h ih =>
    have ih := ih fun c hc => hV c (List.mem_cons_of_mem _ hc)
    have hbegins : I s.machine.idle → I c := fun h => hI.begins h hc
    have hidle : ∀ m, I (Machine.run m c) → I (Machine.run steps c).state.idle :=
      fun m => hI.idle_of_run (hV c List.mem_cons_self) ho
    refine ⟨fun h => ?_, ?_, fun hf => ?_⟩
    · exact List.forall_mem_cons.mpr ⟨hbegins h, ih.begins (hidle 0 (hbegins h))⟩
    · exact List.pairwise_cons.mpr ⟨fun c' hc' m h => ih.begins (hidle m h) c' hc', ih.goesOn⟩
    · obtain ⟨hends, hskips⟩ := ih.ends fun report hr => hf report (List.mem_cons_of_mem _ hr)
      exact ⟨List.forall_mem_cons.mpr ⟨fun m h => hskips (hidle m h), hends⟩,
        fun h => hskips (hidle 0 (hbegins h))⟩

theorem passes_perform {steps : Nat} {r : Request}
    (hV : ∀ c ∈ s.starts steps r, ∀ n, V (Machine.run n c)) :
    Passes I s (s.starts steps r) (s.perform steps r).1 (s.perform steps r).2 := by
  obtain ⟨table, nextSite, ha⟩ := s.exists_answers_perform steps r
  have hpasses := hI.passes_of_answers ha hV
  have hread : I s.machine.idle → I ({ s.machine with table := table } : State).idle :=
    fun h => hI.begins (s := s.machine) h .rest
  exact ⟨fun h => hpasses.begins (hread h), hpasses.goesOn, fun hf =>
    (hpasses.ends hf).imp_right fun hskips h => hskips (hread h)⟩

omit hI

/-- What held at some moment of a history holds at its later starts and where it has come to. -/
structure Endures (I : Config → Prop) (s : Session) (starts : List Config) : Prop where
  goesOn : starts.Pairwise fun c c' => ∀ m, I (Machine.run m c) → I c'
  ends : ∀ c ∈ starts, ∀ m, I (Machine.run m c) → I s.machine.idle

theorem Endures.goesOn_append {starts later : List Config} {reports : List Report}
    (h : Endures I s starts) (hp : Passes I s later reports s') :
    (starts ++ later).Pairwise fun c c' => ∀ m, I (Machine.run m c) → I c' :=
  List.pairwise_append.mpr ⟨h.goesOn, hp.goesOn, fun c hc c' hc' m hm =>
    hp.begins (h.ends c hc m hm) c' hc'⟩

include hI

theorem endures {starts : List Config} (h : s.History starts)
    (hV : ∀ c ∈ starts, ∀ n, V (Machine.run n c)) : Endures I s starts := by
  induction h with
  | start clock room =>
    refine ⟨List.pairwise_singleton _ _, fun c hc m h => ?_⟩
    obtain rfl := List.mem_singleton.mp hc
    rwa [run_of_isFinal rfl] at h
  | clearOutput _ ih =>
    have ih := ih hV
    exact ⟨ih.goesOn, fun c hc m h => hI.begins (ih.ends c hc m h) .rest⟩
  | setClock reading _ ih =>
    have ih := ih hV
    exact ⟨ih.goesOn, fun c hc m h => hI.begins (ih.ends c hc m h) .rest⟩
  | @perform s steps r starts h hf ih =>
    have ih := ih fun c hc => hV c (List.mem_append_left _ hc)
    have hpasses : Passes I s (s.starts steps r) (s.perform steps r).1 (s.perform steps r).2 :=
      hI.passes_perform fun c hc => hV c (List.mem_append_right _ hc)
    obtain ⟨hends, hskips⟩ := hpasses.ends hf
    refine ⟨ih.goesOn_append hpasses, fun c hc m hm => ?_⟩
    rcases List.mem_append.mp hc with hc | hc
    · exact hskips (ih.ends c hc m hm)
    · exact hends c hc m hm

omit hI

end Persists

/-! ## Courses -/

theorem Sound.admits_idle {s : Session} (h : s.Sound) : s.Admits s.machine.idle :=
  ⟨⟨trivial, [], none, ⟨h.store, h.depth⟩, trivial, .nil h.scope⟩, rfl, nofun⟩

theorem Reachable.admits_of_mem_starts {s : Session} (h : s.Reachable) {steps : Nat} {r : Request}
    {c : Config} (hc : c ∈ s.starts steps r) : ∃ s : Session, s.Admits c :=
  (h.sound.goesWell_perform steps r).admitted c hc

theorem History.admits_of_mem {s : Session} {starts : List Config} (h : s.History starts)
    {c : Config} (hc : c ∈ starts) : ∃ s : Session, s.Admits c := by
  induction h with
  | start clock room =>
    obtain rfl := List.mem_singleton.mp hc
    exact ⟨_, (sound_start clock room).admits_idle⟩
  | clearOutput _ ih => exact ih hc
  | setClock _ _ ih => exact ih hc
  | perform h hf ih =>
    rcases List.mem_append.mp hc with hc | hc
    · exact ih hc
    · exact h.reachable.admits_of_mem_starts hc

theorem History.exists_eq_cons {s : Session} {starts : List Config} (h : s.History starts) :
    ∃ clock room rest, starts = (State.initial clock room).idle :: rest := by
  induction h with
  | start clock room => exact ⟨clock, room, [], rfl⟩
  | clearOutput _ ih => exact ih
  | setClock _ _ ih => exact ih
  | @perform s steps r _ _ _ ih =>
    obtain ⟨clock, room, rest, rfl⟩ := ih
    exact ⟨clock, room, rest ++ s.starts steps r, rfl⟩

namespace Course

variable {starts : List Config} {c c' : Config}

theorem admits_of_mem (h : Course starts) (hc : c ∈ starts) : ∃ s : Session, s.Admits c := by
  obtain ⟨hh, steps, r⟩ := h
  rcases List.mem_append.mp hc with hc | hc
  · exact hh.admits_of_mem hc
  · exact hh.reachable.admits_of_mem_starts hc

/-- The machine is in order at all moments. -/
theorem admits (h : Course starts) (hc : Visits starts c) : ∃ s : Session, s.Admits c := by
  obtain ⟨hmem, n⟩ := hc
  obtain ⟨s, hs⟩ := h.admits_of_mem hmem
  exact ⟨s, hs.run n⟩

/-- In the beginning the machine rests. -/
theorem exists_eq_cons (h : Course starts) :
    ∃ clock room rest, starts = (State.initial clock room).idle :: rest := by
  obtain ⟨hh, steps, r⟩ := h
  obtain ⟨clock, room, rest, rfl⟩ := hh.exists_eq_cons
  exact ⟨clock, room, _, rfl⟩

end Course

/-- What persists and holds at some moment holds at all later ones. -/
theorem Persists.precedes {V I : Config → Prop} (hI : Persists V I) {starts : List Config}
    (h : Course starts) (hV : ∀ c, Visits starts c → V c) {c c' : Config}
    (hp : Precedes starts c c') (hc : I c) : I c' := by
  have hruns : ∀ c ∈ starts, ∀ n, V (Machine.run n c) := fun c hc n => hV _ (.intro hc n)
  cases hp with
  | run hmem m n => exact hI.run_add (hruns _ hmem) hc n
  | @later c c' hl m n =>
    have hmem : c' ∈ starts := hl.subset (List.mem_cons_of_mem c List.mem_cons_self)
    obtain ⟨hh, steps, r⟩ := h
    have hendures := hI.endures hh fun c hc => hruns c (List.mem_append_left _ hc)
    have hpasses := hI.passes_perform fun c hc => hruns c (List.mem_append_right _ hc)
    have hstart : I c' := List.pairwise_pair.mp ((hendures.goesOn_append hpasses).sublist hl) m hc
    have hlater := hI.run_add (hruns c' hmem) (m := 0) hstart n
    rwa [Nat.zero_add] at hlater

/-- What persists and holds before any request holds at all moments. -/
theorem Persists.visits {V I : Config → Prop} (hI : Persists V I)
    (hinitial : ∀ clock room, I (State.initial clock room).idle) {starts : List Config}
    (h : Course starts) (hV : ∀ c, Visits starts c → V c) {c : Config} (hc : Visits starts c) :
    I c := by
  obtain ⟨clock, room, rest, rfl⟩ := h.exists_eq_cons
  obtain ⟨hmem, n⟩ := hc
  rcases List.mem_cons.mp hmem with rfl | hmem
  · rw [run_of_isFinal rfl]
    exact hinitial clock room
  · exact hI.precedes h hV (.later ((List.singleton_sublist.mpr hmem).cons_cons _) 0 n)
      (hinitial clock room)

/-- What holds before any request and no longer holds was ended by a step that does not keep it. -/
theorem Persists.exists_visits {M I : Config → Prop} {starts : List Config}
    (hI : Persists (fun c => Visits starts c ∧ ¬ M c) I)
    (hinitial : ∀ clock room, I (State.initial clock room).idle) (h : Course starts) {c : Config}
    (hc : Visits starts c) (hn : ¬ I c) : ∃ c₁, Visits starts c₁ ∧ M c₁ := by
  by_contra hnone
  exact hn (hI.visits hinitial h (fun d hd => ⟨hd, fun hM => hnone ⟨d, hd, hM⟩⟩) hc)

/-- What persists and holds before any request holds where a session has come to. -/
theorem Persists.reachable {I : Config → Prop} (hI : Persists (fun _ => True) I)
    (hinitial : ∀ clock room, I (State.initial clock room).idle) {s : Session} (h : s.Reachable) :
    I s.machine.idle := by
  obtain ⟨starts, hh⟩ := h.exists_history
  obtain ⟨clock, room, rest, rfl⟩ := hh.exists_eq_cons
  have hendures := hI.endures hh fun _ _ _ => trivial
  exact hendures.ends _ List.mem_cons_self 0 (hinitial clock room)

/-! ## Things that persist -/

/-- If no reserved word is written, the scopes keep their names and the reserved words their
values. -/
theorem persists_le (st : Store) : Persists (fun c => ∀ a name, c.Writes a name → name.IsOrdinary)
    fun c => st.Le c.state.store where
  step hw h := h.trans ((evolves_step _).le hw)
  rests _ h := h
  begins h hb := by cases hb <;> exact h

theorem Course.isOrdinary_of_writes {starts : List Config} (h : Course starts) {c : Config}
    (hc : Visits starts c) : ∀ a name, c.Writes a name → name.IsOrdinary := by
  obtain ⟨s, hs⟩ := h.admits hc
  exact fun a name hw => hs.fits.isOrdinary_of_writes (fun _ ho => ho.ordinary) hw

/-- From one moment of a session to a later one the scopes keep their names and the reserved words
their values. -/
theorem Course.le {starts : List Config} (h : Course starts) {c c' : Config} {st : Store}
    (hp : Precedes starts c c') (hle : st.Le c.state.store) : st.Le c'.state.store :=
  (persists_le st).precedes h (fun _ hc => h.isOrdinary_of_writes hc) hp hle

/-- What no step makes smaller never gets smaller. -/
theorem Course.le_of_step {f : Store → Nat}
    (hf : ∀ c : Config, f c.state.store ≤ f (Machine.step c).state.store) {starts : List Config}
    (h : Course starts) {c c' : Config} (hp : Precedes starts c c') :
    f c.state.store ≤ f c'.state.store := by
  have hpersists : Persists (fun _ => True) fun d => f c.state.store ≤ f d.state.store :=
    ⟨fun _ h => Nat.le_trans h (hf _), fun _ h => h, fun h hb => by cases hb <;> exact h⟩
  exact hpersists.precedes h (fun _ _ => trivial) hp (Nat.le_refl _)

/-- Of two moments the one with less of what never gets less is the earlier. -/
theorem Course.precedes_of_lt {f : Store → Nat}
    (hf : ∀ c : Config, f c.state.store ≤ f (Machine.step c).state.store) {starts : List Config}
    (h : Course starts) {c c' : Config} (hc : Visits starts c) (hc' : Visits starts c')
    (hlt : f c.state.store < f c'.state.store) : Precedes starts (Machine.step c) c' := by
  rcases hc.precedes_or hc' with hp | hp
  · rcases hp.eq_or_step with rfl | hp
    · exact absurd hlt (Nat.lt_irrefl _)
    · exact hp
  · exact absurd (h.le_of_step hf hp) (Nat.not_le.mpr hlt)

/-- A condition on all values that a machine holds persists if a step keeps it. -/
theorem Persists.of_holds {V : Config → Prop} {Q : Store → Value → Prop}
    (hplain : ∀ st v, v.IsPlain → Q st v)
    (hstep : ∀ c, V c → (∀ v, c.Holds v → Q c.state.store v) →
      ∀ v, (Machine.step c).Holds v → Q (Machine.step c).state.store v) :
    Persists V fun c => ∀ v, c.Holds v → Q c.state.store v where
  step hc h := hstep _ hc h
  rests _ h v hv := by
    rcases State.Begins.rest.holds hv with hv | hv
    · exact hplain _ v hv
    · exact h v (.inr hv)
  begins h hb v hv := by
    rcases hb.holds hv with hv | hstore
    · exact hplain _ v hv
    · have hQ := h v (.inr hstore)
      cases hb <;> exact hQ

end Session

end LoxLang
