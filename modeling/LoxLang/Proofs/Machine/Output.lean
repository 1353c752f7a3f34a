import LoxLang.Proofs.Machine.Devices
import Mathlib.Data.List.Infix

/-!
# Printing

Only a step that prints looks at the output. So with another output a machine does the same, up to
the first line that one of the outputs takes and the other refuses.

## Main definitions

* `Output.printAll?`: prints lines one after the other.
* `Output.Takes`: an output takes a number of lines and refuses the next one.

## Main results

* `step_setOutput`: other steps do the same with any output.
* `run_setOutput`: while all lines are taken, a run does the same.
* `run_refused`: the first line that is refused ends the run.
-/

namespace LoxLang

/-! ## Outputs -/

namespace Output

variable {o o' : Output} {line : String} {ls : List String}

/-- Prints lines one after the other, if none of them is refused. -/
def printAll? (o : Output) (ls : List String) : Option Output := ls.foldlM print? o

theorem printAll?_concat : o.printAll? (ls ++ [line]) = (o.printAll? ls).bind (·.print? line) := by
  simp [printAll?]

theorem lines_of_print? (h : o.print? line = some o') : o'.lines = line :: o.lines := by
  unfold print? at h
  split at h
  · cases h
    rfl
  · obtain ⟨left, -, rfl⟩ := Option.map_eq_some_iff.mp h
    rfl

theorem lines_of_printAll? (h : o.printAll? ls = some o') : o'.lines = ls.reverse ++ o.lines := by
  induction ls generalizing o with
  | nil =>
    cases h
    rfl
  | cons line ls ih =>
    rw [printAll?, List.foldlM_cons] at h
    obtain ⟨o₁, hprint, hrest⟩ := Option.bind_eq_some_iff.mp h
    rw [ih hrest, lines_of_print? hprint, List.reverse_cons, List.append_assoc]
    rfl

theorem exists_print? (hroom : o.room = none) (line : String) :
    o.print? line = some ⟨line :: o.lines, none⟩ := by
  simp [print?, hroom]

/-- The newlines that lines need. -/
def newlines : List String → Nat
  | [] => 0
  | line :: ls => line.toList.count '\n' + 1 + newlines ls

/-- With just enough room all lines are taken. -/
theorem printAll?_newlines (printed ls : List String) (r : Nat) :
    printAll? ⟨printed, some (.newlines (newlines ls + r))⟩ ls =
      some ⟨ls.reverse ++ printed, some (.newlines r)⟩ := by
  induction ls generalizing printed with
  | nil => simp [printAll?, newlines]
  | cons line ls ih =>
    have hprint : print? ⟨printed, some (.newlines (newlines (line :: ls) + r))⟩ line =
        some ⟨line :: printed, some (.newlines (newlines ls + r))⟩ := by
      obtain ⟨n, hn⟩ : ∃ n, newlines (line :: ls) + r = n + 1 :=
        Nat.exists_eq_succ_of_ne_zero (by simp [newlines])
      have hleft : n - line.toList.count '\n' = newlines ls + r := by
        simp only [newlines] at hn
        omega
      simp only [print?, hn, Room.take?, hleft, Option.map_some]
    have hrest := ih (line :: printed)
    rw [printAll?] at hrest ⊢
    simpa [List.foldlM_cons, hprint] using hrest

/-- What is left of a number of lines does not depend on the lines. -/
theorem printAll?_prints (printed ls : List String) (r : Nat) :
    printAll? ⟨printed, some (.prints (ls.length + r))⟩ ls =
      some ⟨ls.reverse ++ printed, some (.prints r)⟩ := by
  induction ls generalizing printed with
  | nil => simp [printAll?]
  | cons line ls ih =>
    have hprint : print? ⟨printed, some (.prints (ls.length + 1 + r))⟩ line =
        some ⟨line :: printed, some (.prints (ls.length + r))⟩ := by
      rw [Nat.add_right_comm]
      rfl
    have hrest := ih (line :: printed)
    rw [printAll?] at hrest ⊢
    simpa [List.foldlM_cons, hprint] using hrest

theorem exists_printAll?_of_isPrefixOf {ls' : List String} (h : ls' <+: ls)
    (hall : (o.printAll? ls).isSome) : ∃ o', o.printAll? ls' = some o' := by
  obtain ⟨rest, rfl⟩ := h
  obtain ⟨o', ho'⟩ := Option.isSome_iff_exists.mp hall
  simp only [printAll?, List.foldlM_append] at ho'
  obtain ⟨o₁, ho₁, -⟩ := Option.bind_eq_some_iff.mp ho'
  exact ⟨o₁, ho₁⟩

/-- An output takes the first `m` lines and refuses the next one. -/
structure Takes (o : Output) (m : Nat) (ls : List String) : Prop where
  takes : (o.printAll? (ls.take m)).isSome
  refuses : m < ls.length → o.printAll? (ls.take (m + 1)) = none

namespace Takes

variable {m : Nat}

theorem exists_printAll? (h : o.Takes m ls) (hle : ls.length ≤ m) : ∃ o', o.printAll? ls = some o' := by
  have htakes := h.takes
  rw [List.take_of_length_le hle] at htakes
  exact Option.isSome_iff_exists.mp htakes

theorem exists_refused (h : o.Takes m ls) {printed : List String} (hp : printed ++ [line] <+: ls)
    (hm : printed.length = m) : ∃ o', o.printAll? printed = some o' ∧ o'.print? line = none := by
  obtain ⟨rest, rfl⟩ := hp
  have htakes := h.takes
  have hrefuses := h.refuses (by simp; omega)
  have hm' : (printed ++ [line]).length = m + 1 := by simp [hm]
  rw [List.append_assoc, List.take_left' hm] at htakes
  rw [List.take_left' hm', printAll?_concat] at hrefuses
  obtain ⟨o', ho'⟩ := Option.isSome_iff_exists.mp htakes
  rw [ho'] at hrefuses
  exact ⟨o', ho', hrefuses⟩

/-- An output with just enough room for some lines takes these, and of others those that they begin
with. -/
theorem of_newlines {first : List String} (hlength : first.length ≤ m) (h : ls.take m <+: first) :
    Takes ⟨[], some (.newlines (newlines first))⟩ m ls := by
  have hall : printAll? ⟨[], some (.newlines (newlines first))⟩ first =
      some ⟨first.reverse, some (.newlines 0)⟩ := by
    simpa using printAll?_newlines [] first 0
  refine ⟨?_, fun hm => ?_⟩
  · exact Option.isSome_iff_exists.mpr (exists_printAll?_of_isPrefixOf h (by rw [hall]; rfl))
  · have htake : ls.take m = first := h.eq_of_length_le (by simp; omega)
    rw [List.take_add_one, List.getElem?_eq_getElem hm, Option.toList_some, printAll?_concat, htake,
      hall]
    rfl

/-- An output for `m` lines takes `m` lines, whatever they are. -/
theorem of_prints (m : Nat) (ls : List String) : Takes ⟨[], some (.prints m)⟩ m ls := by
  refine ⟨?_, fun hm => ?_⟩
  · have hle : (ls.take m).length ≤ m := List.length_take_le m ls
    obtain ⟨r, hr⟩ := Nat.exists_eq_add_of_le hle
    rw [show Room.prints m = .prints ((ls.take m).length + r) from congrArg Room.prints hr,
      printAll?_prints]
    rfl
  · have hall : printAll? ⟨[], some (.prints m)⟩ (ls.take m) =
        some ⟨(ls.take m).reverse, some (.prints 0)⟩ := by
      simpa [List.length_take_of_le hm.le] using printAll?_prints [] (ls.take m) 0
    rw [List.take_add_one, List.getElem?_eq_getElem hm, Option.toList_some, printAll?_concat, hall]
    rfl

end Takes

end Output

namespace Machine

/-! ## Steps with another output -/

def State.setOutput (o : Output) (s : State) : State := { s with output := o }

def Config.setOutput (o : Output) (c : Config) : Config := { c with state := c.state.setOutput o }

/-- A step that does not print does the same with any output. -/
theorem step_setOutput {c : Config} (h : c.prints? = none) (o : Output) :
    step (c.setOutput o) = (step c).setOutput o := by
  by_cases hread : c.ReadsClock
  · obtain ⟨k, hstep, hother⟩ := hread.exists_step_eq (fun _ => o) id
    rw [hstep]
    exact hother
  · exact step_mapDevices h hread (fun _ => o) id

/-! ## Steps that print -/

/-- The lines printed so far, first to last. -/
def Config.lines (c : Config) : List String := c.state.output.lines.reverse

variable {c : Config} {o o' : Output} {line : String}

/-- A line that both outputs take. -/
theorem step_setOutput_of_print? (h : c.prints? = some line) (hroom : c.state.output.room = none)
    (hp : o.print? line = some o') : step (c.setOutput o) = (step c).setOutput o' := by
  obtain ⟨v, k, s, rfl, rfl⟩ := Config.exists_eq_of_prints? h
  have hfree : s.output.print? v.text = some ⟨v.text :: s.output.lines, none⟩ :=
    Output.exists_print? hroom _
  simp only [step, resume, Config.setOutput, State.setOutput, hp, hfree]
  rfl

/-- A line that an output refuses. -/
theorem step_setOutput_of_refused (h : c.prints? = some line) (hp : o.print? line = none) :
    step (c.setOutput o) = ⟨.failing .outputFull, c.frames.tail, c.state.setOutput o⟩ := by
  obtain ⟨v, k, s, rfl, rfl⟩ := Config.exists_eq_of_prints? h
  simp only [step, resume, Config.setOutput, State.setOutput, hp]
  rfl

/-- An output without a limit takes each line. -/
theorem output_step (hroom : c.state.output.room = none) : (step c).state.output =
    ⟨c.prints?.toList ++ c.state.output.lines, none⟩ := by
  have hself : c.setOutput c.state.output = c := rfl
  cases h : c.prints? with
  | none =>
    have hstep := step_setOutput h c.state.output
    rw [hself] at hstep
    rw [hstep, ← hroom]
    rfl
  | some line =>
    have hstep := step_setOutput_of_print? h hroom (Output.exists_print? hroom line)
    rw [hself] at hstep
    rw [hstep]
    rfl

theorem lines_step (hroom : c.state.output.room = none) :
    (step c).lines = c.lines ++ c.prints?.toList := by
  cases h : c.prints? <;> simp [Config.lines, output_step hroom, h]

/-! ## Runs -/

theorem room_run (hroom : c.state.output.room = none) (n : Nat) :
    (run n c).state.output.room = none := by
  induction n with
  | zero => exact hroom
  | succ n ih => rw [run_succ', output_step ih]

/-- An output without a limit is known by its lines. -/
theorem output_run (hroom : c.state.output.room = none) {n : Nat} (ho : o.lines = [])
    (h : o.printAll? (run n c).lines = some o') : (run n c).state.output = ⟨o'.lines, none⟩ := by
  have hlines : o'.lines = (run n c).state.output.lines := by
    rw [Output.lines_of_printAll? h, ho, Config.lines, List.reverse_reverse, List.append_nil]
  rw [hlines, ← room_run hroom n]

theorem lines_run_succ (hroom : c.state.output.room = none) (n : Nat) :
    (run (n + 1) c).lines = (run n c).lines ++ (run n c).prints?.toList := by
  rw [run_succ', lines_step (room_run hroom n)]

theorem lines_run_isPrefixOf (hroom : c.state.output.room = none) (n d : Nat) :
    (run n c).lines <+: (run (n + d) c).lines := by
  induction d with
  | zero => exact List.prefix_rfl
  | succ d ih =>
    rw [← Nat.add_assoc, lines_run_succ hroom]
    exact ih.trans (List.prefix_append _ _)

/-- There is a moment after which no line is added to the first `m`. -/
theorem exists_forall_take_isPrefixOf (hroom : c.state.output.room = none) (m : Nat) :
    ∃ last, ∀ n, (run n c).lines.take m <+: (run last c).lines.take m := by
  induction m with
  | zero => exact ⟨0, fun n => by simp⟩
  | succ m ih =>
    by_cases hmore : ∃ last, m < (run last c).lines.length
    · obtain ⟨last, hlast⟩ := hmore
      refine ⟨last, fun n => ?_⟩
      rcases Nat.le_total n last with hle | hle
      · obtain ⟨d, rfl⟩ := Nat.exists_eq_add_of_le hle
        exact (lines_run_isPrefixOf hroom n d).take _
      · obtain ⟨d, rfl⟩ := Nat.exists_eq_add_of_le hle
        obtain ⟨rest, hrest⟩ := lines_run_isPrefixOf hroom last d
        rw [← hrest, List.take_append_of_le_length hlast]
    · obtain ⟨last, hlast⟩ := ih
      refine ⟨last, fun n => ?_⟩
      have hshort : ∀ n, (run n c).lines.take (m + 1) = (run n c).lines.take m := fun n => by
        have hle : (run n c).lines.length ≤ m := Nat.not_lt.mp fun h => hmore ⟨n, h⟩
        rw [List.take_of_length_le hle, List.take_of_length_le (Nat.le_succ_of_le hle)]
      rw [hshort, hshort]
      exact hlast n

/-- For each number of lines there is an output that takes as many of those that a run prints. -/
theorem exists_room_takes (hroom : c.state.output.room = none) (m : Nat) :
    ∃ room, ∀ n, Output.Takes ⟨[], some (.newlines room)⟩ m (run n c).lines := by
  obtain ⟨last, hlast⟩ := exists_forall_take_isPrefixOf hroom m
  exact ⟨_, fun n => .of_newlines (List.length_take_le _ _) (hlast n)⟩

/-- As long as another output takes all lines, a run does the same with it. -/
theorem run_setOutput (hroom : c.state.output.room = none) (hlines : c.lines = []) {n : Nat}
    (ho : o.printAll? (run n c).lines = some o') :
    run n (c.setOutput o) = (run n c).setOutput o' := by
  induction n generalizing o' with
  | zero =>
    have ho : o.printAll? c.lines = some o' := ho
    rw [hlines] at ho
    cases ho
    rfl
  | succ n ih =>
    rw [lines_run_succ hroom] at ho
    rw [run_succ', run_succ']
    cases h : (run n c).prints? with
    | none =>
      rw [h, Option.toList_none, List.append_nil] at ho
      rw [ih ho, step_setOutput h]
    | some line =>
      rw [h, Option.toList_some, Output.printAll?_concat] at ho
      obtain ⟨o₁, ho₁, hprint⟩ := Option.bind_eq_some_iff.mp ho
      rw [ih ho₁, step_setOutput_of_print? h (room_run hroom n) hprint]

/-- When more than `m` lines have been printed, there was a moment at which `m` lines had been, and
the next step printed another one. -/
theorem exists_prints?_of_lt (hroom : c.state.output.room = none) (hlines : c.lines = []) {m n : Nat}
    (h : m < (run n c).lines.length) : ∃ i < n, ∃ line, (run i c).prints? = some line ∧
      (run i c).lines.length = m ∧ (run i c).lines ++ [line] <+: (run n c).lines := by
  induction n with
  | zero =>
    have h : m < c.lines.length := h
    simp [hlines] at h
  | succ n ih =>
    have hfirst := lines_run_isPrefixOf hroom n 1
    by_cases hm : m < (run n c).lines.length
    · obtain ⟨i, hi, line, hprints, hlength, hle⟩ := ih hm
      exact ⟨i, Nat.lt_succ_of_lt hi, line, hprints, hlength, hle.trans hfirst⟩
    · rw [lines_run_succ hroom] at h ⊢
      cases hp : (run n c).prints? with
      | none =>
        rw [hp, Option.toList_none, List.append_nil] at h
        exact absurd h hm
      | some line =>
        rw [hp, Option.toList_some, List.length_append, List.length_singleton] at h
        exact ⟨n, Nat.lt_succ_self n, line, hp, by omega, List.prefix_rfl⟩

/-- A failure leaves one frame after the other and has no effect but on the current scope and the
depth. -/
theorem exists_run_failing (e : Failure) (k : List Frame) (s : State) (n : Nat) :
    ∃ scope depth, run n ⟨.failing e, k, s⟩ =
      ⟨.failing e, k.drop n, { s with scope := scope, depth := depth }⟩ := by
  induction n generalizing k s with
  | zero => exact ⟨s.scope, s.depth, rfl⟩
  | succ n ih =>
    cases k with
    | nil =>
      rw [run_of_isFinal rfl]
      exact ⟨s.scope, s.depth, rfl⟩
    | cons f k =>
      obtain ⟨scope, depth, hstep⟩ : ∃ scope depth, step ⟨.failing e, f :: k, s⟩ =
          ⟨.failing e, k, { s with scope := scope, depth := depth }⟩ := by
        cases f with
        | call outer result => exact ⟨outer, s.depth - 1, rfl⟩
        | block outer => exact ⟨outer, s.depth, rfl⟩
        | _ => exact ⟨s.scope, s.depth, rfl⟩
      obtain ⟨scope', depth', hrun⟩ := ih k { s with scope := scope, depth := depth }
      refine ⟨scope', depth', ?_⟩
      rw [run_succ, hstep, hrun]
      rfl

/-- The first line that an output refuses ends the run: nothing is done after it. -/
theorem run_refused (hroom : c.state.output.room = none) (hlines : c.lines = []) {i : Nat}
    (ho : o.printAll? (run i c).lines = some o') (h : (run i c).prints? = some line)
    (hp : o'.print? line = none) (j : Nat) :
    ∃ scope depth, run (i + 1 + j) (c.setOutput o) =
      ⟨.failing .outputFull, (run i c).frames.tail.drop j,
        { (run i c).state with output := o', scope := scope, depth := depth }⟩ := by
  rw [run_add, run_succ', run_setOutput hroom hlines ho, step_setOutput_of_refused h hp]
  exact exists_run_failing .outputFull _ _ j

end Machine

end LoxLang
