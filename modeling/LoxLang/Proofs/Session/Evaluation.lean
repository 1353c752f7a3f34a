import LoxLang.Proofs.Grammar.Printing
import LoxLang.Proofs.Machine.Output
import LoxLang.Proofs.Machine.Returns
import LoxLang.Proofs.Session.Split

/-!
# Evaluating and printing

A source that is one expression can be evaluated, and its value can be printed by a program. The names
of an expression that is evaluated are not tied to scopes, and those of a program are; at the top
level there is nothing to tie them to. So both do the same, up to the line that the program prints in
the end.

## Main definitions

* `Prints`: the tokens of a source are those of another between `print` and a semicolon.
* `Session.print`: a session that has printed one more line.

## Main results

* `prints_self`: a source without lexical faults can be printed.
* `Session.evaluation_agrees_with_printing`: evaluating a source and printing it have the same effects.
-/

namespace LoxLang

/-! ## Sources -/

/-- The tokens of `text` are those of `source`, on the same lines, between the word `print` and a
semicolon. -/
structure Prints (source text : String) : Prop where
  faults : (scan text).faults = []
  tokens : ∃ word sign : Token, word.kind = .keyword .print ∧ sign.kind = .mark .semicolon ∧
    (scan text).tokens = word :: (scan source).tokens ++ [sign]

theorem pieces_print (cs : List Char) : pieces ("print ".toList ++ cs) =
    ⟨.word, "print".toList⟩ :: ⟨.blank, [' ']⟩ :: pieces cs := by
  change pieces ('p' :: 'r' :: 'i' :: 'n' :: 't' :: ' ' :: cs) = _
  rw [pieces]
  change _ :: pieces (' ' :: cs) = _
  rw [pieces]
  rfl

theorem scan_print (source : String) : scan ("print " ++ source) =
    ⟨.token ⟨.keyword .print, "print", 1⟩ :: (scan source).items, (scan source).endLine⟩ := by
  rw [scan_eq_ofPieces, scan_eq_ofPieces, String.toList_append, pieces_print]
  rfl

/-- The semicolon stands on a line of its own, as the source may end with a comment. -/
theorem prints_self {source : String} (h : (scan source).faults = []) :
    Prints source ("print " ++ source ++ "\n" ++ ";") := by
  have hfaults : (scan ("print " ++ source)).faults = [] := by
    rw [scan_print]
    exact h
  have hsemicolon : (scan ";").faults = [] ∧ (scan ";").tokens = [⟨.mark .semicolon, ";", 1⟩] := by
    decide +kernel
  have htokens : (scan ("print " ++ source ++ "\n" ++ ";")).tokens = _ := tokens_scan_append hfaults
  rw [hsemicolon.2, scan_print] at htokens
  exact ⟨faults_scan_append hfaults hsemicolon.1, _, _, rfl, rfl, htokens⟩

/-- The program reads as the expression that is printed, with the same sites. -/
theorem Prints.readSource_eq {source text : String} (h : Prints source text) {first next : Site}
    {e : Expr} (hread : readSource Grammar.readExpression source first = (.ok e, next)) :
    readSource Grammar.readProgram text first = (.ok [.print e], next) := by
  obtain ⟨hfaults, word, sign, hword, hsign, htokens⟩ := h
  rw [readSource_eq_mk, htokens]
  exact ⟨hfaults, Grammar.readProgram_print (readSource_eq_mk.mp hread).2 hword hsign _⟩

/-! ## Machines -/

namespace Machine

variable {m : State} {e : Expr} {n : Nat}

/-- An evaluation ends with a value or a failure: no `return` is executed outside of all calls. -/
theorem exists_run_evaluating_eq (h : (run n (m.evaluating e)).isFinal) :
    (∃ v s, run n (m.evaluating e) = ⟨.value v, [], s⟩) ∨
      ∃ f s, run n (m.evaluating e) = ⟨.failing f, [], s⟩ := by
  obtain ⟨home, hk, hc⟩ := runsIn_run (p := []) (c := m.evaluating e) ⟨none, .nil, trivial⟩ n
  have hframes := Config.frames_eq_nil_of_isFinal h
  generalize run n (m.evaluating e) = c at h hk hc hframes
  obtain ⟨control, frames, s⟩ := c
  subst hframes
  cases control with
  | value v => exact .inl ⟨v, s, rfl⟩
  | failing f => exact .inr ⟨f, s, rfl⟩
  | eval e => cases h
  | exec stmt => cases h
  | returning v =>
    cases hk with
    | nil =>
      obtain ⟨line, value, stmt, hmem, -⟩ := hc
      cases hmem

/-- A program that prints an expression first evaluates it. -/
theorem run_two_printing (m : State) (e : Expr) :
    run 2 (m.interpreting [.print e]) = (m.evaluating e).above [.print, .program []] := rfl

theorem run_two_value (hroom : m.output.room = none) (v : Value) :
    run 2 ⟨.value v, [.print, .program []], m⟩ =
      ⟨.value .nil, [], m.setOutput ⟨v.text :: m.output.lines, m.output.room⟩⟩ := by
  have hprint : step ⟨.value v, [.print, .program []], m⟩ = ⟨.value .nil, [.program []],
      m.setOutput ⟨v.text :: m.output.lines, m.output.room⟩⟩ := by
    simp [step, resume, Output.exists_print? hroom, hroom, give, State.setOutput]
  rw [run_succ, hprint]
  rfl

/-- When the evaluation has ended, the program is about to print its value or to fail. -/
theorem run_printing {c : Config} (hrun : run n (m.evaluating e) = c) (hfinal : c.isFinal)
    {last : Config} (hlast : run 2 (c.above [.print, .program []]) = last) (hend : last.isFinal) :
    run (n + 4) (m.interpreting [.print e]) = last := by
  subst hrun
  obtain ⟨d, hd, habove⟩ := exists_run_above hfinal [.print, .program []]
  obtain ⟨j, rfl⟩ := Nat.exists_eq_add_of_le hd
  rw [show d + j + 4 = 2 + d + 2 + j by omega, run_add, run_add, run_add, run_two_printing, habove,
    hlast, run_of_isFinal hend]

/-- A program that has ended has ended the evaluation. -/
theorem isFinal_evaluating_of_printing (h : (run n (m.interpreting [.print e])).isFinal) :
    (run n (m.evaluating e)).isFinal := by
  by_contra hnot
  have habove := run_above_of_not_isFinal (by simpa using hnot) [.print, .program []]
  rw [← run_two_printing, ← run_add, Nat.add_comm, run_add, run_of_isFinal h] at habove
  have hframes := Config.frames_eq_nil_of_isFinal h
  simp [habove, Config.above] at hframes

end Machine

/-! ## Sessions -/

namespace Session

open Machine

/-- The session after a line has been printed. -/
def print (line : String) (s : Session) : Session :=
  { s with machine := s.machine.setOutput ⟨line :: s.machine.output.lines, s.machine.output.room⟩ }

theorem printed_print (line : String) (s : Session) :
    (s.print line).printed = s.printed ++ line ++ "\n" := by
  simp [print, printed, Output.text, State.setOutput, String.join_append, String.append_assoc]

theorem isFinished_continueWith (s : Session) (c : Config) :
    (s.continueWith c).1.isFinished = c.isFinal := by
  obtain ⟨control, frames, m⟩ := c
  cases control <;> cases frames <;> rfl

theorem evaluate_of_read {s : Session} {source : String} {e : Expr} {next : Site}
    (hread : readSource Grammar.readExpression source s.nextSite = (.ok e, next)) (n : Nat) :
    s.evaluate n source = continueWith ⟨s.machine, next⟩ (Machine.run n (s.machine.evaluating e)) := by
  have hexpression : s.readExpression source = (.ok e, ⟨s.machine, next⟩) := by
    rw [Session.readExpression, hread]
  unfold evaluate
  rw [hexpression]

/-- A source that reads as an expression can be printed, wherever the semicolon stands. The program
ends when the evaluation does: with the value, which it prints after all that the evaluation has
printed, or with the same failure. Besides that line, both leave the same session. -/
theorem evaluation_agrees_with_printing {s : Session} (hroom : s.machine.output.room = none)
    {source : String} (hread : (s.readExpression source).1.isOk)
    (hwords : ∀ t ∈ (scan source).tokens, t.kind.IsClassless) :
    Prints source ("print " ++ source ++ "\n" ++ ";") ∧ ∀ text, Prints source text →
      s.Compiles text ∧
      (∀ n, (s.run n text).1.isFinished → (s.evaluate n source).1.isFinished) ∧
      ∀ n, (s.evaluate n source).1.isFinished →
        (∃ v, (s.evaluate n source).1 = .ended (.value v) ∧
          (s.run (n + 4) text).1.verdict = .ok ∧
          (s.run (n + 4) text).2 = (s.evaluate n source).2.print v.text ∧
          (s.run (n + 4) text).2.printed = (s.evaluate n source).2.printed ++ v.text ++ "\n") ∨
        ∃ f, (s.evaluate n source).1 = .ended (.failed f) ∧
          s.run (n + 4) text = (.ended (.failed f), (s.evaluate n source).2) := by
  obtain ⟨e, next, hread⟩ : ∃ e next,
      readSource Grammar.readExpression source s.nextSite = (.ok e, next) := by
    unfold Session.readExpression at hread
    cases hr : readSource Grammar.readExpression source s.nextSite with
    | mk result next =>
      cases result with
      | error r => simp [hr, Except.isOk, Except.toBool] at hread
      | ok e => exact ⟨e, next, rfl⟩
  obtain ⟨hfaults, hexpression⟩ := readSource_eq_mk.mp hread
  refine ⟨prints_self hfaults, fun text htext => ?_⟩
  have hprogram := htext.readSource_eq hread
  have hties : Scoping.analyse [.print e] = .ok [] :=
    analyse_print (congrArg (·.result) hexpression) hwords
  have heval := evaluate_of_read hread
  have hrun : ∀ n, s.run n text = continueWith ⟨s.machine, next⟩
      (Machine.run n (s.machine.interpreting [.print e])) := run_of_read hprogram hties
  simp only [heval, hrun, isFinished_continueWith]
  refine ⟨by simp [Compiles, readProgram, hprogram, hties, Except.isOk, Except.toBool],
    fun n hfinal => isFinal_evaluating_of_printing hfinal, fun n hfinal => ?_⟩
  obtain ⟨v, m, hend⟩ | ⟨f, m, hend⟩ := exists_run_evaluating_eq hfinal
  · have hroom : m.output.room = none := by
      have h := room_run (c := s.machine.evaluating e) hroom n
      rwa [hend] at h
    rw [run_printing hend rfl (run_two_value hroom v) rfl, hend]
    exact .inl ⟨v, rfl, rfl, rfl, printed_print v.text ⟨m, next⟩⟩
  · rw [run_printing hend rfl rfl rfl, hend]
    exact .inr ⟨f, rfl, rfl⟩

/-- Closures of an earlier run are called. The source ends with a comment. -/
theorem evaluation_agrees_with_printing_closures :
    let s := ((Session.start (.steady 0) none).run 40
      "fun f(x){fun g(){print x;return x;}return g;}var h=f(\"a\");").2
    let source := "h()+f(\"b\")() // c"
    (s.readExpression source).1.isOk ∧ (∀ t ∈ (scan source).tokens, t.kind.IsClassless) ∧
      (s.run 44 ("print " ++ source ++ "\n" ++ ";")).1.verdict = .ok ∧
      ∃ v, (s.evaluate 40 source).1 = .ended (.value v) ∧
        (s.run 44 ("print " ++ source ++ "\n" ++ ";")).2.printed = "a\nb\n" ++ v.text ++ "\n" := by
  intro s source
  have hroom : s.machine.output.room = none := by decide +kernel
  have hread : (s.readExpression source).1.isOk := by decide +kernel
  have hwords : ∀ t ∈ (scan source).tokens, t.kind.IsClassless := by decide +kernel
  obtain ⟨hprints, hagree⟩ := evaluation_agrees_with_printing hroom hread hwords
  have hfinished : (s.evaluate 40 source).1.isFinished := by decide +kernel
  obtain ⟨v, hv, hok, -, hprinted⟩ | ⟨f, hf, -⟩ := (hagree _ hprints).2.2 40 hfinished
  · have hbefore : (s.evaluate 40 source).2.printed = "a\nb\n" := by decide +kernel
    rw [hbefore] at hprinted
    exact ⟨hread, hwords, hok, v, hv, hprinted⟩
  · have hok : (s.evaluate 40 source).1.verdict = .ok := by decide +kernel
    rw [hf] at hok
    cases hok

end Session

end LoxLang
