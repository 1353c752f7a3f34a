import LoxLang.Proofs.Machine.Seclusion
import LoxLang.Proofs.Session.Course

/-!
# Private variables

Before a block or a body starts, all scopes together are a region with the scopes around all closures.
Its own scope is new. If neither a function nor a class is declared in it, that scope can be left out,
and then no call that is made from it comes to its variables.

## Main results

* `Session.Course.isClosed`: at all moments the scopes together are a region.
* `Session.call_leaves_scope`: a call leaves the variables of such a block or body as they are.
-/

namespace LoxLang

open Machine

namespace Machine

/-- All scopes together are a region, and all code runs in them. -/
def Config.IsClosed (c : Config) : Prop := c.Secluded (· < c.state.store.nextScope) False

namespace Config.IsClosed

variable {c : Config} {s : State}

theorem scope_lt (h : c.IsClosed) : c.state.scope < c.state.store.nextScope :=
  h.code.control.resolve_right fun h => h.1

theorem step (h : c.IsClosed) : (Machine.step c).IsClosed := by
  have hstep : (Machine.step c).Secluded
      (c.grown (· < c.state.store.nextScope) fun _ => False) False := by
    refine Secluded.step h (fun _ hn => hn.elim) ?_
    rintro body k s rfl -
    exact h.scope_lt
  have hgrown : c.grown (· < c.state.store.nextScope) (fun _ => False) =
      (· < (Machine.step c).state.store.nextScope) := by
    funext a
    refine propext ⟨?_, fun ha => ?_⟩
    · rintro (ha | ⟨-, ha, -⟩)
      · exact Nat.lt_of_lt_of_le ha (evolves_step c).nextScope_le
      · exact ha
    · exact (Nat.lt_or_ge a c.state.store.nextScope).imp id fun hle => ⟨hle, ha, fun h => h⟩
  rw [hgrown] at hstep
  exact hstep

/-- What is held in the store alone is in the region, and code may start in the current scope. -/
theorem begins (h : s.idle.IsClosed) {table : BindingTable} {output : Output} {clock : Clock}
    (hb : State.Begins { s with table := table, output := output, clock := clock } c) :
    c.IsClosed := by
  have hvalues : ∀ v, c.Holds v → v.Within (· < s.store.nextScope) := fun v hv => by
    rcases hb.holds hv with hv | hv
    · exact hv.within _
    · exact h.values v (.inr hv)
  have hscope : MayRun (· < s.store.nextScope) False s.scope false := .inl h.scope_lt
  have hany : ∀ b, MayRun (· < s.store.nextScope) False s.scope b := fun b =>
    hscope.of_free nofun
  cases hb with
  | rest => exact ⟨h.global, h.made, h.outwards, hvalues, hany _, hany _⟩
  | evaluate e => exact ⟨h.global, h.made, h.outwards, hvalues, hany _, hany _⟩
  | execute stmt => exact ⟨h.global, h.made, h.outwards, hvalues, hany _, hany _⟩
  | interpret p => exact ⟨h.global, h.made, h.outwards, hvalues, hany _, hany _, hany _⟩

theorem rests (h : c.IsClosed) : c.state.idle.IsClosed := by
  have hscope := h.scope_lt
  refine ⟨h.global, h.made, h.outwards, fun v hv => ?_, .inl hscope, .inl hscope⟩
  rcases State.Begins.rest.holds hv with hv | hv
  · exact hv.within _
  · exact h.values v (.inr hv)

theorem initial (clock : Clock) (room : Option Room) : (State.initial clock room).idle.IsClosed := by
  have hscope : globalScope < (State.initial clock room).store.nextScope := Nat.zero_lt_one
  refine ⟨hscope, fun _ ha => ha, fun a b _ hb => ?_, fun v hv => ?_, .inl hscope, .inl hscope⟩
  · obtain ⟨-, houter⟩ := enclosing?_addScope_new (Nat.zero_le a) hb
    cases houter
  · exact (State.isPlain_of_holds_initial hv).within _

end Config.IsClosed

end Machine

namespace Session

theorem persists_isClosed : Persists (fun _ => True) Config.IsClosed :=
  ⟨fun _ h => h.step, fun _ h => h.rests, fun h hb => h.begins hb⟩

variable {starts : List Config}

/-- At all moments of a session the scopes together are a region. -/
theorem Course.isClosed (h : Course starts) {c : Config} (hc : Visits starts c) : c.IsClosed :=
  persists_isClosed.visits Config.IsClosed.initial h (fun _ _ => trivial) hc

/-- Let a block or a body start, in any program of a session, in which neither a function nor a class
is declared. It runs in a new scope. A call that is made at any time after it has started, whatever
is called and whatever the call does in turn, leaves this scope as it was when the call was made, up to
the moment when it gives a value or fails, which is included. -/
theorem call_leaves_scope (h : Course starts) {c : Config} (hc : Visits starts c)
    {body : List Stmt} {e : ScopeId} (ho : c.Opens body e) (hfree : Stmt.areClosureFree body) :
    c.state.store.nextScope ≤ e ∧ (Machine.step c).state.scope = e ∧
    ∀ i callee args line k, (Machine.run i (Machine.step c)).Calls callee args line k →
      ∀ n, (Machine.run i (Machine.step c)).StaysAbove k n →
        (Machine.run (i + n) (Machine.step c)).state.store.scopes[e]? =
          (Machine.run i (Machine.step c)).state.store.scopes[e]? := by
  obtain ⟨hle, hlt, hscope⟩ := ho.isNew
  refine ⟨hle, hscope, fun i callee args line k hcalls n habove => ?_⟩
  obtain ⟨R, hR, hn⟩ := (h.isClosed hc).exists_opened ho hfree
  obtain ⟨R', hR', hlt', hn'⟩ := hR.exists_run hlt hn i
  rw [Machine.run_add]
  exact hR'.scopes_eq_of_calls hcalls habove hlt' hn'

/-- Whether the next step starts a block without functions and classes. -/
def startsBlock : Config → Bool
  | ⟨.exec (.block body), _, _⟩ => Stmt.areClosureFree body
  | _ => false

theorem exists_opens_of_startsBlock {c : Config} (h : startsBlock c) :
    ∃ body e, c.Opens body e ∧ Stmt.areClosureFree body := by
  unfold startsBlock at h
  split at h
  · exact ⟨_, _, .block, h⟩
  · cases h

/-- A function calls itself from within a block, and each time changes the variable of its own
block. -/
theorem call_leaves_scope_recursive :
    let r := Request.interpret "fun f(b){{var a=b;if(b)f(false);a=nil;}}f(true);" true
    let starts := (Session.start (.steady 0) none).starts 300 r
    starts.length = 1 ∧ ∀ start ∈ starts, ∃ body e callee args line k v,
      (Machine.run 9 start).Opens body e ∧ Stmt.areClosureFree body ∧
      (Machine.run 22 start).Calls callee args line k ∧ (Machine.run 22 start).Gives k 18 v ∧
      (Machine.run 40 start).state.store.scopes[e]? =
        (Machine.run 22 start).state.store.scopes[e]? := by
  intro r starts
  have hcheck : ∀ start ∈ starts, startsBlock (Machine.run 9 start) ∧
      (Machine.run 22 start).call?.isSome ∧ ((Machine.run 22 start).given? 18).isSome := by
    decide +kernel
  refine ⟨by decide +kernel, fun start hstart => ?_⟩
  obtain ⟨hblock, hcall, hgiven⟩ := hcheck start hstart
  obtain ⟨body, e, ho, hfree⟩ := exists_opens_of_startsBlock hblock
  obtain ⟨⟨callee, args, line, k⟩, hcall⟩ := Option.isSome_iff_exists.mp hcall
  obtain ⟨v, hv⟩ := Option.isSome_iff_exists.mp hgiven
  have hcalls := Config.calls_of_call? hcall
  have hgives := hcalls.gives_of_given? hv
  have hvisits : Visits ([(State.initial (.steady 0) none).idle] ++ starts) (Machine.run 9 start) :=
    .intro (List.mem_append_right _ hstart) 9
  obtain ⟨-, -, hleaves⟩ := call_leaves_scope (.intro (.start (.steady 0) none) 300 r) hvisits ho hfree
  have hrun : ∀ n, Machine.run n (Machine.step (Machine.run 9 start)) = Machine.run (10 + n) start :=
    fun n => by rw [← run_succ' 9 start, ← Machine.run_add]
  have hleaves := hleaves 12 callee args line k
  rw [hrun] at hleaves
  have hsame := hleaves hcalls 18 hgives.above
  rw [hrun] at hsame
  exact ⟨body, e, callee, args, line, k, v, ho, hfree, hcalls, hgives, hsame⟩

end Session

end LoxLang
