import LoxLang.Proofs.Session.Course

/-!
# Where an assignment writes

The analysis records how far outwards the scope is that an assignment writes to. That scope is there
whenever the assignment is made, and it has the name already, with one exception: a local variable is
known to the analysis as soon as it is declared, but the scope has it only when its initializer has
been evaluated. An assignment in its own initializer makes it before that.

## Main definitions

* `Frame.isOperand`: the frames of an expression that is being evaluated.
* `Config.Tidy`: above the frame of a superclass there is no other frame.
* `Config.createsVariable`: the next step assigns to a name that the scope does not have.

## Main results

* `FramesFit.exists_declaring`: if a name is pending, the declaration of that name is under way.
* `Session.assignment_overwrites_or_initializes`: an assignment at a recorded distance writes to a
  scope that has the name, or it stands in the initializer of that very variable.
-/

namespace LoxLang

open Scoping

/-! ## Pending names -/

/-- A declared name is at its distance, or it is pending in the current scope. -/
theorem Realizes.ancestor_or_pending {st : Store} {pending : Option String} {scopes : Scopes}
    {scope : ScopeId} {name : String} {d : Nat} (h : Realizes st pending scopes scope)
    (hd : scopes.hops? name = some d) :
    ∃ owner, st.ancestor? scope d = some owner ∧
      ((st.lookup? owner name).isSome ∨ pending = some name ∧ d = 0 ∧ owner = scope) := by
  cases scopes with
  | nil => cases hd
  | cons names scopes =>
    obtain ⟨hnames, -, outer, ho, houter⟩ := h
    rw [Scopes.hops?_cons] at hd
    split at hd
    · next hmem =>
      cases hd
      refine ⟨scope, rfl, (hnames name hmem).imp ?_ fun hpending => ⟨hpending.1, rfl, rfl⟩⟩
      rintro ⟨v, hv, -⟩
      simp [hv]
    · obtain ⟨d', hd', rfl⟩ := Option.map_eq_some_iff.mp hd
      obtain ⟨owner, hancestor, hhas⟩ := houter.ancestor hd'
      obtain ⟨v, hv, -⟩ := hhas.resolve_right nofun
      refine ⟨owner, ?_, .inl (by simp [hv])⟩
      rw [Store.ancestor?, ho]
      exact hancestor

namespace Machine

/-- The frames of an expression that is being evaluated. -/
def Frame.isOperand : Frame → Bool
  | .unary _ _ | .binaryLeft _ _ _ | .binaryRight _ _ _ | .logical _ _ | .assign _ _
  | .callee _ _ | .argument _ _ _ _ | .get _ | .setObject _ _ | .setValue _ _ => true
  | _ => false

def Frame.isSuperclass : Frame → Bool
  | .superclass _ _ _ => true
  | _ => false

/-- If a name is pending, the value of the expression goes to the frame that declares the name. -/
theorem FramesFit.exists_declaring {P : Occurrence → Prop} {st : Store} {scopes : Scopes}
    {scope : ScopeId} {word : String} {k : List Frame}
    (h : FramesFit P st scopes (some word) scope k) :
    ∃ operands f below, k = operands ++ f :: below ∧ (∀ g ∈ operands, g.isOperand) ∧
      ((∃ name : Name, f = .var name ∧ name.text = word) ∨ f.isSuperclass) := by
  generalize hp : some word = pending at h
  induction h with
  | var hn hname _ _ =>
    subst hp
    have hname := Option.some.inj (hname.resolve_left nofun)
    exact ⟨[], _, _, rfl, by simp, .inl ⟨_, rfl, hname.symm⟩⟩
  | superclass => exact ⟨[], _, _, rfl, by simp, .inr rfl⟩
  | unary _ ih | binaryLeft _ _ ih | binaryRight _ _ ih | logical _ _ ih | assign _ _ ih
  | callee _ _ ih | argument _ _ _ _ ih | get _ ih | setObject _ _ ih | setValue _ ih =>
    obtain ⟨operands, f, below, rfl, hoperands, hf⟩ := ih hp
    exact ⟨_ :: operands, f, below, rfl, List.forall_mem_cons.mpr ⟨rfl, hoperands⟩, hf⟩
  | _ => cases hp

/-! ## Superclasses -/

/-- None of the frames is that of a superclass. -/
def Clear (k : List Frame) : Prop := ∀ f ∈ k, f.isSuperclass = false

/-- Above the frame of a superclass there is no other frame: what is evaluated for it is a name. -/
inductive Config.Tidy : Config → Prop where
  | clear (h : Clear c.frames) : Tidy c
  | name (h : Clear k) : Tidy ⟨.eval (.variable site name), .superclass own line methods :: k, s⟩
  | settled (h : Clear k) (hc : Config.Settles (.superclass own line methods :: k) c) : Tidy c

section Steps

variable {k : List Frame} {s : State}

theorem Clear.push {f : Frame} (h : Clear k) (hf : f.isSuperclass = false) : Clear (f :: k) :=
  List.forall_mem_cons.mpr ⟨hf, h⟩

theorem Clear.pop {f : Frame} (h : Clear (f :: k)) : Clear k := (List.forall_mem_cons.mp h).2

theorem Clear.tidy (h : Clear k) (control : Control) : Config.Tidy ⟨control, k, s⟩ := .clear h

theorem Config.Settles.tidy {c : Config} (hc : c.Settles k) (h : Clear k) : c.Tidy :=
  .clear (hc.frames ▸ h)

theorem tidy_sequence (h : Clear k) (body : List Stmt) : (sequence body k s).Tidy := by
  cases body with
  | nil => exact h.tidy _
  | cons first rest => exact (h.push rfl).tidy _

theorem tidy_callValue (h : Clear k) (callee : Value) (args : List Value) (line : Nat) :
    (callValue callee args line k s).Tidy := by
  obtain ⟨e, he⟩ | ⟨-, he⟩ | ⟨i, f, rfl, he⟩ | ⟨own, rfl, he⟩ :=
    callValue_cases callee args line k s
  · exact he ▸ h.tidy _
  · exact he ▸ h.tidy _
  · exact he ▸ tidy_sequence (h.push rfl) _
  · cases hm : own.method? Routine.initName with
    | none =>
      rw [he, construct_of_eq_none hm]
      exact h.tidy _
    | some m =>
      rw [he, construct_of_eq_some hm]
      exact tidy_sequence (h.push rfl) _

theorem tidy_callWith (h : Clear k) (line : Nat) (callee : Value) (done : List Value)
    (rest : List Expr) : (callWith line callee done rest k s).Tidy := by
  cases rest with
  | nil => exact tidy_callValue h _ _ _
  | cons e es => exact (h.push rfl).tidy _

theorem tidy_evalStep (h : Clear k) (e : Expr) : (evalStep e k s).Tidy := by
  cases e with
  | literal l => exact h.tidy _
  | group inner => exact h.tidy _
  | «variable» site name => exact (settles_readName _ _ _).tidy h
  | this site line => exact (settles_readName _ _ _).tidy h
  | super site line method => exact (settles_getSuper _ _ _).tidy h
  | _ => exact (h.push rfl).tidy _

theorem tidy_execStep (h : Clear k) (stmt : Stmt) : (execStep stmt k s).Tidy := by
  cases stmt with
  | expression e => exact h.tidy _
  | var name init =>
    cases init with
    | none => exact h.tidy _
    | some e => exact (h.push rfl).tidy _
  | block body => exact tidy_sequence (h.push rfl) _
  | function routine => exact h.tidy _
  | return_ line value =>
    cases value with
    | none => exact h.tidy _
    | some e => exact (h.push rfl).tidy _
  | class_ name parent methods =>
    cases parent with
    | none => exact h.tidy _
    | some parent => exact .name h
  | _ => exact (h.push rfl).tidy _

theorem tidy_resume {f : Frame} (h : Clear k) (v : Value) : (resume v f k s).Tidy := by
  cases f with
  | unary op line => exact (settles_giveOrRaise _ _).tidy h
  | binaryRight op line left => exact (settles_giveOrRaise _ _).tidy h
  | assign site name => exact (settles_writeName _ _ _).tidy h
  | callee line args => exact tidy_callWith h _ _ _ _
  | argument line callee done rest => exact tidy_callWith h _ _ _ _
  | get name => exact (settles_getProperty _ _).tidy h
  | sequence rest => exact tidy_sequence h _
  | call outer result => exact (settles_finishCall _ _).tidy h
  | logical op right =>
    simp only [resume]
    split <;> exact h.tidy _
  | setObject name value =>
    cases v with
    | object id c => exact (h.push rfl).tidy _
    | _ => exact h.tidy _
  | print =>
    simp only [resume]
    split <;> exact h.tidy _
  | if_ then_ else_ =>
    simp only [resume]
    split
    · exact h.tidy _
    · cases else_ <;> exact h.tidy _
  | whileCondition condition body =>
    simp only [resume]
    split
    · exact (h.push rfl).tidy _
    · exact h.tidy _
  | superclass name line methods => cases v <;> exact h.tidy _
  | program rest =>
    cases rest with
    | nil => exact h.tidy _
    | cons stmt rest => exact (h.push rfl).tidy _
  | binaryLeft op line right => exact (h.push rfl).tidy _
  | whileBody condition body => exact (h.push rfl).tidy _
  | setValue name object => exact h.tidy _
  | var name => exact h.tidy _
  | return_ => exact h.tidy _
  | block outer => exact h.tidy _

theorem tidy_returnThrough {f : Frame} (h : Clear (f :: k)) (v : Value) :
    (returnThrough v f k s).Tidy := by
  cases f with
  | call outer result => exact (settles_finishCall _ _).tidy h.pop
  | program rest => exact h.tidy _
  | _ => exact h.pop.tidy _

theorem tidy_failThrough {f : Frame} (h : Clear k) (e : Failure) : (failThrough e f k s).Tidy := by
  cases f <;> exact h.tidy _

end Steps

theorem Config.Tidy.step {c : Config} (h : c.Tidy) : (Machine.step c).Tidy := by
  obtain ⟨control, frames, s⟩ := c
  cases h with
  | clear h =>
    cases control with
    | eval e => exact tidy_evalStep h e
    | exec stmt => exact tidy_execStep h stmt
    | value v =>
      cases frames with
      | nil => exact h.tidy _
      | cons f k => exact tidy_resume h.pop v
    | returning v =>
      cases frames with
      | nil => exact h.tidy _
      | cons f k => exact tidy_returnThrough h v
    | failing e =>
      cases frames with
      | nil => exact h.tidy _
      | cons f k => exact tidy_failThrough h.pop e
  | name h => exact .settled h (settles_readName _ _ _)
  | @settled k own line methods _ h hc =>
    obtain ⟨rfl, ⟨v, rfl⟩ | ⟨e, rfl⟩⟩ := hc
    · exact tidy_resume (f := .superclass own line methods) h v
    · exact tidy_failThrough (f := .superclass own line methods) h e

/-! ## Assignments -/

/-- The assignment at a recorded distance that the next step makes: the value, the name, the distance
and the frames that get the value. -/
def Config.assignment? : Config → Option (Value × Name × Nat × List Frame)
  | ⟨.value v, .assign site name :: k, s⟩ => (s.table.hops? site).map fun d => (v, name, d, k)
  | _ => none

/-- Whether the next step assigns, at a recorded distance, to a name that the scope there does not
have. -/
def Config.createsVariable (c : Config) : Bool :=
  match c.assignment? with
  | some (_, name, d, _) =>
    match c.state.store.ancestor? c.state.scope d with
    | some a => (c.state.store.lookup? a name.text).isNone
    | none => false
  | none => false

/-- The value of an assignment goes into the initializer of a variable of that name. -/
def InInitializerOf (name : Name) (k : List Frame) : Prop :=
  ∃ operands own below, k = operands ++ .var own :: below ∧ (∀ f ∈ operands, f.isOperand) ∧
    own.text = name.text

variable {c : Config} {v : Value} {name : Name} {d : Nat} {k : List Frame}

theorem Config.exists_eq_of_assignment? (h : c.assignment? = some (v, name, d, k)) :
    ∃ site s, c = ⟨.value v, .assign site name :: k, s⟩ ∧ s.table.hops? site = some d := by
  unfold assignment? at h
  split at h
  · obtain ⟨d', hd, heq⟩ := Option.map_eq_some_iff.mp h
    cases heq
    exact ⟨_, _, rfl, hd⟩
  · cases h

/-- The scope of an assignment is there. If it does not have the name, the name is pending. -/
theorem Config.Fits.exists_of_assignment? {n : Nat}
    (h : c.Fits (Occurrence.Grounded c.state.table n)) (ht : c.Tidy)
    (ha : c.assignment? = some (v, name, d, k)) :
    ∃ a, c.state.store.ancestor? c.state.scope d = some a ∧
      ((c.state.store.lookup? a name.text).isSome ∨ d = 0 ∧ InInitializerOf name k) := by
  obtain ⟨site, s, rfl, hd⟩ := exists_eq_of_assignment? ha
  obtain ⟨-, scopes, pending, h⟩ := h
  cases h.frames with
  | assign hu hk =>
    obtain ⟨htied, -⟩ := hu.tied.resolve_left (by simp [hd])
    have hscopes : scopes.hops? name.text = some d := htied.symm.trans hd
    obtain ⟨a, hancestor, hhas⟩ := h.realized.ancestor_or_pending hscopes
    refine ⟨a, hancestor, hhas.imp_right fun ⟨hpending, hzero, _⟩ => ⟨hzero, ?_⟩⟩
    subst hpending
    obtain ⟨operands, f, below, rfl, hoperands, ⟨own, rfl, hown⟩ | hf⟩ := hk.exists_declaring
    · exact ⟨operands, own, below, rfl, hoperands, hown⟩
    · -- The frame of the assignment is above that of a superclass.
      cases ht with
      | clear hclear => simp [hclear f (by simp)] at hf
      | settled hclear hc =>
        have hframes := hc.frames
        cases hframes

end Machine

open Machine

namespace Session

/-- A machine that starts has no frame of a superclass. -/
theorem persists_tidy : Persists (fun _ => True) Config.Tidy where
  step _ h := h.step
  rests _ _ := .clear (fun _ hf => (List.not_mem_nil hf).elim)
  begins _ hb := by
    cases hb with
    | interpret p => exact .clear (by simp [Clear, State.interpreting, Frame.isSuperclass])
    | _ => exact .clear (fun _ hf => (List.not_mem_nil hf).elim)

theorem Course.tidy {starts : List Config} (h : Course starts) {c : Config} (hc : Visits starts c) :
    c.Tidy :=
  persists_tidy.visits (fun _ _ => .clear (fun _ hf => (List.not_mem_nil hf).elim)) h
    (fun _ _ => trivial) hc

/-- In every session an assignment at a recorded distance gives the name its value in the scope at
that distance. The scope is there, and it has the name already, unless the assignment stands in the
initializer of a variable of that name in the current scope. -/
theorem assignment_overwrites_or_initializes {starts : List Config} (h : Course starts) {c : Config}
    (hc : Visits starts c) {v : Value} {name : Name} {d : Nat} {k : List Frame}
    (ha : c.assignment? = some (v, name, d, k)) :
    ∃ a, c.state.store.ancestor? c.state.scope d = some a ∧
      Machine.step c = give v k { c.state with store := c.state.store.define a name.text v } ∧
      ((c.state.store.lookup? a name.text).isSome ∨ d = 0 ∧ InInitializerOf name k) := by
  obtain ⟨s, hs⟩ := h.admits hc
  have hfits := hs.fits
  rw [← hs.table] at hfits
  obtain ⟨a, hancestor, hhas⟩ := hfits.exists_of_assignment? (h.tidy hc) ha
  refine ⟨a, hancestor, ?_, hhas⟩
  obtain ⟨site, s, rfl, hd⟩ := Config.exists_eq_of_assignment? ha
  simp only [Machine.step, resume, writeName, hd, Store.assignAt, hancestor]

/-- A variable of an inner block is assigned to in its own initializer, and the outer block has a
variable of the same name. -/
def initializingRequest : Request :=
  .interpret "{var a=false;{var a=(a=true);}print a;}" true

theorem assignment_overwrites_or_initializes_inner :
    let starts := (Session.start (.steady 0) none).starts 100 initializingRequest
    starts.length = 1 ∧ ∀ start ∈ starts, ∃ v name d k a,
      (Machine.run 11 start).assignment? = some (v, name, d, k) ∧
      Machine.step (Machine.run 11 start) = give v k { (Machine.run 11 start).state with
        store := (Machine.run 11 start).state.store.define a name.text v } ∧
      (((Machine.run 11 start).state.store.lookup? a name.text).isSome ∨
        d = 0 ∧ InInitializerOf name k) := by
  intro starts
  have hcheck : ∀ start ∈ starts, (Machine.run 11 start).assignment?.isSome := by decide +kernel
  refine ⟨by decide +kernel, fun start hstart => ?_⟩
  obtain ⟨⟨v, name, d, k⟩, ha⟩ := Option.isSome_iff_exists.mp (hcheck start hstart)
  have hcourse : Course ([(State.initial (.steady 0) none).idle] ++ starts) :=
    .intro (.start (.steady 0) none) 100 initializingRequest
  obtain ⟨a, -, hstep, hhas⟩ := assignment_overwrites_or_initializes hcourse
    (.intro (List.mem_append_right _ hstart) 11) ha
  exact ⟨v, name, d, k, a, ha, hstep, hhas⟩

/-- There the inner block does not have the variable yet: the assignment makes it, and the variable of
the outer block keeps its value. -/
theorem assignment_creates_variable :
    let starts := (Session.start (.steady 0) none).starts 100 initializingRequest
    starts.length = 1 ∧ (∀ start ∈ starts, (Machine.run 11 start).createsVariable) ∧
      ((Session.start (.steady 0) none).perform 100 initializingRequest).2.printed = "false\n" := by
  decide +kernel

end Session

end LoxLang
