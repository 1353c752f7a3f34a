import LoxLang.Proofs.Machine.Preservation
import LoxLang.Proofs.Machine.Table

/-!
# What a run leaves as it was

The frames of blocks and calls keep the scope that was current before them, and the depth counts the
calls among the frames. So at any moment the frames tell which scope and which depth there will be
when all of them have been left, and no step changes that, whether it goes on, returns or fails.

## Main definitions

* `outermost`: the scope that is current when frames have been left.
* `Config.Rests`: a configuration whose frames lead back to a scope and a depth.
* `State.Starts`: the configurations at which an evaluation starts.
-/

namespace LoxLang.Machine

/-! ## Frames that change the scope -/

/-- Whether leaving a frame makes another scope current. -/
def Frame.isScoped : Frame → Bool
  | .block _ | .call _ _ => true
  | _ => false

/-- The scope that is current when all frames have been left. -/
def outermost : List Frame → ScopeId → ScopeId
  | [], scope => scope
  | .block outer :: k, _ => outermost k outer
  | .call outer _ :: k, _ => outermost k outer
  | _ :: k, scope => outermost k scope

theorem outermost_cons {f : Frame} (k : List Frame) (scope : ScopeId) (h : f.isScoped = false) :
    outermost (f :: k) scope = outermost k scope := by
  cases f <;> first | rfl | cases h

theorem Frame.isCall_of_isScoped {f : Frame} (h : f.isScoped = false) : f.isCall = false := by
  cases f <;> first | rfl | cases h

/-! ## Where frames lead back to -/

/-- Leaving the frames leads back to a scope and a depth, and calls are not nested too deep. -/
structure State.Rests (home : ScopeId) (base : Nat) (k : List Frame) (s : State) : Prop where
  scope : outermost k s.scope = home
  depth : s.depth = base + openCalls k
  bound : s.depth ≤ max base maxDepth

/-- A configuration whose frames lead back to a scope and a depth. -/
def Config.Rests (home : ScopeId) (base : Nat) (c : Config) : Prop :=
  c.state.Rests home base c.frames

variable {home : ScopeId} {base : Nat} {k : List Frame} {s : State}

namespace State.Rests

theorem push {f : Frame} (h : s.Rests home base k) (hf : f.isScoped = false) :
    s.Rests home base (f :: k) := by
  refine ⟨?_, ?_, h.bound⟩
  · rw [outermost_cons k _ hf, h.scope]
  · rw [openCalls_cons k (Frame.isCall_of_isScoped hf), h.depth]

theorem pop {f : Frame} (h : s.Rests home base (f :: k)) (hf : f.isScoped = false) :
    s.Rests home base k := by
  refine ⟨?_, ?_, h.bound⟩
  · rw [← h.scope, outermost_cons k _ hf]
  · rw [h.depth, openCalls_cons k (Frame.isCall_of_isScoped hf)]

/-- Only the current scope and the depth count. -/
theorem congr {s' : State} (h : s.Rests home base k) (hs : s'.scope = s.scope)
    (hd : s'.depth = s.depth) : s'.Rests home base k :=
  ⟨hs ▸ h.scope, hd ▸ h.depth, hd ▸ h.bound⟩

/-- The current scope is kept by the frame of a block. -/
theorem enterBlock (h : s.Rests home base k) (st : Store) (inner : ScopeId) :
    State.Rests home base (.block s.scope :: k) { s with store := st, scope := inner } :=
  ⟨h.scope, h.depth.trans (by rw [openCalls_cons k rfl]), h.bound⟩

theorem leaveBlock {outer : ScopeId} (h : s.Rests home base (.block outer :: k)) :
    State.Rests home base k { s with scope := outer } :=
  ⟨h.scope, h.depth.trans (by rw [openCalls_cons k rfl]), h.bound⟩

/-- The current scope is kept by the frame of a call, which is counted. -/
theorem enterCall (h : s.Rests home base k) (hmax : s.depth < maxDepth) (result : CallResult)
    (st : Store) (inner : ScopeId) :
    State.Rests home base (.call s.scope result :: k)
      { s with store := st, scope := inner, depth := s.depth + 1 } := by
  have hdepth : s.depth + 1 = base + openCalls (.call s.scope result :: k) := by
    rw [openCalls_call, h.depth, Nat.add_assoc]
  exact ⟨h.scope, hdepth, Nat.le_trans hmax (Nat.le_max_right _ _)⟩

theorem leaveCall {outer : ScopeId} {result : CallResult}
    (h : s.Rests home base (.call outer result :: k)) :
    (leaveCall outer s).Rests home base k := by
  have hdepth := h.depth
  have hbound := h.bound
  rw [openCalls_call] at hdepth
  refine ⟨h.scope, ?_, ?_⟩ <;> simp only [Machine.leaveCall] <;> omega

end State.Rests

/-! ## Configurations that have ended -/

theorem Config.frames_eq_nil_of_isFinal {c : Config} (h : c.isFinal) : c.frames = [] := by
  obtain ⟨control, frames, s⟩ := c
  cases frames with
  | nil => rfl
  | cons f k => cases control <;> cases h

theorem Config.isFinal_of_outcome? {c : Config} {o : Outcome} (h : c.outcome? = some o) :
    c.isFinal := by
  rw [isFinal_eq_isSome_outcome?, h]
  rfl

/-! ## Steps -/

theorem rests_giveOrRaise (h : s.Rests home base k) (r : Except RuntimeError Value)
    (line : Nat) : (giveOrRaise r line k s).Rests home base := by
  cases r <;> exact h

theorem rests_sequence (h : s.Rests home base k) (body : List Stmt) :
    (sequence body k s).Rests home base := by
  cases body with
  | nil => exact h
  | cons first rest => exact h.push rfl

theorem rests_readName (h : s.Rests home base k) (site : Site) (name : String) (line : Nat) :
    (readName site name line k s).Rests home base := by
  unfold readName
  split
  · split <;> exact h
  · exact rests_giveOrRaise h _ _

theorem rests_writeName (h : s.Rests home base k) (site : Site) (name : Name) (v : Value) :
    (writeName site name v k s).Rests home base := by
  unfold writeName
  split <;> split <;> exact h.congr rfl rfl

theorem rests_giveMethod (h : s.Rests home base k) (m : Closure) (receiver : Value) :
    (giveMethod m receiver k s).Rests home base :=
  h.congr rfl rfl

theorem rests_getProperty (h : s.Rests home base k) (v : Value) (name : Name) :
    (getProperty v name k s).Rests home base := by
  unfold getProperty
  split
  · split
    · exact h
    · split
      · exact rests_giveMethod h _ _
      · exact h
  · exact h

theorem rests_getSuper (h : s.Rests home base k) (site : Site) (line : Nat) (method : Name) :
    (getSuper site line method k s).Rests home base := by
  unfold getSuper
  split
  · exact h
  · split
    · exact h
    · split
      · exact rests_giveMethod h _ _
      · exact h

theorem rests_enter (h : s.Rests home base k) (hmax : s.depth < maxDepth) (closure : Closure)
    (args : List Value) (result : CallResult) :
    (enter closure args result k s).Rests home base :=
  rests_sequence (h.enterCall hmax result _ _) _

theorem rests_construct (h : s.Rests home base k) (hmax : s.depth < maxDepth) (c : Class)
    (args : List Value) : (construct c args k s).Rests home base := by
  unfold construct
  split
  · exact h.congr rfl rfl
  · next m _ =>
    let made : State := { s with store := s.store.addObject }
    have hmade : (bindMethod m (.object s.store.nextObject c) made).2.Rests home base k :=
      h.congr rfl rfl
    exact rests_enter hmade hmax _ _ _

/-- A call that would be nested too deep is not made. -/
theorem rests_callValue (h : s.Rests home base k) (callee : Value) (args : List Value)
    (line : Nat) : (callValue callee args line k s).Rests home base := by
  unfold callValue
  split
  · exact h
  · split
    · exact h
    · split
      · exact h
      · next hmax =>
        have hmax : s.depth < maxDepth := Nat.not_le.mp hmax
        split
        · exact h.congr rfl rfl
        · exact rests_enter h hmax _ _ _
        · exact rests_construct h hmax _ _
        · exact h

theorem rests_callWith (h : s.Rests home base k) (line : Nat) (callee : Value)
    (done : List Value) (rest : List Expr) :
    (callWith line callee done rest k s).Rests home base := by
  cases rest with
  | nil => exact rests_callValue h _ _ _
  | cons e es => exact h.push rfl

theorem rests_finishCall (h : s.Rests home base k) (result : CallResult) (v : Value) :
    (finishCall result v k s).Rests home base := by
  unfold finishCall
  split <;> exact h

theorem rests_declareClass (h : s.Rests home base k) (name : Name) (parent : Option Class)
    (methods : List Routine) : (declareClass name parent methods s).Rests home base k := by
  cases parent <;> exact h.congr rfl rfl

theorem rests_evalStep (h : s.Rests home base k) (e : Expr) :
    (evalStep e k s).Rests home base := by
  cases e with
  | literal l => exact h
  | group inner => exact h
  | «variable» site name => exact rests_readName h _ _ _
  | this site line => exact rests_readName h _ _ _
  | super site line method => exact rests_getSuper h _ _ _
  | _ => exact h.push rfl

theorem rests_execStep (h : s.Rests home base k) (stmt : Stmt) :
    (execStep stmt k s).Rests home base := by
  cases stmt with
  | expression e => exact h
  | var name init =>
    cases init with
    | none => exact h.congr rfl rfl
    | some e => exact h.push rfl
  | block body => exact rests_sequence (h.enterBlock _ _) body
  | function routine => exact h.congr rfl rfl
  | return_ line value =>
    cases value with
    | none => exact h
    | some e => exact h.push rfl
  | class_ name parent methods =>
    cases parent with
    | none => exact rests_declareClass h name none methods
    | some parent => exact h.push rfl
  | _ => exact h.push rfl

theorem rests_resume {f : Frame} (h : s.Rests home base (f :: k)) (v : Value) :
    (resume v f k s).Rests home base := by
  cases f with
  | block outer => exact h.leaveBlock
  | call outer result => exact rests_finishCall h.leaveCall _ _
  | unary op line => exact rests_giveOrRaise (h.pop rfl) _ _
  | binaryLeft op line right => exact (h.pop rfl).push rfl
  | binaryRight op line left => exact rests_giveOrRaise (h.pop rfl) _ _
  | assign site name => exact rests_writeName (h.pop rfl) _ _ _
  | callee line args => exact rests_callWith (h.pop rfl) _ _ _ _
  | argument line callee done rest => exact rests_callWith (h.pop rfl) _ _ _ _
  | get name => exact rests_getProperty (h.pop rfl) _ _
  | sequence rest => exact rests_sequence (h.pop rfl) _
  | setObject name value =>
    cases v with
    | object id c => exact (h.pop rfl).push rfl
    | _ => exact h.pop rfl
  | setValue name object => exact (h.pop rfl).congr rfl rfl
  | var name => exact (h.pop rfl).congr rfl rfl
  | superclass name line methods =>
    cases v with
    | class_ c => exact rests_declareClass (h.pop rfl) name (some c) methods
    | _ => exact h.pop rfl
  | print =>
    simp only [resume]
    split <;> exact (h.pop rfl).congr rfl rfl
  | logical op right =>
    simp only [resume]
    split <;> exact h.pop rfl
  | if_ then_ else_ =>
    simp only [resume]
    split
    · exact h.pop rfl
    · cases else_ <;> exact h.pop rfl
  | whileCondition condition body =>
    simp only [resume]
    split
    · exact (h.pop rfl).push rfl
    · exact h.pop rfl
  | whileBody condition body => exact (h.pop rfl).push rfl
  | return_ => exact h.pop rfl
  | program rest =>
    cases rest with
    | nil => exact h.pop rfl
    | cons stmt rest => exact (h.pop rfl).push rfl

theorem rests_returnThrough {f : Frame} (h : s.Rests home base (f :: k)) (v : Value) :
    (returnThrough v f k s).Rests home base := by
  cases f with
  | block outer => exact h.leaveBlock
  | call outer result => exact rests_finishCall h.leaveCall _ _
  | program rest => exact h
  | _ => exact h.pop rfl

theorem rests_failThrough {f : Frame} (h : s.Rests home base (f :: k)) (e : Failure) :
    (failThrough e f k s).Rests home base := by
  cases f with
  | block outer => exact h.leaveBlock
  | call outer result => exact h.leaveCall
  | _ => exact h.pop rfl

namespace Config.Rests

variable {c : Config}

/-- A step changes neither the scope nor the depth that the frames lead back to. -/
theorem step (h : c.Rests home base) : (Machine.step c).Rests home base := by
  obtain ⟨control, frames, s⟩ := c
  cases control with
  | eval e => exact rests_evalStep h e
  | exec stmt => exact rests_execStep h stmt
  | value v =>
    cases frames with
    | nil => exact h
    | cons f k => exact rests_resume h v
  | returning v =>
    cases frames with
    | nil => exact h
    | cons f k => exact rests_returnThrough h v
  | failing e =>
    cases frames with
    | nil => exact h
    | cons f k => exact rests_failThrough h e

theorem run (h : c.Rests home base) (n : Nat) : (Machine.run n c).Rests home base := by
  induction n generalizing c with
  | zero => exact h
  | succ n ih =>
    rw [run_succ]
    exact ih h.step

/-- Outside of all blocks and calls the machine is where the frames lead back to. -/
theorem eq_of_forall (h : c.Rests home base) (hf : ∀ f ∈ c.frames, f.isScoped = false) :
    c.state.scope = home ∧ c.state.depth = base := by
  obtain ⟨control, frames, s⟩ := c
  have hs : s.Rests home base frames := h
  clear h
  induction frames with
  | nil => exact ⟨hs.scope, hs.depth⟩
  | cons f k ih =>
    obtain ⟨hf, hk⟩ := List.forall_mem_cons.mp hf
    exact ih hk (hs.pop hf)

theorem eq_of_isFinal (h : c.Rests home base) (hf : c.isFinal) :
    c.state.scope = home ∧ c.state.depth = base := by
  refine h.eq_of_forall fun f hmem => ?_
  rw [frames_eq_nil_of_isFinal hf] at hmem
  cases hmem

end Config.Rests

/-! ## Evaluations -/

namespace State

/-- Ready to execute statements in a given scope, after which the present one is current again. -/
def executingIn (s : State) (scope : ScopeId) (body : List Stmt) : Config :=
  sequence body [.block s.scope] { s with scope := scope }

/-- The configurations at which an evaluation starts. -/
inductive Starts (s : State) : Config → Prop where
  | evaluate (e : Expr) : Starts s (s.evaluating e)
  | execute (stmt : Stmt) : Starts s (s.executing stmt)
  | executeIn (scope : ScopeId) (body : List Stmt) : Starts s (s.executingIn scope body)

theorem rests_self (s : State) : s.Rests s.scope s.depth [] :=
  ⟨rfl, rfl, Nat.le_max_left _ _⟩

theorem Starts.rests {s : State} {c : Config} (h : s.Starts c) : c.Rests s.scope s.depth := by
  cases h with
  | evaluate e => exact s.rests_self
  | execute stmt => exact s.rests_self
  | executeIn scope body => exact rests_sequence (s.rests_self.enterBlock s.store scope) body

theorem Starts.table {s : State} {c : Config} (h : s.Starts c) : c.state.table = s.table := by
  cases h with
  | evaluate e => rfl
  | execute stmt => rfl
  | executeIn scope body => exact table_sequence _ _ _

end State

end LoxLang.Machine
