import LoxLang.Proofs.Machine.Extent
import LoxLang.Proofs.Machine.Holdings

/-!
# Scopes that no closure reaches

Code in which neither a function nor a class is declared leaves no closure behind, so the scope in
which it runs is reached by the code itself and by nothing else. To say this for whole runs, the scopes
are divided: a region has the scopes around all closures, and code that runs outside of it declares
none. A step keeps such a division, with the new scopes on one side or the other. While a call runs,
all its code stays in the region, and so does all that is written.

## Main definitions

* `Stmt.isClosureFree`: neither a function nor a class is declared in a statement.
* `Config.Opens`: the next step starts a block or a body in a new scope.
* `Config.Secluded`: a region has the scopes around all closures.

## Main results

* `Config.Secluded.exists_step`: a step keeps the region and adds new scopes to it.
* `Config.Secluded.exists_opened`: the scope of code without declarations can be left out.
* `Config.Secluded.scopes_eq_of_calls`: a call writes in the region only.
-/

namespace LoxLang

/-! ## Code without declarations of closures -/

mutual

/-- Neither a function nor a class is declared in a statement. -/
def Stmt.isClosureFree : Stmt → Bool
  | .block body => Stmt.areClosureFree body
  | .if_ _ then_ none => then_.isClosureFree
  | .if_ _ then_ (some else_) => then_.isClosureFree && else_.isClosureFree
  | .while_ _ body => body.isClosureFree
  | .function _ | .class_ _ _ _ => false
  | .expression _ | .print _ | .var _ _ | .return_ _ _ => true

def Stmt.areClosureFree : List Stmt → Bool
  | [] => true
  | s :: ss => s.isClosureFree && Stmt.areClosureFree ss

end

namespace Machine

def Frame.isClosureFree : Frame → Bool
  | .if_ then_ none => then_.isClosureFree
  | .if_ then_ (some else_) => then_.isClosureFree && else_.isClosureFree
  | .whileCondition _ body | .whileBody _ body => body.isClosureFree
  | .superclass _ _ _ => false
  | .sequence rest | .program rest => Stmt.areClosureFree rest
  | _ => true

def Control.isClosureFree : Control → Bool
  | .exec stmt => stmt.isClosureFree
  | _ => true

/-! ## Blocks and bodies that are started -/

/-- The next step starts a block or the body of a routine, in a new scope. -/
inductive Config.Opens : Config → List Stmt → ScopeId → Prop where
  | block : Opens ⟨.exec (.block body), k, s⟩ body s.store.nextScope
  | call {c : Config} (hc : c.Calls (.function i f) args line k)
      (hs : step c = enter f args result k c.state) :
      Opens c f.routine.body c.state.store.nextScope
  /-- The scope before it is the one in which the initializer finds its object. -/
  | initializer {c : Config} (hc : c.Constructs own args k)
      (hm : own.method? Routine.initName = some m) :
      Opens c m.routine.body (c.state.store.nextScope + 1)

section Opens

variable {c : Config} {body : List Stmt} {e : ScopeId} {callee : Value} {args : List Value}
  {line : Nat} {k : List Frame}

theorem Config.Calls.callee_eq {callee' : Value} {args' : List Value} {line' : Nat}
    {k' : List Frame} (h : c.Calls callee args line k) (h' : c.Calls callee' args' line' k') :
    callee = callee' := by
  cases h <;> cases h' <;> rfl

theorem Config.Calls.ne_block (h : c.Calls callee args line k) (body : List Stmt)
    (k' : List Frame) (s : State) : c ≠ ⟨.exec (.block body), k', s⟩ := by
  cases h <;> exact nofun

/-- A step that opens a scope executes a block or makes a call. -/
theorem Config.Opens.block_or_calls (h : c.Opens body e) :
    (∃ k s, c = ⟨.exec (.block body), k, s⟩) ∨ ∃ callee args line k, c.Calls callee args line k := by
  cases h with
  | block => exact .inl ⟨_, _, rfl⟩
  | call hc hs => exact .inr ⟨_, _, _, _, hc⟩
  | initializer hc hm =>
    obtain ⟨line, hc⟩ := hc.calls
    exact .inr ⟨_, _, _, _, hc⟩

/-- At most one block or body is started. -/
theorem Config.Opens.unique {body' : List Stmt} {e' : ScopeId} (h : c.Opens body e)
    (h' : c.Opens body' e') : body = body' ∧ e = e' := by
  cases h with
  | block =>
    cases h' with
    | block => exact ⟨rfl, rfl⟩
    | call hc hs => exact absurd rfl (hc.ne_block _ _ _)
    | initializer hc hm =>
      obtain ⟨line, hc⟩ := hc.calls
      exact absurd rfl (hc.ne_block _ _ _)
  | call hc hs =>
    cases h' with
    | block => exact absurd rfl (hc.ne_block _ _ _)
    | call hc' hs' =>
      cases hc.callee_eq hc'
      exact ⟨rfl, rfl⟩
    | initializer hc' hm =>
      obtain ⟨line', hc'⟩ := hc'.calls
      cases hc.callee_eq hc'
  | initializer hc hm =>
    obtain ⟨line, hc⟩ := hc.calls
    cases h' with
    | block => exact absurd rfl (hc.ne_block _ _ _)
    | call hc' hs' => cases hc.callee_eq hc'
    | initializer hc' hm' =>
      obtain ⟨line', hc'⟩ := hc'.calls
      cases hc.callee_eq hc'
      rw [hm] at hm'
      cases hm'
      exact ⟨rfl, rfl⟩

@[simp] theorem scope_sequence (body : List Stmt) (k : List Frame) (s : State) :
    (sequence body k s).state.scope = s.scope := by
  cases body <;> rfl

/-- The scope that is opened is new, and the body runs in it. -/
theorem Config.Opens.isNew (h : c.Opens body e) : c.state.store.nextScope ≤ e ∧
    e < (step c).state.store.nextScope ∧ (step c).state.scope = e := by
  cases h with
  | block => simp [step, execStep]
  | call hc hs => simp [hs, enter]
  | initializer hc hm =>
    rw [hc.step_eq, construct_of_eq_some hm]
    simp [enter, Store.addObject, Store.nextScope, Store.addScope]

end Opens

/-! ## Where code runs -/

/-- Code may run in a scope of a region. If other code is allowed, it must declare no closures. -/
def MayRun (R : ScopeId → Prop) (lax : Prop) (scope : ScopeId) (isFree : Bool) : Prop :=
  R scope ∨ (lax ∧ isFree)

/-- The code in the frames, each in the scope that will be current then, may run. -/
def FramesMayRun (R : ScopeId → Prop) (lax : Prop) : List Frame → ScopeId → Prop
  | [], scope => MayRun R lax scope true
  | .block outer :: k, scope => MayRun R lax scope true ∧ FramesMayRun R lax k outer
  | .call outer _ :: k, scope => MayRun R lax scope true ∧ FramesMayRun R lax k outer
  | f :: k, scope => MayRun R lax scope f.isClosureFree ∧ FramesMayRun R lax k scope

/-- All code of a configuration runs where it may. -/
structure Config.Confined (R : ScopeId → Prop) (lax : Prop) (c : Config) : Prop where
  control : MayRun R lax c.state.scope c.control.isClosureFree
  frames : FramesMayRun R lax c.frames c.state.scope

section MayRun

variable {R R' : ScopeId → Prop} {lax lax' : Prop} {scope : ScopeId} {isFree : Bool} {k : List Frame}
  {s : State}

theorem MayRun.of_free (h : MayRun R lax scope isFree) {b : Bool} (hb : isFree → b) :
    MayRun R lax scope b :=
  h.imp_right fun h => ⟨h.1, hb h.2⟩

theorem MayRun.mono (h : MayRun R lax scope isFree) (hR : ∀ a, R a → R' a) (hl : lax → lax') :
    MayRun R' lax' scope isFree :=
  h.imp (hR scope) fun h => ⟨hl h.1, h.2⟩

theorem framesMayRun_cons {f : Frame} (hf : f.isScoped = false) :
    FramesMayRun R lax (f :: k) scope ↔
      MayRun R lax scope f.isClosureFree ∧ FramesMayRun R lax k scope := by
  cases f <;> first | exact Iff.rfl | cases hf

namespace FramesMayRun

theorem here (h : FramesMayRun R lax k scope) : MayRun R lax scope true := by
  cases k with
  | nil => exact h
  | cons f k => cases f <;> exact h.1.of_free fun _ => rfl

theorem mono (h : FramesMayRun R lax k scope) (hR : ∀ a, R a → R' a) (hl : lax → lax') :
    FramesMayRun R' lax' k scope := by
  induction k generalizing scope with
  | nil => exact MayRun.mono h hR hl
  | cons f k ih => cases f <;> exact ⟨h.1.mono hR hl, ih h.2⟩

theorem push {f : Frame} (h : FramesMayRun R lax k scope) (hf : f.isScoped = false)
    (hm : MayRun R lax scope f.isClosureFree) : FramesMayRun R lax (f :: k) scope :=
  (framesMayRun_cons hf).mpr ⟨hm, h⟩

theorem pop {f : Frame} (h : FramesMayRun R lax (f :: k) scope) (hf : f.isScoped = false) :
    FramesMayRun R lax k scope :=
  ((framesMayRun_cons hf).mp h).2

theorem code {f : Frame} (h : FramesMayRun R lax (f :: k) scope) (hf : f.isScoped = false) :
    MayRun R lax scope f.isClosureFree :=
  ((framesMayRun_cons hf).mp h).1

end FramesMayRun

theorem Config.Confined.mono {c : Config} (h : c.Confined R lax) (hR : ∀ a, R a → R' a)
    (hl : lax → lax') : c.Confined R' lax' :=
  ⟨h.control.mono hR hl, h.frames.mono hR hl⟩

/-! ## Code from step to step -/

/-- Where nothing is executed, only the frames have code. -/
theorem Config.Confined.of_frames {c : Config} (h : FramesMayRun R lax c.frames c.state.scope)
    (hc : c.control.isClosureFree) : c.Confined R lax :=
  ⟨h.here.of_free fun _ => hc, h⟩

/-- An expression that is evaluated for a frame above the others. -/
theorem confined_eval_push {f : Frame} (h : FramesMayRun R lax k s.scope)
    (hf : f.isScoped = false) (hfree : f.isClosureFree) (e : Expr) :
    Config.Confined R lax ⟨.eval e, f :: k, s⟩ :=
  .of_frames (h.push hf (h.here.of_free fun _ => hfree)) rfl

theorem confined_giveOrRaise (h : FramesMayRun R lax k s.scope) (r : Except RuntimeError Value)
    (line : Nat) : (giveOrRaise r line k s).Confined R lax := by
  cases r with
  | ok v => exact .of_frames h rfl
  | error e => exact .of_frames h rfl

theorem confined_sequence {body : List Stmt} (h : FramesMayRun R lax k s.scope)
    (hb : MayRun R lax s.scope (Stmt.areClosureFree body)) :
    (sequence body k s).Confined R lax := by
  cases body with
  | nil => exact .of_frames h rfl
  | cons first rest =>
    rw [Stmt.areClosureFree] at hb
    exact ⟨hb.of_free fun h => (Bool.and_eq_true_iff.mp h).1,
      h.push rfl (hb.of_free fun h => (Bool.and_eq_true_iff.mp h).2)⟩

theorem confined_readName (h : FramesMayRun R lax k s.scope) (site : Site) (name : String)
    (line : Nat) : (readName site name line k s).Confined R lax := by
  unfold readName
  split
  · split
    · exact .of_frames h rfl
    · exact .of_frames h rfl
  · exact confined_giveOrRaise h _ _

theorem confined_writeName (h : FramesMayRun R lax k s.scope) (site : Site) (name : Name)
    (v : Value) : (writeName site name v k s).Confined R lax := by
  unfold writeName
  split <;> split
  · exact .of_frames h rfl
  · exact .of_frames h rfl
  · exact .of_frames h rfl
  · exact .of_frames h rfl

theorem confined_getProperty (h : FramesMayRun R lax k s.scope) (v : Value) (name : Name) :
    (getProperty v name k s).Confined R lax := by
  unfold getProperty
  split
  · split
    · exact .of_frames h rfl
    · split
      · exact .of_frames h rfl
      · exact .of_frames h rfl
  · exact .of_frames h rfl

theorem confined_getSuper (h : FramesMayRun R lax k s.scope) (site : Site) (line : Nat)
    (method : Name) : (getSuper site line method k s).Confined R lax := by
  unfold getSuper
  split
  · exact .of_frames h rfl
  · split
    · exact .of_frames h rfl
    · split
      · exact .of_frames h rfl
      · exact .of_frames h rfl

/-- A body runs above the frame of its call, which leads back to where it was called. -/
theorem confined_enter {f : Closure} (h : FramesMayRun R lax k s.scope)
    (hb : MayRun R lax s.store.nextScope (Stmt.areClosureFree f.routine.body)) (args : List Value)
    (result : CallResult) : (enter f args result k s).Confined R lax :=
  confined_sequence ⟨hb.of_free fun _ => rfl, h⟩ hb

theorem confined_callValue {c : Config} {callee : Value} {args : List Value} {line : Nat}
    (hc : c.Calls callee args line k) (h : FramesMayRun R lax k c.state.scope)
    (ho : ∀ body e, c.Opens body e → MayRun R lax e (Stmt.areClosureFree body)) :
    (callValue callee args line k c.state).Confined R lax := by
  obtain ⟨e, he⟩ | ⟨-, he⟩ | ⟨i, f, rfl, he⟩ | ⟨own, rfl, he⟩ :=
    callValue_cases callee args line k c.state
  · rw [he]
    exact .of_frames h rfl
  · rw [he]
    exact .of_frames h rfl
  · rw [he]
    exact confined_enter h (ho _ _ (.call hc (hc.step_eq.trans he))) _ _
  · rw [he]
    have hconstructs : c.Constructs own args k := ⟨⟨line, hc⟩, hc.step_eq.trans he⟩
    cases hm : own.method? Routine.initName with
    | none =>
      rw [construct_of_eq_none hm]
      exact .of_frames h rfl
    | some m =>
      rw [construct_of_eq_some hm]
      refine confined_enter ?_ ?_ _ _
      · exact h
      · rw [Store.nextScope_addScope]
        have hopens : c.Opens m.routine.body _ := .initializer hconstructs hm
        exact ho _ _ hopens

theorem confined_finishCall {outer : ScopeId} (h : FramesMayRun R lax k outer)
    (result : CallResult) (v : Value) :
    (finishCall result v k (leaveCall outer s)).Confined R lax := by
  have h : FramesMayRun R lax k (leaveCall outer s).scope := h
  unfold finishCall
  split
  · exact .of_frames h rfl
  · exact .of_frames h rfl

theorem confined_evalStep (h : FramesMayRun R lax k s.scope) (e : Expr) :
    (evalStep e k s).Confined R lax := by
  cases e with
  | literal l => exact .of_frames h rfl
  | group inner => exact .of_frames h rfl
  | «variable» site name => exact confined_readName h _ _ _
  | this site line => exact confined_readName h _ _ _
  | super site line method => exact confined_getSuper h _ _ _
  | _ => exact confined_eval_push h rfl rfl _

theorem confined_execStep {stmt : Stmt} (hc : MayRun R lax s.scope stmt.isClosureFree)
    (h : FramesMayRun R lax k s.scope)
    (ho : ∀ body e, Config.Opens ⟨.exec stmt, k, s⟩ body e →
      MayRun R lax e (Stmt.areClosureFree body)) :
    (execStep stmt k s).Confined R lax := by
  cases stmt with
  | expression e => exact .of_frames h rfl
  | print e => exact confined_eval_push h rfl rfl e
  | var name init =>
    cases init with
    | none => exact .of_frames h rfl
    | some e => exact confined_eval_push h rfl rfl e
  | block body =>
    have hb := ho body _ .block
    exact confined_sequence ⟨hb.of_free fun _ => rfl, h⟩ hb
  | if_ condition then_ else_ =>
    refine .of_frames (h.push rfl ?_) rfl
    cases else_ <;> exact hc
  | while_ condition body => exact .of_frames (h.push rfl hc) rfl
  | function routine => exact .of_frames h rfl
  | return_ line value =>
    cases value with
    | none => exact ⟨h.here, h⟩
    | some e => exact confined_eval_push h rfl rfl e
  | class_ name parent methods =>
    cases parent with
    | none => exact .of_frames h rfl
    | some parent => exact .of_frames (h.push rfl hc) rfl

theorem confined_resume {f : Frame} (h : FramesMayRun R lax (f :: k) s.scope) (v : Value)
    (ho : ∀ body e, Config.Opens ⟨.value v, f :: k, s⟩ body e →
      MayRun R lax e (Stmt.areClosureFree body)) :
    (resume v f k s).Confined R lax := by
  cases f with
  | block outer => exact .of_frames h.2 rfl
  | call outer result => exact confined_finishCall h.2 _ _
  | unary op line => exact confined_giveOrRaise (h.pop rfl) _ _
  | binaryLeft op line right => exact confined_eval_push (h.pop rfl) rfl rfl _
  | binaryRight op line left => exact confined_giveOrRaise (h.pop rfl) _ _
  | logical op right =>
    simp only [resume]
    split
    · exact .of_frames (h.pop rfl) rfl
    · exact .of_frames (h.pop rfl) rfl
  | assign site name => exact confined_writeName (h.pop rfl) _ _ _
  | callee line args =>
    cases args with
    | nil => exact confined_callValue .bare (h.pop rfl) ho
    | cons e es => exact confined_eval_push (h.pop rfl) rfl rfl _
  | argument line callee done rest =>
    cases rest with
    | nil => exact confined_callValue .given (h.pop rfl) ho
    | cons e es => exact confined_eval_push (h.pop rfl) rfl rfl _
  | get name => exact confined_getProperty (h.pop rfl) _ _
  | setObject name value =>
    cases v with
    | object id c => exact confined_eval_push (h.pop rfl) rfl rfl _
    | _ => exact .of_frames (h.pop rfl) rfl
  | setValue name object => exact .of_frames (h.pop rfl) rfl
  | print =>
    simp only [resume]
    split
    · exact .of_frames (h.pop rfl) rfl
    · exact .of_frames (h.pop rfl) rfl
  | var name => exact .of_frames (h.pop rfl) rfl
  | if_ then_ else_ =>
    have hcode := h.code rfl
    simp only [resume]
    cases else_ with
    | none =>
      split
      · exact ⟨hcode, h.pop rfl⟩
      · exact .of_frames (h.pop rfl) rfl
    | some else_ =>
      split
      · exact ⟨hcode.of_free fun h => (Bool.and_eq_true_iff.mp h).1, h.pop rfl⟩
      · exact ⟨hcode.of_free fun h => (Bool.and_eq_true_iff.mp h).2, h.pop rfl⟩
  | whileCondition condition body =>
    simp only [resume]
    split
    · exact ⟨h.code rfl, (h.pop rfl).push rfl (h.code rfl)⟩
    · exact .of_frames (h.pop rfl) rfl
  | whileBody condition body => exact .of_frames ((h.pop rfl).push rfl (h.code rfl)) rfl
  | superclass name line methods =>
    cases v with
    | class_ parent => exact .of_frames (h.pop rfl) rfl
    | _ => exact .of_frames (h.pop rfl) rfl
  | return_ => exact ⟨(h.pop rfl).here, h.pop rfl⟩
  | sequence rest => exact confined_sequence (h.pop rfl) (h.code rfl)
  | program rest =>
    have hcode := h.code rfl
    cases rest with
    | nil => exact .of_frames (h.pop rfl) rfl
    | cons stmt rest =>
      exact ⟨hcode.of_free fun h => (Bool.and_eq_true_iff.mp h).1,
        (h.pop rfl).push rfl (hcode.of_free fun h => (Bool.and_eq_true_iff.mp h).2)⟩

theorem confined_returnThrough {f : Frame} (h : FramesMayRun R lax (f :: k) s.scope) (v : Value) :
    (returnThrough v f k s).Confined R lax := by
  cases f with
  | call outer result => exact confined_finishCall h.2 _ _
  | block outer => exact ⟨h.2.here, h.2⟩
  | program rest => exact ⟨h.here, h⟩
  | _ => exact ⟨(h.pop rfl).here, h.pop rfl⟩

theorem confined_failThrough {f : Frame} (h : FramesMayRun R lax (f :: k) s.scope) (e : Failure) :
    (failThrough e f k s).Confined R lax := by
  cases f with
  | call outer result => exact ⟨h.2.here, h.2⟩
  | block outer => exact ⟨h.2.here, h.2⟩
  | _ => exact .of_frames (h.pop rfl) rfl

/-- Code stays where it may run, if this holds of the code that the step starts. -/
theorem Config.Confined.step {c : Config} (h : c.Confined R lax)
    (ho : ∀ body e, c.Opens body e → MayRun R lax e (Stmt.areClosureFree body)) :
    (Machine.step c).Confined R lax := by
  obtain ⟨control, frames, s⟩ := c
  cases control with
  | eval e => exact confined_evalStep h.frames e
  | exec stmt => exact confined_execStep h.control h.frames ho
  | value v =>
    cases frames with
    | nil => exact h
    | cons f k => exact confined_resume h.frames v ho
  | returning v =>
    cases frames with
    | nil => exact h
    | cons f k => exact confined_returnThrough h.frames v
  | failing e =>
    cases frames with
    | nil => exact h
    | cons f k => exact confined_failThrough h.frames e

end MayRun

/-! ## Regions -/

end Machine

/-- All closures in a value lie in scopes of a region. -/
def Value.Within (R : ScopeId → Prop) : Value → Prop
  | .function _ f => R f.scope
  | .class_ c | .object _ c => c.AllMethods fun _ m => R m.scope
  | _ => True

theorem Value.IsPlain.within {v : Value} (h : v.IsPlain) (R : ScopeId → Prop) : v.Within R := by
  cases v <;> trivial

theorem Value.Within.mono {R R' : ScopeId → Prop} {v : Value} (h : v.Within R)
    (hR : ∀ a, R a → R' a) : v.Within R' := by
  cases v with
  | function i f => exact hR _ h
  | class_ c => exact Class.AllMethods.mono (fun _ _ => hR _) h
  | object i c => exact Class.AllMethods.mono (fun _ _ => hR _) h
  | _ => trivial

namespace Machine

/-- A region has the global scope, with a scope the one around it, and the scopes of all closures. The
code that runs elsewhere declares none, and if none is allowed there is no such code. -/
structure Config.Secluded (R : ScopeId → Prop) (lax : Prop) (c : Config) : Prop where
  global : R globalScope
  made : ∀ a, R a → a < c.state.store.nextScope
  outwards : ∀ a b, R a → c.state.store.enclosing? a = some b → R b
  values : ∀ v, c.Holds v → v.Within R
  code : c.Confined R lax

/-- A region together with the scopes that the next step makes, without the hidden ones. -/
def Config.grown (c : Config) (R hidden : ScopeId → Prop) (a : ScopeId) : Prop :=
  R a ∨ (c.state.store.nextScope ≤ a ∧ a < (step c).state.store.nextScope ∧ ¬ hidden a)

section Regions

variable {R hidden : ScopeId → Prop} {lax : Prop} {c : Config} {a b e : ScopeId}

theorem enclosing?_addScope_new {st : Store} {outer : Option ScopeId} {names : Bindings Value}
    (ha : st.nextScope ≤ a) (h : (st.addScope outer names).enclosing? a = some b) :
    a = st.nextScope ∧ outer = some b := by
  rw [Store.enclosing?_addScope] at h
  split at h
  · next he => exact ⟨he, h⟩
  · exact absurd (Store.lt_nextScope_of_enclosing? h) (Nat.not_lt.mpr ha)

/-- Code that declares a closure runs in the region. -/
theorem MayRun.of_not_free {scope : ScopeId} (h : MayRun R lax scope false) : R scope :=
  h.resolve_right fun h => Bool.false_ne_true h.2

namespace Config.Secluded

theorem closure (h : c.Secluded R lax) {i : Nat} {f : Closure} {args : List Value} {line : Nat}
    {k : List Frame} (hc : c.Calls (.function i f) args line k) : R f.scope :=
  h.values _ hc.holds.1

theorem initializer (h : c.Secluded R lax) {own : Class} {args : List Value} {k : List Frame}
    (hc : c.Constructs own args k) {m : Closure} (hm : own.method? Routine.initName = some m) :
    R m.scope :=
  Class.AllMethods.method? (h.values _ hc.holds.1) hm

theorem method (h : c.Secluded R lax) {m : Closure} {receiver : Value} (hb : c.Binds m receiver) :
    R m.scope := by
  cases hb with
  | property hf hm =>
    exact Class.AllMethods.method? (h.values (.object _ _) (.control List.mem_cons_self)) hm
  | super hd hs hm =>
    obtain ⟨d, id, own, -, hsuper, -, -⟩ := superAndThis_eq_ok.mp hs
    obtain ⟨owner, -, hl⟩ := Store.getAt_eq_ok.mp hsuper
    exact Class.AllMethods.method? (h.values (.class_ _) (.inr (.scope hl))) hm

/-- A new scope lies within the current one or within that of a closure. The scope of a call that
initializes an object lies within the one that has the object. -/
theorem outwards_of_new (h : c.Secluded R lax)
    (hblock : ∀ body k s, c = ⟨.exec (.block body), k, s⟩ → a = s.store.nextScope → R s.scope)
    (ha : c.state.store.nextScope ≤ a) (hb : (Machine.step c).state.store.enclosing? a = some b) :
    R b ∨ (b = c.state.store.nextScope ∧ ∃ body, c.Opens body (b + 1)) := by
  have hold : ∀ {st : Store}, st.scopes = c.state.store.scopes → st.enclosing? a ≠ some b := by
    intro st hs he
    rw [Store.enclosing?, hs] at he
    exact Nat.not_lt.mpr ha (Store.lt_nextScope_of_enclosing? he)
  have heffect := effect_step c
  generalize (Machine.step c).state.store = st at heffect hb
  cases heffect with
  | idle => exact absurd hb (hold rfl)
  | «variable» =>
    rw [Store.enclosing?_define] at hb
    exact absurd hb (hold rfl)
  | initialized =>
    rw [Store.enclosing?_define] at hb
    exact absurd hb (hold rfl)
  | function =>
    rw [Store.enclosing?_define] at hb
    exact absurd hb (hold rfl)
  | class_ =>
    rw [Store.enclosing?_define] at hb
    exact absurd hb (hold rfl)
  | derived =>
    rw [Store.enclosing?_define] at hb
    obtain ⟨-, houter⟩ := enclosing?_addScope_new ha hb
    cases houter
    exact .inl (h.code.frames.code rfl).of_not_free
  | assign hw =>
    rw [Store.enclosing?_define] at hb
    exact absurd hb (hold rfl)
  | setField => exact absurd hb (hold rfl)
  | block =>
    obtain ⟨heq, houter⟩ := enclosing?_addScope_new ha hb
    cases houter
    exact .inl (hblock _ _ _ rfl heq)
  | method hm =>
    obtain ⟨-, houter⟩ := enclosing?_addScope_new ha hb
    cases houter
    exact .inl (h.method hm)
  | call hc =>
    obtain ⟨-, houter⟩ := enclosing?_addScope_new ha hb
    cases houter
    exact .inl (h.closure hc)
  | object hc => exact absurd hb (hold rfl)
  | initializer hc hm =>
    rw [Store.enclosing?_addScope] at hb
    split at hb
    · cases hb
      exact .inr ⟨rfl, _, .initializer hc hm⟩
    · obtain ⟨-, houter⟩ := enclosing?_addScope_new ha hb
      cases houter
      exact .inl (h.initializer hc hm)

/-- What the next step makes lies in the region, or in a new scope in which no code is started. -/
theorem within_of_makes (h : c.Secluded R lax) {v : Value} (hv : c.Makes v) {R' : ScopeId → Prop}
    (hR : ∀ a, R a → R' a)
    (hnew : (∀ body, ¬ c.Opens body c.state.store.nextScope) →
      c.state.store.nextScope < (Machine.step c).state.store.nextScope →
        R' c.state.store.nextScope) : v.Within R' := by
  cases hv with
  | function => exact hR _ h.code.control.of_not_free
  | class_ =>
    intro entry he
    obtain ⟨r, -, rfl⟩ := mem_methodTable he
    exact hR _ h.code.control.of_not_free
  | @derived parent name line methods k s =>
    have hhome : R' s.store.nextScope := by
      refine hnew (fun body ho => ?_) ?_
      · rcases ho.block_or_calls with ⟨k, s, hc⟩ | ⟨callee, args, line, k, hc⟩ <;> cases hc
      · simp [Machine.step, resume, declareClass, classScope, give, Store.takeIdentity,
          Store.nextScope, Store.define, Store.addScope]
    refine ⟨Value.Within.mono (h.values (.class_ parent) (.control List.mem_cons_self)) hR, ?_⟩
    intro entry he
    obtain ⟨r, -, rfl⟩ := mem_methodTable he
    exact hhome
  | method hb =>
    refine hnew (fun body ho => ?_) ?_
    · rcases ho.block_or_calls with ⟨k, s, rfl⟩ | ⟨callee, args, line, k, hc⟩
      · cases hb
      · cases hc <;> cases hb
    · obtain ⟨k, hstep⟩ := hb.exists_step_eq
      rw [hstep]
      simp [giveMethod, bindMethod, give, Store.takeIdentity, Store.nextScope, Store.addScope]
  | object hc => exact Value.Within.mono (h.values (.class_ _) hc.holds.1) hR

/-- A step keeps a region, with the new scopes that are not hidden. Only a scope that is opened for
code without declarations may be hidden, and that of a block outside the region must be. -/
theorem step (h : c.Secluded R lax)
    (hhidden : ∀ a, hidden a → ∃ body, c.Opens body a ∧ lax ∧ Stmt.areClosureFree body)
    (hblock : ∀ body k s, c = ⟨.exec (.block body), k, s⟩ → ¬ hidden s.store.nextScope →
      R s.scope) : (Machine.step c).Secluded (c.grown R hidden) lax := by
  have hevolves := evolves_step c
  have hR : ∀ a, R a → c.grown R hidden a := fun a ha => .inl ha
  refine ⟨hR _ h.global, fun a ha => ?_, fun a b ha hb => ?_, fun v hv => ?_, ?_⟩
  · rcases ha with ha | ⟨-, ha, -⟩
    · exact Nat.lt_of_lt_of_le (h.made a ha) hevolves.nextScope_le
    · exact ha
  · rcases ha with ha | ⟨ha, -, hn⟩
    · rw [hevolves.enclosing?_eq (h.made a ha)] at hb
      exact hR b (h.outwards a b ha hb)
    · have hblock' : ∀ body k s, c = ⟨.exec (.block body), k, s⟩ → a = s.store.nextScope →
          R s.scope := fun body k s hc he => hblock body k s hc (he ▸ hn)
      rcases h.outwards_of_new hblock' ha hb with hb | ⟨rfl, body, ho⟩
      · exact hR b hb
      · refine .inr ⟨Nat.le_refl _, Nat.lt_of_succ_lt ho.isNew.2.1, fun hn => ?_⟩
        obtain ⟨body', ho', -⟩ := hhidden _ hn
        exact Nat.succ_ne_self _ (ho.unique ho').2
  · rcases holds_step hv with hv | hv | hv
    · exact (h.values v hv).mono hR
    · exact hv.within _
    · refine h.within_of_makes hv hR fun hno hlt => .inr ⟨Nat.le_refl _, hlt, fun hn => ?_⟩
      obtain ⟨body, ho, -⟩ := hhidden _ hn
      exact hno body ho
  · refine (h.code.mono hR id).step fun body e ho => ?_
    by_cases hn : hidden e
    · obtain ⟨body', ho', hfree⟩ := hhidden e hn
      obtain ⟨rfl, -⟩ := ho.unique ho'
      exact .inr hfree
    · exact .inl (.inr ⟨ho.isNew.1, ho.isNew.2.1, hn⟩)

/-- A step keeps a region, as far as there were scopes before. All scopes that a call makes are in the
region. -/
theorem exists_step (h : c.Secluded R lax) : ∃ R' : ScopeId → Prop,
    (Machine.step c).Secluded R' lax ∧ (∀ a < c.state.store.nextScope, R' a ↔ R a) ∧
      ((R c.state.scope ∨ ∃ callee args line k, c.Calls callee args line k) →
        ∀ body e, c.Opens body e → R' e) := by
  let hidden : ScopeId → Prop := fun a =>
    ¬ R c.state.scope ∧ ∃ body k s, c = ⟨.exec (.block body), k, s⟩ ∧ a = s.store.nextScope
  refine ⟨c.grown R hidden, h.step ?_ ?_, fun a ha => ?_, fun hin body e ho => ?_⟩
  · rintro a ⟨hout, body, k, s, rfl, rfl⟩
    exact ⟨body, .block, h.code.control.resolve_left hout⟩
  · rintro body k s rfl hn
    by_contra hout
    exact hn ⟨hout, body, k, s, rfl, rfl⟩
  · exact ⟨fun h => h.resolve_right fun hnew => Nat.not_le.mpr ha hnew.1, .inl⟩
  · refine .inr ⟨ho.isNew.1, ho.isNew.2.1, ?_⟩
    rintro ⟨hout, body, k, s, rfl, -⟩
    rcases hin with hin | ⟨callee, args, line, k', hc⟩
    · exact hout hin
    · exact hc.ne_block _ _ _ rfl

/-- The scope of code without declarations can be left out of a region. -/
theorem exists_opened (h : c.Secluded R lax) {body : List Stmt} (ho : c.Opens body e)
    (hfree : Stmt.areClosureFree body) :
    ∃ R' : ScopeId → Prop, (Machine.step c).Secluded R' True ∧ ¬ R' e := by
  have hlax : c.Secluded R True := { h with code := h.code.mono (fun _ ha => ha) fun _ => trivial }
  refine ⟨c.grown R (· = e), hlax.step ?_ ?_, ?_⟩
  · rintro a rfl
    exact ⟨body, ho, trivial, hfree⟩
  · rintro body' k s rfl hn
    exact absurd (ho.unique .block).2.symm hn
  · rintro (he | ⟨-, -, hn⟩)
    · exact absurd (h.made e he) (Nat.not_lt.mpr ho.isNew.1)
    · exact hn rfl

/-- A scope that was left out stays out. -/
theorem exists_run (h : c.Secluded R lax) (he : e < c.state.store.nextScope) (hn : ¬ R e)
    (n : Nat) : ∃ R' : ScopeId → Prop,
      (run n c).Secluded R' lax ∧ e < (run n c).state.store.nextScope ∧ ¬ R' e := by
  induction n with
  | zero => exact ⟨R, h, he, hn⟩
  | succ n ih =>
    obtain ⟨R', h', he', hn'⟩ := ih
    obtain ⟨R'', hstep, hsame, -⟩ := h'.exists_step
    rw [run_succ']
    exact ⟨R'', hstep, Nat.lt_of_lt_of_le he' (evolves_step _).nextScope_le,
      (hsame e he').not.mpr hn'⟩

/-! ## What a call writes -/

theorem ancestor? (h : c.Secluded R lax) (ha : R a) {d : Nat}
    (hd : c.state.store.ancestor? a d = some b) : R b := by
  induction d generalizing a with
  | zero =>
    cases hd
    exact ha
  | succ d ih =>
    rw [Store.ancestor?] at hd
    split at hd
    · next outer houter => exact ih (h.outwards a outer ha houter) hd
    · cases hd

theorem ownerWithin? (h : c.Secluded R lax) (ha : R a) {name : String} {n : Nat}
    (hn : c.state.store.ownerWithin? name n a = some b) : R b := by
  induction n generalizing a with
  | zero => cases hn
  | succ n ih =>
    rw [Store.ownerWithin?] at hn
    split at hn
    · cases hn
      exact ha
    · next outer _ houter => exact ih (h.outwards a outer ha houter) hn
    · cases hn

/-- What runs in the region writes in the region. -/
theorem of_writes (h : c.Secluded R lax) (hs : R c.state.scope) {name : Name}
    (hw : c.Writes a name) : R a := by
  cases hw with
  | declare hd => exact hs
  | assignAt hd ha => exact h.ancestor? hs ha
  | assign hd ha => exact h.ownerWithin? h.global ha

end Config.Secluded

/-- The frame of a call leaves the store alone. -/
theorem isFinal_step_above_call (hf : c.isFinal) (outer : ScopeId) (result : CallResult) :
    (step (c.above [.call outer result])).isFinal ∧
      (step (c.above [.call outer result])).state.store = c.state.store := by
  obtain ⟨control, frames, s⟩ := c
  obtain rfl : frames = [] := Config.frames_eq_nil_of_isFinal hf
  cases control with
  | eval e => cases hf
  | exec stmt => cases hf
  | value w => exact ⟨(isFinal_finishCall result .nil _).1, store_finishCall result .nil outer⟩
  | returning w => exact ⟨(isFinal_finishCall result w _).1, store_finishCall result w outer⟩
  | failing f => exact ⟨rfl, rfl⟩

/-- A body that runs in the region changes no scope outside of it. -/
theorem Config.Secluded.scopes_run_above (h : c.Secluded R False)
    (he : e < c.state.store.nextScope) (hn : ¬ R e) (outer : ScopeId) (result : CallResult)
    (n : Nat) : (run n (c.above [.call outer result])).state.store.scopes[e]? =
      c.state.store.scopes[e]? := by
  induction n generalizing c R with
  | zero => rfl
  | succ n ih =>
    rw [run_succ]
    cases hf : c.isFinal with
    | true =>
      obtain ⟨hfinal, hstore⟩ := isFinal_step_above_call hf outer result
      rw [run_of_isFinal hfinal, hstore]
    | false =>
      have hscope : R c.state.scope := h.code.control.resolve_right fun h => h.1
      have hevolves := evolves_step c
      have hwritten : ∀ name, ¬ c.Writes e name := fun name hw => hn (h.of_writes hscope hw)
      obtain ⟨R', hstep, hsame, -⟩ := h.exists_step
      rw [step_above hf, ih hstep (Nat.lt_of_lt_of_le he hevolves.nextScope_le)
        ((hsame e he).not.mpr hn), hevolves.scopes_eq he hwritten]

theorem Config.Calls.not_writes {callee : Value} {args : List Value} {line : Nat} {k : List Frame}
    (hc : c.Calls callee args line k) (name : Name) : ¬ c.Writes a name := by
  intro hw
  cases hc <;> cases hw with
  | declare hd => cases hd

theorem Config.Secluded.of_above {l : List Frame} {lax' : Prop} (h : (c.above l).Secluded R lax)
    (hc : c.Confined R lax') : c.Secluded R lax' := by
  refine { h with values := fun v hv => h.values v (hv.imp_left fun hv => ?_), code := hc }
  simp only [Config.values, Config.above, List.flatMap_append, List.mem_append] at hv ⊢
  tauto

/-- The body that a call starts changes no scope outside the region. -/
theorem Config.Secluded.scopes_run_body (h : c.Secluded R lax) {callee : Value} {args : List Value}
    {line : Nat} {k : List Frame} (hc : c.Calls callee args line k) {body : List Stmt}
    {inner outer : ScopeId} (ho : c.Opens body inner) {s : State} {result : CallResult}
    (hs : Machine.step c = (sequence body [] s).above (.call outer result :: k))
    (he : e < c.state.store.nextScope) (hn : ¬ R e) (n : Nat) :
    (run n ((sequence body [] s).above [.call outer result])).state.store.scopes[e]? =
      c.state.store.scopes[e]? := by
  obtain ⟨R', hstep, hsame, hnew⟩ := h.exists_step
  have hevolves := evolves_step c
  have hinner : s.scope = inner := by
    rw [← ho.isNew.2.2, hs]
    exact (scope_sequence body [] s).symm
  have hin : R' s.scope := hinner ▸ hnew (.inr ⟨_, _, _, _, hc⟩) body inner ho
  have hle := hevolves.nextScope_le
  have hstay := hevolves.scopes_eq he hc.not_writes
  rw [hs] at hstep hle hstay
  have hbody : (sequence body [] s).Secluded R' False :=
    hstep.of_above (confined_sequence (.inl hin) (.inl hin))
  exact (hbody.scopes_run_above (Nat.lt_of_lt_of_le he hle) ((hsame e he).not.mpr hn) outer result
    n).trans hstay

/-- While a call runs, no scope outside the region changes. -/
theorem Config.Secluded.scopes_eq_of_calls (h : c.Secluded R lax) {callee : Value}
    {args : List Value} {line n : Nat} {k : List Frame} (hc : c.Calls callee args line k)
    (ha : c.StaysAbove k n) (he : e < c.state.store.nextScope) (hn : ¬ R e) :
    (run n c).state.store.scopes[e]? = c.state.store.scopes[e]? := by
  cases n with
  | zero => rfl
  | succ n =>
    have hstep : Machine.step c = (callValue callee args line [] c.state).above k :=
      hc.step_eq.trans (callValue_above (k := []) callee args line)
    rw [hc.run_eq ha]
    change (run n _).state.store.scopes[e]? = _
    have hbody : ∀ (f : Closure) (result : CallResult) (s : State),
        c.Opens f.routine.body s.store.nextScope → Machine.step c = enter f args result k s →
          (run n (callValue callee args line [] c.state)).state.store.scopes[e]? =
            c.state.store.scopes[e]? := by
      intro f result s ho hs
      have hs := hs.trans (sequence_above (k := []) f.routine.body)
      have hcall := Config.above_injective ((hstep.symm.trans hs).trans
        (Config.above_above _ [.call s.scope result] k).symm)
      rw [hcall]
      exact h.scopes_run_body hc ho hs he hn n
    have hatOnce : ∀ d : Config, d.isFinal → d.state.store.scopes = c.state.store.scopes →
        Machine.step c = d.above k →
          (run n (callValue callee args line [] c.state)).state.store.scopes[e]? =
            c.state.store.scopes[e]? := by
      intro d hd hscopes hs
      rw [Config.above_injective (hstep.symm.trans hs), run_of_isFinal hd, hscopes]
    obtain ⟨err, hv⟩ | ⟨-, hv⟩ | ⟨i, f, rfl, hv⟩ | ⟨own, rfl, hv⟩ :=
      callValue_cases callee args line k c.state
    · exact hatOnce (raise err line [] c.state) rfl rfl (hc.step_eq.trans hv)
    · exact hatOnce (readClock [] c.state) rfl rfl (hc.step_eq.trans hv)
    · have hs := hc.step_eq.trans hv
      exact hbody f _ c.state (.call hc hs) hs
    · have hs := hc.step_eq.trans hv
      cases hm : own.method? Routine.initName with
      | none =>
        rw [construct_of_eq_none hm] at hs
        exact hatOnce (give _ [] { c.state with store := c.state.store.addObject }) rfl rfl hs
      | some m =>
        have ho : c.Opens m.routine.body _ := .initializer ⟨⟨line, hc⟩, hs⟩ hm
        refine hbody _ _ _ ?_ (hs.trans (construct_of_eq_some hm _ _ _))
        rw [Store.nextScope_addScope]
        exact ho

end Regions

end Machine

end LoxLang
