import LoxLang.Proofs.Machine.Restoration
import LoxLang.Proofs.Machine.Routines
import LoxLang.Proofs.Program.Loops

/-!
# Runs without loops end

A call brings in code that does not stand where it is called. But calls nest only to a fixed depth,
and the bodies of all routines at hand have a common bound. So code is weighed by how many calls may
still be nested around it: a unit of code weighs more than the body of a routine one call deeper
down, and a unit is what a call gives up for that body. Every step then makes a configuration
lighter.

## Main definitions

* `unit`: the weight of a unit of code.
* `Config.weight`: the weight of all code that a configuration has still to run.
* `Config.Within`: code without loops, with a common bound on its size.
-/

namespace LoxLang

/-! ## Limited outputs -/

theorem Output.isSome_room_print? {o o' : Output} {line : String} (h : o.print? line = some o') :
    o'.room.isSome = o.room.isSome := by
  unfold print? at h
  split at h
  · cases h
    rfl
  · next hroom =>
    obtain ⟨left, -, rfl⟩ := Option.map_eq_some_iff.mp h
    rw [hroom]
    rfl

theorem Output.isSome_room_of_print?_eq_none {o : Output} {line : String}
    (h : o.print? line = none) : o.room.isSome := by
  unfold print? at h
  split at h
  · cases h
  · next hroom =>
    rw [hroom]
    rfl

namespace Machine

/-! ## Weights -/

/-- The weight of the body of a routine that is called, when `r` more calls may be nested. -/
def callCost (bound : Nat) : Nat → Nat
  | 0 => 0
  | r + 1 => bound * (callCost bound r + 3)

/-- The weight of a unit of code, when `r` more calls may be nested. -/
def unit (bound r : Nat) : Nat := callCost bound r + 3

/-- How many more calls may be nested within frames. -/
def headroom (k : List Frame) : Nat := maxDepth - openCalls k

def Frame.weight (bound r : Nat) : Frame → Nat
  | .binaryLeft _ _ right => right.size * unit bound r + 2
  | .logical _ right => right.size * unit bound r + 1
  | .callee _ args => Expr.eachSize args * unit bound r + callCost bound r + 2
  | .argument _ _ _ rest => Expr.eachSize rest * unit bound r + callCost bound r + 2
  | .setObject _ value => value.size * unit bound r + 2
  | .if_ then_ none => then_.size * unit bound r + 1
  | .if_ then_ (some else_) => (then_.size + else_.size) * unit bound r + 1
  | .sequence rest => Stmt.eachSize rest * unit bound r + 1
  | .program rest => Stmt.eachSize rest * unit bound r + 1
  | .return_ => 2
  | _ => 1

def framesWeight (bound : Nat) : List Frame → Nat
  | [] => 0
  | f :: k => f.weight bound (headroom k) + framesWeight bound k

/-- At the top level a `return` leaves no frame, so that it must weigh more than a value. -/
def Control.weight (bound r : Nat) : Control → Nat
  | .eval e => e.size * unit bound r
  | .exec stmt => stmt.size * unit bound r
  | .returning _ => 1
  | .value _ | .failing _ => 0

/-- The weight of all code that a configuration has still to run. -/
def Config.weight (bound : Nat) (c : Config) : Nat :=
  c.control.weight bound (headroom c.frames) + framesWeight bound c.frames

theorem unit_eq (bound r : Nat) : unit bound r = callCost bound r + 3 := rfl

theorem headroom_cons {f : Frame} (k : List Frame) (hf : f.isCall = false) :
    headroom (f :: k) = headroom k := by
  rw [headroom, openCalls_cons k hf, headroom]

theorem Frame.weight_pos (f : Frame) (bound r : Nat) : 0 < f.weight bound r := by
  unfold Frame.weight
  split <;> omega

/-! ## Code without loops -/

variable {bound : Nat} {limited : Bool}

def CallResult.Within (bound : Nat) : CallResult → Prop
  | .given _ v => v.AllRoutines (Routine.Within bound)
  | .returned | .receiver _ => True

def Frame.Within (bound : Nat) : Frame → Prop
  | .binaryRight _ _ left => left.AllRoutines (Routine.Within bound)
  | .argument _ f done _ =>
    f.AllRoutines (Routine.Within bound) ∧ ∀ v ∈ done, v.AllRoutines (Routine.Within bound)
  | .if_ then_ else_ => then_.Within bound ∧ ∀ s ∈ else_, s.Within bound
  | .whileCondition _ _ | .whileBody _ _ => False
  | .superclass _ _ methods => ∀ r ∈ methods, r.Within bound
  | .sequence rest | .program rest => ∀ s ∈ rest, s.Within bound
  | .call _ result => result.Within bound
  | _ => True

/-- An output without a limit is never full. -/
def Control.Within (bound : Nat) (limited : Bool) : Control → Prop
  | .eval _ => True
  | .exec stmt => stmt.Within bound
  | .value v | .returning v => v.AllRoutines (Routine.Within bound)
  | .failing f => f = .outputFull → limited

structure State.Within (bound : Nat) (limited : Bool) (s : State) : Prop where
  store : s.store.AllRoutines (Routine.Within bound)
  room : s.output.room.isSome = limited

/-- There are no loops in a configuration, all routines are within a bound, and a full output is met
only if the output is limited. -/
structure Config.Within (bound : Nat) (limited : Bool) (c : Config) : Prop where
  control : c.control.Within bound limited
  frames : ∀ f ∈ c.frames, f.Within bound
  state : c.state.Within bound limited

/-- A configuration without loops that is lighter than a given weight. -/
structure Config.Lighter (bound : Nat) (limited : Bool) (w : Nat) (c : Config) : Prop
    extends c.Within bound limited where
  weight : c.weight bound < w

/-- A state and frames without loops, within which code up to a weight can be run. The whole weight
is `w`. -/
structure State.Affords (bound : Nat) (limited : Bool) (w code : Nat) (k : List Frame)
    (s : State) : Prop extends s.Within bound limited where
  frames : ∀ f ∈ k, f.Within bound
  weight : code + framesWeight bound k ≤ w

namespace State.Affords

variable {w code code' : Nat} {k : List Frame} {s : State}

theorem config (h : s.Affords bound limited w code k) {control : Control}
    (hc : control.Within bound limited) (hlt : control.weight bound (headroom k) < code) :
    Config.Lighter bound limited w ⟨control, k, s⟩ :=
  ⟨⟨hc, h.frames, h.toWithin⟩, Nat.lt_of_lt_of_le (Nat.add_lt_add_right hlt _) h.weight⟩

theorem give (h : s.Affords bound limited w code k) {v : Value}
    (hv : v.AllRoutines (Routine.Within bound)) (hpos : 0 < code) :
    (give v k s).Lighter bound limited w :=
  h.config hv hpos

theorem raise (h : s.Affords bound limited w code k) (hpos : 0 < code) (e : RuntimeError)
    (line : Nat) : (raise e line k s).Lighter bound limited w :=
  h.config nofun hpos

theorem fault (h : s.Affords bound limited w code k) (hpos : 0 < code) (f : Fault) :
    Config.Lighter bound limited w ⟨.failing (.fault f), k, s⟩ :=
  h.config nofun hpos

/-- Part of the code is put into a frame. -/
theorem push (h : s.Affords bound limited w code k) {f : Frame} (hf : f.Within bound)
    (hle : code' + f.weight bound (headroom k) ≤ code) :
    s.Affords bound limited w code' (f :: k) := by
  refine ⟨h.toWithin, List.forall_mem_cons.mpr ⟨hf, h.frames⟩, ?_⟩
  have hw := h.weight
  rw [framesWeight]
  omega

/-- An expression is evaluated after the rest of the code has been put into a frame. -/
theorem evalPart (h : s.Affords bound limited w code k) {f : Frame} (hf : f.Within bound)
    (hcall : f.isCall = false) {e : Expr}
    (hlt : e.size * unit bound (headroom k) + f.weight bound (headroom k) < code) :
    Config.Lighter bound limited w ⟨.eval e, f :: k, s⟩ := by
  have hpush : s.Affords bound limited w (e.size * unit bound (headroom k) + 1) (f :: k) :=
    h.push hf (by omega)
  refine hpush.config trivial ?_
  rw [headroom_cons k hcall]
  exact Nat.lt_succ_self _

/-- A statement is executed after the rest of the code has been put into a frame. -/
theorem execPart (h : s.Affords bound limited w code k) {f : Frame} (hf : f.Within bound)
    (hcall : f.isCall = false) {stmt : Stmt} (hs : stmt.Within bound)
    (hlt : stmt.size * unit bound (headroom k) + f.weight bound (headroom k) < code) :
    Config.Lighter bound limited w ⟨.exec stmt, f :: k, s⟩ := by
  have hpush : s.Affords bound limited w (stmt.size * unit bound (headroom k) + 1) (f :: k) :=
    h.push hf (by omega)
  refine hpush.config hs ?_
  rw [headroom_cons k hcall]
  exact Nat.lt_succ_self _

theorem withStore (h : s.Affords bound limited w code k) {st : Store}
    (hst : st.AllRoutines (Routine.Within bound)) (scope : ScopeId) (depth : Nat) :
    State.Affords bound limited w code k
      { s with store := st, scope := scope, depth := depth } :=
  ⟨⟨hst, h.room⟩, h.frames, h.weight⟩

theorem readClock (h : s.Affords bound limited w code k) :
    State.Affords bound limited w code k { s with clock := s.clock.next } :=
  ⟨⟨h.store, h.room⟩, h.frames, h.weight⟩

theorem define (h : s.Affords bound limited w code k) (name : String) {v : Value}
    (hv : v.AllRoutines (Routine.Within bound)) :
    (s.define name v).Affords bound limited w code k :=
  h.withStore (h.store.define _ _ hv) _ _

end State.Affords

/-! ## Steps -/

section Steps

variable {w code : Nat} {k : List Frame} {s : State}

theorem lighter_giveOrRaise (h : s.Affords bound limited w code k) (hpos : 0 < code)
    {r : Except RuntimeError Value}
    (hr : ∀ v, r = .ok v → v.AllRoutines (Routine.Within bound)) (line : Nat) :
    (giveOrRaise r line k s).Lighter bound limited w := by
  cases r with
  | ok v => exact h.give (hr v rfl) hpos
  | error e => exact h.raise hpos _ _

/-- The frame for the statements that follow the first weighs less than they did. -/
theorem lighter_sequence {body : List Stmt}
    (h : s.Affords bound limited w (Stmt.eachSize body * unit bound (headroom k) + 1) k)
    (hbody : ∀ s ∈ body, s.Within bound) : (sequence body k s).Lighter bound limited w := by
  cases body with
  | nil => exact h.give trivial (Nat.succ_pos _)
  | cons first rest =>
    obtain ⟨hfirst, hrest⟩ := List.forall_mem_cons.mp hbody
    refine h.execPart (f := .sequence rest) hrest rfl hfirst ?_
    have hunit := unit_eq bound (headroom k)
    simp only [Frame.weight, Stmt.eachSize, Nat.add_mul, Nat.one_mul]
    omega

theorem lighter_readName (h : s.Affords bound limited w code k) (hpos : 0 < code) (site : Site)
    (name : String) (line : Nat) : (readName site name line k s).Lighter bound limited w := by
  unfold readName
  split
  · split
    · next hv => exact h.give (h.store.getAt hv) hpos
    · exact h.fault hpos _
  · exact lighter_giveOrRaise h hpos (fun v hv => h.store.get hv) line

theorem lighter_writeName (h : s.Affords bound limited w code k) (hpos : 0 < code) (site : Site)
    (name : Name) {v : Value} (hv : v.AllRoutines (Routine.Within bound)) :
    (writeName site name v k s).Lighter bound limited w := by
  unfold writeName
  split
  · split
    · next hst =>
      obtain ⟨owner, -, rfl⟩ := Store.assignAt_eq_ok.mp hst
      exact (h.withStore (h.store.define owner _ hv) _ _).give hv hpos
    · exact h.fault hpos _
  · split
    · next hst =>
      obtain ⟨owner, rfl⟩ := Store.eq_define_of_assign hst
      exact (h.withStore (h.store.define owner _ hv) _ _).give hv hpos
    · exact h.raise hpos _ _

theorem lighter_giveMethod (h : s.Affords bound limited w code k) (hpos : 0 < code) {m : Closure}
    (hm : m.routine.Within bound) {receiver : Value}
    (hr : receiver.AllRoutines (Routine.Within bound)) :
    (giveMethod m receiver k s).Lighter bound limited w := by
  have hstore := h.store.addScope_single (some m.scope) Keyword.this.spelling hr
  exact (h.withStore hstore.takeIdentity _ _).give hm hpos

theorem lighter_getProperty (h : s.Affords bound limited w code k) (hpos : 0 < code) {v : Value}
    (hv : v.AllRoutines (Routine.Within bound)) (name : Name) :
    (getProperty v name k s).Lighter bound limited w := by
  unfold getProperty
  split
  · split
    · next hfield => exact h.give (h.store.field hfield) hpos
    · split
      · next hm => exact lighter_giveMethod h hpos (Class.AllRoutines.method? hv hm) hv
      · exact h.raise hpos _ _
  · exact h.raise hpos _ _

theorem lighter_getSuper (h : s.Affords bound limited w code k) (hpos : 0 < code) (site : Site)
    (line : Nat) (method : Name) : (getSuper site line method k s).Lighter bound limited w := by
  unfold getSuper
  split
  · exact h.raise hpos _ _
  · split
    · exact h.fault hpos _
    · next c receiver hfound =>
      obtain ⟨d, id, own, rfl, hsuper, hthis, rfl⟩ := superAndThis_eq_ok.mp hfound
      split
      · next hm =>
        exact lighter_giveMethod h hpos (Class.AllRoutines.method? (h.store.getAt hsuper) hm)
          (h.store.getAt hthis)
      · exact h.raise hpos _ _

/-- A call gives up the weight of a body, which is run with one call less to nest. -/
theorem lighter_enter (h : s.Affords bound limited w (callCost bound (headroom k) + 2) k)
    (hmax : openCalls k < maxDepth) {closure : Closure} (hc : closure.routine.Within bound)
    {args : List Value} (ha : ∀ v ∈ args, v.AllRoutines (Routine.Within bound))
    {result : CallResult} (hr : result.Within bound) :
    (enter closure args result k s).Lighter bound limited w := by
  have hroom : headroom k = headroom (.call s.scope result :: k) + 1 := by
    unfold headroom
    rw [openCalls_call]
    omega
  have hcost : Stmt.eachSize closure.routine.body *
      unit bound (headroom (.call s.scope result :: k)) ≤ callCost bound (headroom k) := by
    rw [hroom, callCost]
    exact Nat.mul_le_mul_right _ hc.size_body
  have hscope : (s.store.addScope (some closure.scope)
      (bindParams closure.routine.params args)).AllRoutines (Routine.Within bound) :=
    h.store.addScope _ fun _ v hv => ha v (mem_of_get?_bindParams hv).2
  have hpush : s.Affords bound limited w (Stmt.eachSize closure.routine.body *
      unit bound (headroom (.call s.scope result :: k)) + 1) (.call s.scope result :: k) := by
    refine h.push hr ?_
    simp only [Frame.weight]
    omega
  exact lighter_sequence (hpush.withStore hscope _ _) hc.body

theorem lighter_construct (h : s.Affords bound limited w (callCost bound (headroom k) + 2) k)
    (hmax : openCalls k < maxDepth) {c : Class} (hc : c.AllRoutines (Routine.Within bound))
    {args : List Value} (ha : ∀ v ∈ args, v.AllRoutines (Routine.Within bound)) :
    (construct c args k s).Lighter bound limited w := by
  unfold construct
  split
  · exact (h.withStore h.store.addObject _ _).give hc (Nat.succ_pos _)
  · next m hm =>
    let object := Value.object s.store.nextObject c
    have hobject : object.AllRoutines (Routine.Within bound) := hc
    have hm : m.routine.Within bound := hc.method? hm
    have hclosure : (bindMethod m object { s with store := s.store.addObject }).1.routine.Within
        bound := hm
    have hstore := h.store.addObject.addScope_single (some m.scope) Keyword.this.spelling hobject
    exact lighter_enter (h.withStore hstore s.scope s.depth) hmax hclosure ha hobject

/-- A body is entered only if there is room for one more call. -/
theorem lighter_callValue (h : s.Affords bound limited w (callCost bound (headroom k) + 2) k)
    (hdepth : s.depth = openCalls k) {callee : Value}
    (hv : callee.AllRoutines (Routine.Within bound)) {args : List Value}
    (ha : ∀ v ∈ args, v.AllRoutines (Routine.Within bound)) (line : Nat) :
    (callValue callee args line k s).Lighter bound limited w := by
  have hpos : 0 < callCost bound (headroom k) + 2 := Nat.succ_pos _
  unfold callValue
  split
  · exact h.raise hpos _ _
  · split
    · exact h.raise hpos _ _
    · split
      · exact h.raise hpos _ _
      · next hmax =>
        have hmax : openCalls k < maxDepth := hdepth ▸ Nat.not_le.mp hmax
        split
        · exact h.readClock.give trivial hpos
        · refine lighter_enter h hmax hv ha ?_
          unfold resultOf
          split <;> trivial
        · exact lighter_construct h hmax hv ha
        · exact h.raise hpos _ _

theorem lighter_callWith {rest : List Expr} (h : s.Affords bound limited w
      (Expr.eachSize rest * unit bound (headroom k) + callCost bound (headroom k) + 2) k)
    (hdepth : s.depth = openCalls k) {callee : Value}
    (hv : callee.AllRoutines (Routine.Within bound)) {done : List Value}
    (hd : ∀ v ∈ done, v.AllRoutines (Routine.Within bound)) (line : Nat) :
    (callWith line callee done rest k s).Lighter bound limited w := by
  cases rest with
  | nil =>
    rw [Expr.eachSize, Nat.zero_mul, Nat.zero_add] at h
    exact lighter_callValue h hdepth hv (fun v hm => hd v (List.mem_reverse.mp hm)) line
  | cons e es =>
    refine h.evalPart (f := .argument line callee done es) ⟨hv, hd⟩ rfl ?_
    have hunit := unit_eq bound (headroom k)
    simp only [Frame.weight, Expr.eachSize, Nat.add_mul, Nat.one_mul]
    omega

theorem lighter_finishCall (h : s.Affords bound limited w code k) (hpos : 0 < code)
    {result : CallResult} (hr : result.Within bound) {v : Value}
    (hv : v.AllRoutines (Routine.Within bound)) :
    (finishCall result v k s).Lighter bound limited w := by
  unfold finishCall
  split
  · next u hu =>
    refine h.give ?_ hpos
    obtain rfl | ⟨scope, hat⟩ | ⟨dropped, rfl⟩ := CallResult.cases_of_value_eq_ok hu
    · exact hv
    · exact h.store.getAt hat
    · exact hr
  · exact h.fault hpos _

theorem lighter_evalStep {e : Expr}
    (h : s.Affords bound limited w (e.size * unit bound (headroom k)) k) :
    (evalStep e k s).Lighter bound limited w := by
  have hunit := unit_eq bound (headroom k)
  have hpos : 0 < e.size * unit bound (headroom k) := by
    refine Nat.mul_pos ?_ (by omega)
    cases e <;> simp only [Expr.size] <;> omega
  cases e with
  | literal l => exact h.give l.allRoutines_value hpos
  | «variable» site name => exact lighter_readName h hpos _ _ _
  | this site line => exact lighter_readName h hpos _ _ _
  | super site line method => exact lighter_getSuper h hpos _ _ _
  | group inner =>
    refine h.config trivial ?_
    simp only [Control.weight, Expr.size, Nat.add_mul, Nat.one_mul]
    omega
  | _ =>
    refine h.evalPart (by trivial) rfl ?_
    simp only [Frame.weight, Expr.size, Nat.add_mul, Nat.one_mul]
    omega

theorem lighter_execStep {stmt : Stmt} (hs : stmt.Within bound)
    (h : s.Affords bound limited w (stmt.size * unit bound (headroom k)) k) :
    (execStep stmt k s).Lighter bound limited w := by
  have hunit := unit_eq bound (headroom k)
  cases stmt with
  | expression e =>
    refine h.config trivial ?_
    simp only [Control.weight, Stmt.size, Nat.add_mul, Nat.one_mul]
    omega
  | print e =>
    refine h.evalPart (by trivial) rfl ?_
    simp only [Frame.weight, Stmt.size, Nat.add_mul, Nat.one_mul]
    omega
  | var name init =>
    cases init with
    | none =>
      refine (h.define name.text (by trivial)).give trivial ?_
      simp only [Stmt.size, Nat.one_mul]
      omega
    | some e =>
      refine h.evalPart (by trivial) rfl ?_
      simp only [Frame.weight, Stmt.size, Nat.add_mul, Nat.one_mul]
      omega
  | block body =>
    have hroom : headroom (.block s.scope :: k) = headroom k := headroom_cons k rfl
    have hpush : s.Affords bound limited w (Stmt.eachSize body *
        unit bound (headroom (.block s.scope :: k)) + 1) (.block s.scope :: k) := by
      refine h.push trivial ?_
      simp only [hroom, Frame.weight, Stmt.size, Nat.add_mul, Nat.one_mul]
      omega
    have hscope := h.store.addScope (some s.scope) (b := []) (by simp [Bindings.get?])
    exact lighter_sequence (hpush.withStore hscope _ _) hs.block
  | if_ condition then_ else_ =>
    refine h.evalPart (f := .if_ then_ else_) ⟨hs.then_, hs.else_⟩ rfl ?_
    cases else_ <;> simp only [Frame.weight, Stmt.size, Nat.add_mul, Nat.one_mul] <;> omega
  | while_ condition body => exact hs.1.elim
  | function routine =>
    have hclosure : (Value.function s.store.nextIdentity ⟨routine, s.scope, false⟩).AllRoutines
        (Routine.Within bound) := hs.function
    refine ((h.withStore h.store.takeIdentity _ _).define _ hclosure).give trivial ?_
    simp only [Stmt.size, Nat.add_mul, Nat.one_mul]
    omega
  | return_ line value =>
    cases value with
    | none =>
      refine h.config trivial ?_
      simp only [Control.weight, Stmt.size, Nat.one_mul]
      omega
    | some e =>
      refine h.evalPart (by trivial) rfl ?_
      simp only [Frame.weight, Stmt.size, Nat.add_mul, Nat.one_mul]
      omega
  | class_ name parent methods =>
    cases parent with
    | none =>
      have hclass := allRoutines_declareClass h.store name none (by simp) hs.methods
      refine (h.withStore hclass _ _).give trivial ?_
      simp only [Stmt.size, Nat.add_mul]
      omega
    | some parent =>
      refine h.evalPart (f := .superclass name parent.name.line methods) hs.methods rfl ?_
      simp only [Frame.weight, Expr.size, Stmt.size, Nat.add_mul, Nat.one_mul]
      omega

theorem lighter_resume {f : Frame} (hf : f.Within bound)
    (h : s.Affords bound limited w (f.weight bound (headroom k)) k)
    (hdepth : s.depth = openCalls (f :: k)) {v : Value}
    (hv : v.AllRoutines (Routine.Within bound)) : (resume v f k s).Lighter bound limited w := by
  have hpos := f.weight_pos bound (headroom k)
  cases f with
  | unary op line => exact lighter_giveOrRaise h hpos (fun _ => UnaryOp.allRoutines_apply) line
  | binaryLeft op line right =>
    refine h.evalPart (f := .binaryRight op line v) hv rfl ?_
    simp only [Frame.weight]
    omega
  | binaryRight op line left =>
    exact lighter_giveOrRaise h hpos (fun _ => BinaryOp.allRoutines_apply) line
  | logical op right =>
    simp only [resume]
    split
    · exact h.give hv hpos
    · exact h.config trivial (Nat.lt_succ_self _)
  | assign site name => exact lighter_writeName h hpos site name hv
  | callee line args =>
    exact lighter_callWith h (hdepth.trans (openCalls_cons k rfl)) hv (List.forall_mem_nil _) line
  | argument line callee done rest =>
    exact lighter_callWith h (hdepth.trans (openCalls_cons k rfl)) hf.1
      (List.forall_mem_cons.mpr ⟨hv, hf.2⟩) line
  | get name => exact lighter_getProperty h hpos hv name
  | setObject name value =>
    cases v with
    | object id c =>
      refine h.evalPart (f := .setValue name id) trivial rfl ?_
      simp only [Frame.weight]
      omega
    | _ => exact h.raise hpos _ _
  | setValue name object => exact (h.withStore (h.store.setField _ _ hv) _ _).give hv hpos
  | print =>
    simp only [resume]
    split
    · next output ho =>
      have hprinted : State.Affords bound limited w 1 k { s with output := output } :=
        ⟨⟨h.store, (Output.isSome_room_print? ho).trans h.room⟩, h.frames, h.weight⟩
      exact hprinted.give trivial hpos
    · next ho => exact h.config (fun _ => h.room ▸ Output.isSome_room_of_print?_eq_none ho) hpos
  | var name => exact (h.define _ hv).give trivial hpos
  | if_ then_ else_ =>
    obtain ⟨hthen, helse⟩ := hf
    simp only [resume]
    split
    · refine h.config hthen ?_
      cases else_ <;> simp only [Control.weight, Frame.weight, Nat.add_mul] <;> omega
    · cases else_ with
      | none => exact h.give trivial hpos
      | some stmt =>
        refine h.config (helse stmt rfl) ?_
        simp only [Control.weight, Frame.weight, Nat.add_mul]
        omega
  | whileCondition condition body => exact hf.elim
  | whileBody condition body => exact hf.elim
  | superclass name line methods =>
    cases v with
    | class_ c =>
      have hclass := allRoutines_declareClass h.store name (some c)
        (fun _ hc => Option.some.inj hc ▸ hv) hf
      exact (h.withStore hclass _ _).give trivial hpos
    | _ => exact h.raise hpos _ _
  | return_ => exact h.config hv (Nat.lt_succ_self 1)
  | sequence rest => exact lighter_sequence h hf
  | block outer => exact (h.withStore h.store outer _).give trivial hpos
  | call outer result => exact lighter_finishCall (h.withStore h.store outer _) hpos hf trivial
  | program rest =>
    cases rest with
    | nil => exact h.give trivial hpos
    | cons stmt rest =>
      obtain ⟨hstmt, hrest⟩ := List.forall_mem_cons.mp hf
      have hunit := unit_eq bound (headroom k)
      refine h.execPart (f := .program rest) hrest rfl hstmt ?_
      simp only [Frame.weight, Stmt.eachSize, Nat.add_mul, Nat.one_mul]
      omega

theorem lighter_returnThrough {f : Frame} (hf : f.Within bound)
    (h : s.Affords bound limited w (f.weight bound (headroom k) + 1) k) {v : Value}
    (hv : v.AllRoutines (Routine.Within bound)) :
    (returnThrough v f k s).Lighter bound limited w := by
  have hlt : 1 < f.weight bound (headroom k) + 1 := Nat.succ_lt_succ (f.weight_pos _ _)
  cases f with
  | call outer result =>
    exact lighter_finishCall (h.withStore h.store outer _) (Nat.succ_pos _) hf hv
  | block outer => exact (h.withStore h.store outer _).config hv hlt
  | program rest =>
    have hpush : s.Affords bound limited w 1 (.program rest :: k) := by
      refine h.push hf ?_
      omega
    exact hpush.give trivial Nat.one_pos
  | whileCondition condition body => exact hf.elim
  | whileBody condition body => exact hf.elim
  | _ => exact h.config hv hlt

theorem lighter_failThrough {f : Frame}
    (h : s.Affords bound limited w (f.weight bound (headroom k)) k) {e : Failure}
    (he : e = .outputFull → limited) : (failThrough e f k s).Lighter bound limited w := by
  have hpos := f.weight_pos bound (headroom k)
  cases f with
  | call outer result => exact (h.withStore h.store outer _).config he hpos
  | block outer => exact (h.withStore h.store outer _).config he hpos
  | _ => exact h.config he hpos

end Steps

namespace Config.Within

variable {c : Config}

/-- Every step makes a configuration lighter, until the machine has ended. -/
theorem lighter_step (h : c.Within bound limited) (hdepth : c.state.depth = openCalls c.frames)
    (hf : c.isFinal = false) : (Machine.step c).Lighter bound limited (c.weight bound) := by
  obtain ⟨control, frames, s⟩ := c
  obtain ⟨hcontrol, hframes, hstate⟩ := h
  cases control with
  | eval e => exact lighter_evalStep ⟨hstate, hframes, Nat.le_refl _⟩
  | exec stmt => exact lighter_execStep hcontrol ⟨hstate, hframes, Nat.le_refl _⟩
  | value v =>
    cases frames with
    | nil => cases hf
    | cons f k =>
      obtain ⟨hfirst, hrest⟩ := List.forall_mem_cons.mp hframes
      refine lighter_resume hfirst ⟨hstate, hrest, ?_⟩ hdepth hcontrol
      simp [Config.weight, Control.weight, framesWeight]
  | returning v =>
    cases frames with
    | nil => cases hf
    | cons f k =>
      obtain ⟨hfirst, hrest⟩ := List.forall_mem_cons.mp hframes
      refine lighter_returnThrough hfirst ⟨hstate, hrest, ?_⟩ hcontrol
      simp only [Config.weight, Control.weight, framesWeight]
      omega
  | failing e =>
    cases frames with
    | nil => cases hf
    | cons f k =>
      obtain ⟨hfirst, hrest⟩ := List.forall_mem_cons.mp hframes
      refine lighter_failThrough ⟨hstate, hrest, ?_⟩ hcontrol
      simp [Config.weight, Control.weight, framesWeight]

variable {home : ScopeId}

theorem step (h : c.Within bound limited) (hr : c.Rests home 0) :
    (Machine.step c).Within bound limited := by
  cases hf : c.isFinal with
  | true => rwa [step_of_isFinal hf]
  | false => exact (h.lighter_step (hr.depth.trans (Nat.zero_add _)) hf).toWithin

theorem run (h : c.Within bound limited) (hr : c.Rests home 0) (n : Nat) :
    (Machine.run n c).Within bound limited := by
  induction n generalizing c with
  | zero => exact h
  | succ n ih =>
    rw [run_succ]
    exact ih (h.step hr) hr.step

theorem limited_of_outcome? (h : c.Within bound limited)
    (ho : c.outcome? = some (.failed .outputFull)) : limited := by
  obtain ⟨control, frames, s⟩ := c
  cases frames with
  | cons f k => cases control <;> cases ho
  | nil =>
    cases control with
    | failing f =>
      cases ho
      exact h.control rfl
    | eval e => cases ho
    | exec stmt => cases ho
    | value v => cases ho
    | returning v => cases ho

/-- As many steps as the weight says are enough. -/
theorem isFinal_run (h : c.Within bound limited) (hr : c.Rests home 0) {n : Nat}
    (hn : c.weight bound ≤ n) : (Machine.run n c).isFinal := by
  induction n generalizing c with
  | zero =>
    cases hf : c.isFinal with
    | true => exact hf
    | false =>
      have hlt := (h.lighter_step (hr.depth.trans (Nat.zero_add _)) hf).weight
      omega
  | succ n ih =>
    cases hf : c.isFinal with
    | true => rwa [run_of_isFinal hf]
    | false =>
      have hlighter := h.lighter_step (hr.depth.trans (Nat.zero_add _)) hf
      have hlt := hlighter.weight
      rw [run_succ]
      exact ih hlighter.toWithin hr.step (by omega)

end Config.Within

end Machine

end LoxLang
