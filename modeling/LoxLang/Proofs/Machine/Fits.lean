import LoxLang.Machine.Run
import LoxLang.Proofs.Machine.Chain

/-!
# Configurations that fit the analysis

Code is run only where its scopes are realized. A closure keeps code together with the scope in which
it was declared, a frame keeps the code that is still to be run, and the scopes that became current
before are kept by the frames that make them current again.

`P` stands for what is known about each occurrence of a name.

## Main definitions

* `Value.Fits`, `Store.Fits`: all code in a value or a store fits.
* `FramesFit`: frames that wait for a value in given scopes.
* `Config.Fits`: the invariant of a running machine.
-/

namespace LoxLang

open Scoping

variable {P Q : Occurrence → Prop}

/-! ## Code -/

/-- All uses in an expression have the property, in the scopes around it. -/
def UsesFit (P : Occurrence → Prop) (scopes : Scopes) (pending : Option String) (us : List Use) :
    Prop :=
  ∀ u ∈ us, P ⟨u, scopes, pending⟩

@[simp] theorem usesFit_nil {scopes : Scopes} {pending : Option String} :
    UsesFit P scopes pending [] := by
  simp [UsesFit]

@[simp] theorem usesFit_cons {scopes : Scopes} {pending : Option String} {u : Use}
    {us : List Use} :
    UsesFit P scopes pending (u :: us) ↔ P ⟨u, scopes, pending⟩ ∧ UsesFit P scopes pending us := by
  simp [UsesFit]

@[simp] theorem usesFit_append {scopes : Scopes} {pending : Option String} {us vs : List Use} :
    UsesFit P scopes pending (us ++ vs) ↔
      UsesFit P scopes pending us ∧ UsesFit P scopes pending vs := by
  simp [UsesFit, or_imp, forall_and]

theorem usesFit_of_within {scopes : Scopes} {pending : Option String} {us : List Use}
    (h : ∀ o ∈ within scopes pending us, P o) : UsesFit P scopes pending us :=
  fun u hu => h _ (mem_within.mpr ⟨u, hu, rfl⟩)

/-- A regular statement whose occurrences have the property. -/
def Stmt.Fits (P : Occurrence → Prop) (scopes : Scopes) (s : Stmt) : Prop :=
  s.Regular ∧ ∀ o ∈ s.occurrences scopes, P o

def Stmt.EachFits (P : Occurrence → Prop) (scopes : Scopes) (ss : List Stmt) : Prop :=
  Stmt.EachRegular ss ∧ ∀ o ∈ Stmt.eachOccurrences scopes ss, P o

def Routine.Fits (P : Occurrence → Prop) (scopes : Scopes) (r : Routine) : Prop :=
  r.Regular ∧ ∀ o ∈ r.occurrences scopes, P o

/-- A statement that may be a branch or a loop body. -/
def Stmt.FitsInside (P : Occurrence → Prop) (scopes : Scopes) (s : Stmt) : Prop :=
  s.declared? = none ∧ s.Fits P scopes

theorem Stmt.eachFits_cons {scopes : Scopes} {s : Stmt} {ss : List Stmt} :
    Stmt.EachFits P scopes (s :: ss) ↔
      s.Fits P scopes ∧ Stmt.EachFits P (scopes.after s) ss := by
  simp only [Stmt.EachFits, Stmt.Fits, Stmt.EachRegular, Stmt.eachOccurrences, List.mem_append,
    or_imp, forall_and]
  grind

theorem Routine.fits_of_mem {scopes : Scopes} {rs : List Routine} (hr : Routine.EachRegular rs)
    (ho : ∀ o ∈ Routine.eachOccurrences scopes rs, P o) {r : Routine} (h : r ∈ rs) :
    r.Fits P scopes := by
  induction rs with
  | nil => cases h
  | cons head rs ih =>
    simp only [Routine.eachOccurrences, List.mem_append, or_imp, forall_and] at ho
    rcases List.mem_cons.mp h with rfl | h
    · exact ⟨hr.1, ho.1⟩
    · exact ih hr.2 ho.2 h

/-! ## Values -/

/-- A function fits where its scope realizes the scopes of its declaration. An initializer finds
`this` in its scope. -/
def Closure.Fits (P : Occurrence → Prop) (st : Store) (f : Closure) : Prop :=
  ∃ scopes, f.routine.Fits P scopes ∧ Realizes st none scopes f.scope ∧
    (f.isInitializer → st.Has f.scope Keyword.this.spelling)

/-- A method fits where its scope realizes the scopes around that of `this`. -/
def Closure.FitsAsMethod (P : Occurrence → Prop) (st : Store) (m : Closure) : Prop :=
  ∃ scopes, m.routine.Fits P ([Keyword.this.spelling] :: scopes) ∧
    Realizes st none scopes m.scope

/-- All methods of a class and of the classes above it fit. -/
def Class.Fits (P : Occurrence → Prop) (st : Store) : Class → Prop
  | .mk _ _ none methods => ∀ entry ∈ methods, entry.2.FitsAsMethod P st
  | .mk _ _ (some parent) methods =>
    Class.Fits P st parent ∧ ∀ entry ∈ methods, entry.2.FitsAsMethod P st

def Value.Fits (P : Occurrence → Prop) (st : Store) : Value → Prop
  | .function _ f => f.Fits P st
  | .class_ c => c.Fits P st
  | .object _ c => c.Fits P st
  | _ => True

section Mono

variable {st st' : Store} (hP : ∀ o, P o → Q o) (hle : st.Le st')

include hP

theorem Routine.Fits.mono {scopes : Scopes} {r : Routine} (h : r.Fits P scopes) :
    r.Fits Q scopes :=
  ⟨h.1, fun o ho => hP o (h.2 o ho)⟩

include hle

theorem Closure.Fits.mono {f : Closure} (h : f.Fits P st) : f.Fits Q st' := by
  obtain ⟨scopes, hr, hs, hi⟩ := h
  exact ⟨scopes, hr.mono hP, hs.mono hle, fun hinit => hle.has (hi hinit)⟩

theorem Closure.FitsAsMethod.mono {m : Closure} (h : m.FitsAsMethod P st) :
    m.FitsAsMethod Q st' := by
  obtain ⟨scopes, hr, hs⟩ := h
  exact ⟨scopes, hr.mono hP, hs.mono hle⟩

theorem Class.Fits.mono : ∀ {c : Class}, c.Fits P st → c.Fits Q st'
  | .mk _ _ none _, h => fun entry he => (h entry he).mono hP hle
  | .mk _ _ (some _) _, h => ⟨Class.Fits.mono h.1, fun entry he => (h.2 entry he).mono hP hle⟩

theorem Value.Fits.mono {v : Value} (h : v.Fits P st) : v.Fits Q st' := by
  cases v with
  | function i f => exact Closure.Fits.mono hP hle h
  | class_ c => exact Class.Fits.mono hP hle h
  | object i c => exact Class.Fits.mono hP hle h
  | _ => trivial

end Mono

theorem Value.Fits.grow {st st' : Store} {v : Value} (h : v.Fits P st) (hle : st.Le st') :
    v.Fits P st' :=
  h.mono (fun _ ho => ho) hle

theorem Bindings.mem_of_get? {α : Type} {name : String} {a : α} {b : Bindings α}
    (h : b.get? name = some a) : (name, a) ∈ b := by
  induction b with
  | nil => cases h
  | cons entry b ih =>
    rw [get?] at h
    split at h
    · next he =>
      obtain ⟨rfl, rfl⟩ : entry.1 = name ∧ entry.2 = a := ⟨he, Option.some.inj h⟩
      exact List.mem_cons_self
    · exact List.mem_cons_of_mem _ (ih h)

/-- A method that is found in a class that fits is one that fits. -/
theorem Class.Fits.method? {st : Store} {name : String} {m : Closure} :
    ∀ {c : Class}, c.Fits P st → c.method? name = some m → m.FitsAsMethod P st
  | .mk _ _ none methods, h, hm => h (name, m) (Bindings.mem_of_get? hm)
  | .mk _ _ (some parent) methods, h, hm => by
    rw [Class.method?] at hm
    split at hm
    · next he =>
      cases hm
      exact h.2 (name, m) (Bindings.mem_of_get? he)
    · exact Class.Fits.method? h.1 hm

/-! ## Stores -/

/-- All values in a store fit. -/
structure Store.Fits (P : Occurrence → Prop) (st : Store) : Prop where
  lookup : ∀ {s name v}, st.lookup? s name = some v → v.Fits P st
  field : ∀ {id name v}, st.field? id name = some v → v.Fits P st

namespace Store.Fits

variable {st : Store}

theorem mono (hP : ∀ o, P o → Q o) (h : st.Fits P) : st.Fits Q :=
  ⟨fun hv => (h.lookup hv).mono hP (.refl st), fun hv => (h.field hv).mono hP (.refl st)⟩

theorem addScope (h : st.Fits P) (outer : Option ScopeId) {b : Bindings Value}
    (hb : ∀ name v, b.get? name = some v → v.Fits P st) : (st.addScope outer b).Fits P := by
  have hle := st.le_addScope outer b
  refine ⟨fun {s name v} hv => ?_, fun hv => (h.field hv).grow hle⟩
  rw [lookup?_addScope] at hv
  split at hv
  · exact (hb name v hv).grow hle
  · exact (h.lookup hv).grow hle

/-- The new value may rest on its own definition. -/
theorem define (h : st.Fits P) (scope : ScopeId) {name : Name} {v : Value} (hn : name.IsOrdinary)
    (hv : v.Fits P (st.define scope name.text v)) : (st.define scope name.text v).Fits P := by
  have hle := st.le_define scope hn v
  refine ⟨fun {s word w} hw => ?_, fun hw => (h.field hw).grow hle⟩
  rw [lookup?_define] at hw
  split at hw
  · cases hw
    exact hv
  · exact (h.lookup hw).grow hle

theorem setField (h : st.Fits P) (id : ObjectId) (name : String) {v : Value} (hv : v.Fits P st) :
    (st.setField id name v).Fits P := by
  have hle : st.Le (st.setField id name v) := le_of_scopes_eq rfl
  refine ⟨fun hw => (h.lookup hw : Value.Fits P st _).grow hle,
    fun {i word w} hw => ?_⟩
  rw [field?_setField] at hw
  split at hw
  · cases hw
    exact hv.grow hle
  · exact (h.field hw).grow hle

theorem addObject (h : st.Fits P) : st.addObject.Fits P := by
  have hle : st.Le st.addObject := le_of_scopes_eq rfl
  refine ⟨fun hw => (h.lookup hw : Value.Fits P st _).grow hle, fun hw => ?_⟩
  rw [field?_addObject] at hw
  exact (h.field hw).grow hle

theorem takeIdentity (h : st.Fits P) : st.takeIdentity.Fits P := by
  have hle : st.Le st.takeIdentity := le_of_scopes_eq rfl
  exact ⟨fun hw => (h.lookup hw : Value.Fits P st _).grow hle,
    fun hw => (h.field hw : Value.Fits P st _).grow hle⟩

end Store.Fits

namespace Machine

/-! ## Frames -/

def CallResult.Fits (P : Occurrence → Prop) (st : Store) : CallResult → Prop
  | .returned => True
  | .receiver scope => st.Has scope Keyword.this.spelling
  | .given dropped v => dropped.Fits P st ∧ v.Fits P st

/-- The scope in which a call looks for its object when its body has ended. -/
def CallResult.scope? : CallResult → Option ScopeId
  | .returned => none
  | .receiver scope => some scope
  | .given dropped _ => dropped.scope?

/-- Only where it looks for its object can a call come to a fault. -/
theorem CallResult.exists_scope?_of_value_eq_error {st : Store} {v : Value} {f : Fault}
    {r : CallResult} (h : r.value st v = .error f) :
    ∃ scope, r.scope? = some scope ∧ st.getAt scope 0 Keyword.this.spelling = .error f := by
  induction r with
  | returned => cases h
  | receiver scope => exact ⟨scope, rfl, h⟩
  | given dropped w ih =>
    rw [value] at h
    cases hd : dropped.value st v with
    | error e =>
      rw [hd] at h
      cases h
      exact ih hd
    | ok x =>
      rw [hd] at h
      cases h

theorem CallResult.Fits.has_of_scope? {st : Store} {r : CallResult} {scope : ScopeId}
    (h : r.Fits P st) (hs : r.scope? = some scope) : st.Has scope Keyword.this.spelling := by
  induction r with
  | returned => cases hs
  | receiver a =>
    cases hs
    exact h
  | given dropped v ih => exact ih h.1 hs

/-- Frames that wait for a value while the scopes are `scopes`, with a name pending, and the current
scope is `scope`. The frames of blocks and calls say which scopes come next. -/
inductive FramesFit (P : Occurrence → Prop) (st : Store) :
    Scopes → Option String → ScopeId → List Frame → Prop where
  | nil (hg : scope = globalScope) : FramesFit P st [] none scope []
  | unary {op line} : FramesFit P st scopes pending scope k →
      FramesFit P st scopes pending scope (.unary op line :: k)
  | binaryLeft {op line} (he : UsesFit P scopes pending right.uses) :
      FramesFit P st scopes pending scope k →
      FramesFit P st scopes pending scope (.binaryLeft op line right :: k)
  | binaryRight {op line} (hv : left.Fits P st) : FramesFit P st scopes pending scope k →
      FramesFit P st scopes pending scope (.binaryRight op line left :: k)
  | logical {op} (he : UsesFit P scopes pending right.uses) :
      FramesFit P st scopes pending scope k →
      FramesFit P st scopes pending scope (.logical op right :: k)
  | assign (hu : P ⟨⟨site, .assign, name⟩, scopes, pending⟩) :
      FramesFit P st scopes pending scope k →
      FramesFit P st scopes pending scope (.assign site name :: k)
  | callee {line} (he : UsesFit P scopes pending (Expr.argsUses args)) :
      FramesFit P st scopes pending scope k →
      FramesFit P st scopes pending scope (.callee line args :: k)
  | argument {line} (hv : callee.Fits P st) (hd : ∀ v ∈ done, v.Fits P st)
      (he : UsesFit P scopes pending (Expr.argsUses rest)) :
      FramesFit P st scopes pending scope k →
      FramesFit P st scopes pending scope (.argument line callee done rest :: k)
  | get {name} : FramesFit P st scopes pending scope k →
      FramesFit P st scopes pending scope (.get name :: k)
  | setObject {name} (he : UsesFit P scopes pending value.uses) :
      FramesFit P st scopes pending scope k →
      FramesFit P st scopes pending scope (.setObject name value :: k)
  | setValue {name object} : FramesFit P st scopes pending scope k →
      FramesFit P st scopes pending scope (.setValue name object :: k)
  | print : FramesFit P st scopes none scope k → FramesFit P st scopes none scope (.print :: k)
  | var (hn : name.IsOrdinary) (hp : pending = none ∨ pending = some name.text) :
      FramesFit P st scopes none scope k → FramesFit P st scopes pending scope (.var name :: k)
  | if_ (hthen : then_.FitsInside P scopes) (helse : ∀ s ∈ else_, s.FitsInside P scopes) :
      FramesFit P st scopes none scope k →
      FramesFit P st scopes none scope (.if_ then_ else_ :: k)
  | whileCondition (he : UsesFit P scopes none condition.uses) (hs : body.FitsInside P scopes) :
      FramesFit P st scopes none scope k →
      FramesFit P st scopes none scope (.whileCondition condition body :: k)
  | whileBody (he : UsesFit P scopes none condition.uses) (hs : body.FitsInside P scopes) :
      FramesFit P st scopes none scope k →
      FramesFit P st scopes none scope (.whileBody condition body :: k)
  | superclass {line} (hn : name.IsOrdinary) (hp : pending = none ∨ pending = some name.text)
      (hm : ∀ r ∈ methods, r.Fits P
        ([Keyword.this.spelling] :: [Keyword.super.spelling] :: scopes)) :
      FramesFit P st scopes none scope k →
      FramesFit P st scopes pending scope (.superclass name line methods :: k)
  | return_ : FramesFit P st scopes none scope k →
      FramesFit P st scopes none scope (.return_ :: k)
  | sequence (hs : Stmt.EachFits P scopes rest) :
      FramesFit P st (scopes.afterAll rest) none scope k →
      FramesFit P st scopes none scope (.sequence rest :: k)
  | block (ho : Realizes st none outside outer) : FramesFit P st outside none outer k →
      FramesFit P st scopes none scope (.block outer :: k)
  | call (ho : Realizes st waiting outside outer) (hr : result.Fits P st) :
      FramesFit P st outside waiting outer k →
      FramesFit P st scopes none scope (.call outer result :: k)
  | program (hs : Stmt.EachFits P [] rest) : FramesFit P st [] none scope k →
      FramesFit P st [] none scope (.program rest :: k)

theorem CallResult.Fits.grow {st st' : Store} {r : CallResult} (h : r.Fits P st)
    (hle : st.Le st') : r.Fits P st' := by
  induction r with
  | returned => trivial
  | receiver scope => exact hle.has h
  | given dropped v ih => exact ⟨ih h.1, h.2.grow hle⟩

theorem FramesFit.grow {st st' : Store} (hle : st.Le st') {scopes : Scopes}
    {pending : Option String} {scope : ScopeId} {k : List Frame}
    (h : FramesFit P st scopes pending scope k) : FramesFit P st' scopes pending scope k := by
  induction h with
  | nil hg => exact .nil hg
  | unary _ ih => exact .unary ih
  | binaryLeft he _ ih => exact .binaryLeft he ih
  | binaryRight hv _ ih => exact .binaryRight (hv.grow hle) ih
  | logical he _ ih => exact .logical he ih
  | assign hu _ ih => exact .assign hu ih
  | callee he _ ih => exact .callee he ih
  | argument hv hd he _ ih =>
    exact .argument (hv.grow hle) (fun v hm => (hd v hm).grow hle) he ih
  | get _ ih => exact .get ih
  | setObject he _ ih => exact .setObject he ih
  | setValue _ ih => exact .setValue ih
  | print _ ih => exact .print ih
  | var hn hp _ ih => exact .var hn hp ih
  | if_ hthen helse _ ih => exact .if_ hthen helse ih
  | whileCondition he hs _ ih => exact .whileCondition he hs ih
  | whileBody he hs _ ih => exact .whileBody he hs ih
  | superclass hn hp hm _ ih => exact .superclass hn hp hm ih
  | return_ _ ih => exact .return_ ih
  | sequence hs _ ih => exact .sequence hs ih
  | block ho _ ih => exact .block (ho.mono hle) ih
  | call ho hr _ ih => exact .call (ho.mono hle) (hr.grow hle) ih
  | program hs _ ih => exact .program hs ih

/-! ## Configurations -/

def Frame.isCall : Frame → Bool
  | .call _ _ => true
  | _ => false

/-- The number of calls among frames that are not finished. -/
def openCalls (k : List Frame) : Nat := k.countP Frame.isCall

/-- The values in a state fit and its depth is that of the calls. -/
structure State.Fits (P : Occurrence → Prop) (k : List Frame) (s : State) : Prop where
  store : s.store.Fits P
  depth : s.depth = openCalls k

/-- A state in which the frames take a value. -/
structure Awaits (P : Occurrence → Prop) (scopes : Scopes) (pending : Option String)
    (k : List Frame) (s : State) : Prop extends s.Fits P k where
  realized : Realizes s.store pending scopes s.scope
  frames : FramesFit P s.store scopes pending s.scope k

/-- A state in which the frames are left one by one. The scopes of the place are lost. -/
structure Leaves (P : Occurrence → Prop) (k : List Frame) (s : State) : Prop
    extends s.Fits P k where
  frames : ∃ scopes pending, FramesFit P s.store scopes pending s.scope k

/-- A state in which a statement is to be executed. -/
structure Executes (P : Occurrence → Prop) (scopes : Scopes) (stmt : Stmt) (k : List Frame)
    (s : State) : Prop extends s.Fits P k where
  code : stmt.Fits P scopes
  realized : Realizes s.store none scopes s.scope
  frames : FramesFit P s.store (scopes.after stmt) none s.scope k

/-- The invariant of a running machine. -/
def Config.Fits (P : Occurrence → Prop) : Config → Prop
  | ⟨.eval e, k, s⟩ => ∃ scopes pending, UsesFit P scopes pending e.uses ∧
      Awaits P scopes pending k s
  | ⟨.exec stmt, k, s⟩ => ∃ scopes, Executes P scopes stmt k s
  | ⟨.value v, k, s⟩ => v.Fits P s.store ∧ ∃ scopes pending, Awaits P scopes pending k s
  | ⟨.returning v, k, s⟩ => v.Fits P s.store ∧ Leaves P k s
  | ⟨.failing _, k, s⟩ => Leaves P k s

theorem Awaits.leaves {scopes : Scopes} {pending : Option String} {k : List Frame} {s : State}
    (h : Awaits P scopes pending k s) : Leaves P k s :=
  ⟨h.toFits, scopes, pending, h.frames⟩

end Machine

end LoxLang
