import LoxLang.Proofs.Lexical.World

/-!
# States and configurations that belong together

Every name in a local scope has a cell with a value that belongs to its value there, and different
names have different cells. The scope that is current, and those that will be current again, have no
other names than the analysis has seen so far; this is what lets a declaration take a new cell. The
scopes that will be current again are older than the current one, so that its declarations do not
touch them.

## Main definitions

* `World.States`: the two machines hold the same.
* `World.Current`: the current scope and the current environment.
* `World.Stacks`, `World.Configs`: frames and configurations that belong together.
-/

namespace LoxLang.Lexical.World

open Scoping Machine

/-! ## States -/

/-- The two machines hold the same values, but for the current scope and environment. -/
structure States (w : World) (P : Occurrence → Prop) (s : Machine.State) (l : Lexical.State) :
    Prop where
  outer : ∀ scope, w.outer scope = s.store.enclosing? scope
  env : ∀ e, w.env e = l.envs[e]?
  top : w.env topLevel = some []
  injective : ∀ {a name b word c}, w.cell a name = some c → w.cell b word = some c →
    a = b ∧ name = word
  cells : ∀ {a name c}, w.cell a name = some c → c < l.cells.size
  scopes : ∀ {a name c}, w.cell a name = some c → a ≠ globalScope ∧ a < s.store.nextScope
  locals : ∀ {a name v}, a ≠ globalScope → s.store.lookup? a name = some v →
    ∃ c v', w.cell a name = some c ∧ l.cells[c]? = some v' ∧ w.Values P v v'
  globals : ∀ name, Option.Rel (w.Values P) (s.store.lookup? globalScope name)
    (l.globals.get? name)
  global : s.store.enclosing? globalScope = none ∧ globalScope < s.store.nextScope
  fields : ∀ id name, Option.Rel (w.Values P) (s.store.field? id name) (l.field? id name)
  objects : l.objects.size = s.store.nextObject
  identity : l.nextIdentity = s.store.nextIdentity
  depth : l.depth = s.depth
  output : l.output = s.output
  clock : l.clock = s.clock

theorem States.mono {w : World} {P Q : Occurrence → Prop} {s : Machine.State} {l : Lexical.State}
    (h : w.States P s l) (hP : ∀ o, P o → Q o) : w.States Q s l := by
  refine ⟨h.outer, h.env, h.top, h.injective, h.cells, h.scopes, fun {a name v} ha hv => ?_,
    fun name => optional_mono hP (.refl w) (h.globals name), h.global,
    fun id name => optional_mono hP (.refl w) (h.fields id name), h.objects, h.identity, h.depth,
    h.output, h.clock⟩
  obtain ⟨c, v', hc, hcell, hvalues⟩ := h.locals ha hv
  exact ⟨c, v', hc, hcell, hvalues.mono hP (.refl w)⟩

/-- The current scope and the current environment. Only at the top level there are no scopes. -/
structure Current (w : World) (scopes : Scopes) (scope : ScopeId) (env : EnvId) : Prop where
  maps : w.Scoped scopes scope env
  exact : ∀ names ∈ scopes.head?, ∀ name c, w.cell scope name = some c → name ∈ names
  top : scopes = [] → scope = globalScope ∧ env = topLevel
  inner : scopes ≠ [] → env ≠ topLevel

theorem Current.mono {w w' : World} {scopes : Scopes} {scope : ScopeId} {env : EnvId}
    (h : w.Current scopes scope env) (hle : w.Le w')
    (hs : ∀ name c, w'.cell scope name = some c → w.cell scope name = some c) :
    w'.Current scopes scope env :=
  ⟨h.maps.mono hle, fun names hn name c hc => h.exact names hn name c (hs name c hc), h.top,
    h.inner⟩

/-! ## Frames -/

/-- What a call gives when its body has ended. -/
inductive CallResults (w : World) (P : Occurrence → Prop) : CallResult → CallResult → Prop where
  | returned : CallResults w P .returned .returned
  | receiver (hc : w.cell a Keyword.this.spelling = some c) (hρ : w.env e = some ρ)
      (hthis : ρ.get? Keyword.this.spelling = some c) :
      CallResults w P (.receiver a) (.receiver e)
  | given (hd : CallResults w P r r') (h : w.Values P v v') :
      CallResults w P (.given r v) (.given r' v')

/-- Frames with the same code that wait for a value while the analysis sees `scopes` and the current
scope is `scope`. -/
inductive Stacks (w : World) (P : Occurrence → Prop) :
    Scopes → ScopeId → List Frame → List Frame → Prop where
  | nil (hg : scope = globalScope) : Stacks w P [] scope [] []
  | unary {op line} : Stacks w P scopes scope k k' →
      Stacks w P scopes scope (.unary op line :: k) (.unary op line :: k')
  | binaryLeft {op line} (he : UsesFit P scopes none right.uses) : Stacks w P scopes scope k k' →
      Stacks w P scopes scope (.binaryLeft op line right :: k) (.binaryLeft op line right :: k')
  | binaryRight {op line} (hv : w.Values P left left') : Stacks w P scopes scope k k' →
      Stacks w P scopes scope (.binaryRight op line left :: k) (.binaryRight op line left' :: k')
  | logical {op} (he : UsesFit P scopes none right.uses) : Stacks w P scopes scope k k' →
      Stacks w P scopes scope (.logical op right :: k) (.logical op right :: k')
  | assign (hu : P ⟨⟨site, .assign, name⟩, scopes, none⟩) : Stacks w P scopes scope k k' →
      Stacks w P scopes scope (.assign site name :: k) (.assign site name :: k')
  | callee {line} (he : UsesFit P scopes none (Expr.argsUses args)) :
      Stacks w P scopes scope k k' →
      Stacks w P scopes scope (.callee line args :: k) (.callee line args :: k')
  | argument {line} (hv : w.Values P callee callee') (hd : List.Forall₂ (w.Values P) done done')
      (he : UsesFit P scopes none (Expr.argsUses rest)) : Stacks w P scopes scope k k' →
      Stacks w P scopes scope (.argument line callee done rest :: k)
        (.argument line callee' done' rest :: k')
  | get {name} : Stacks w P scopes scope k k' →
      Stacks w P scopes scope (.get name :: k) (.get name :: k')
  | setObject {name} (he : UsesFit P scopes none value.uses) : Stacks w P scopes scope k k' →
      Stacks w P scopes scope (.setObject name value :: k) (.setObject name value :: k')
  | setValue {name object} : Stacks w P scopes scope k k' →
      Stacks w P scopes scope (.setValue name object :: k) (.setValue name object :: k')
  | print : Stacks w P scopes scope k k' →
      Stacks w P scopes scope (.print :: k) (.print :: k')
  | var (hn : ∀ names ∈ scopes.head?, name.text ∈ names) : Stacks w P scopes scope k k' →
      Stacks w P scopes scope (.var name :: k) (.var name :: k')
  | if_ (hd : then_.declared? = none) (hthen : then_.Valid P scopes)
      (helse : ∀ s ∈ else_, s.declared? = none ∧ s.Valid P scopes) :
      Stacks w P scopes scope k k' →
      Stacks w P scopes scope (.if_ then_ else_ :: k) (.if_ then_ else_ :: k')
  | whileCondition (he : UsesFit P scopes none condition.uses) (hd : body.declared? = none)
      (hs : body.Valid P scopes) : Stacks w P scopes scope k k' →
      Stacks w P scopes scope (.whileCondition condition body :: k)
        (.whileCondition condition body :: k')
  | whileBody (he : UsesFit P scopes none condition.uses) (hd : body.declared? = none)
      (hs : body.Valid P scopes) : Stacks w P scopes scope k k' →
      Stacks w P scopes scope (.whileBody condition body :: k) (.whileBody condition body :: k')
  | superclass {line} (hn : ∀ names ∈ scopes.head?, name.text ∈ names)
      (hm : ∀ r ∈ methods, r.Valid P
        ([Keyword.this.spelling] :: [Keyword.super.spelling] :: scopes)) :
      Stacks w P scopes scope k k' →
      Stacks w P scopes scope (.superclass name line methods :: k)
        (.superclass name line methods :: k')
  | return_ : Stacks w P scopes scope k k' →
      Stacks w P scopes scope (.return_ :: k) (.return_ :: k')
  | sequence (hs : Stmt.EachValid P scopes rest) : Stacks w P (scopes.afterAll rest) scope k k' →
      Stacks w P scopes scope (.sequence rest :: k) (.sequence rest :: k')
  | block (hc : w.Current outside a e) (hlt : a < scope) : Stacks w P outside a k k' →
      Stacks w P scopes scope (.block a :: k) (.block e :: k')
  | call (hc : w.Current outside a e) (hlt : a < scope) (hr : w.CallResults P result result') :
      Stacks w P outside a k k' →
      Stacks w P scopes scope (.call a result :: k) (.call e result' :: k')
  | program (hg : scope = globalScope) (hs : Stmt.EachValid P [] rest) :
      Stacks w P [] scope k k' →
      Stacks w P [] scope (.program rest :: k) (.program rest :: k')

theorem CallResults.mono {w w' : World} {P : Occurrence → Prop} {r r' : CallResult}
    (h : w.CallResults P r r') (hle : w.Le w') : w'.CallResults P r r' := by
  induction h with
  | returned => exact .returned
  | receiver hc hρ hthis => exact .receiver (hle.cell hc) (hle.env hρ) hthis
  | given _ h ih => exact .given ih (h.grow hle)

/-- Frames still belong together when the world has grown and the scopes that are older than the
current one have no new names. -/
theorem Stacks.mono {w w' : World} {P : Occurrence → Prop} {scopes : Scopes} {scope : ScopeId}
    {k k' : List Frame} (h : w.Stacks P scopes scope k k') (hle : w.Le w')
    (hold : ∀ a < scope, ∀ name c, w'.cell a name = some c → w.cell a name = some c) :
    w'.Stacks P scopes scope k k' := by
  induction h with
  | nil hg => exact .nil hg
  | unary _ ih => exact .unary (ih hold)
  | binaryLeft he _ ih => exact .binaryLeft he (ih hold)
  | binaryRight hv _ ih => exact .binaryRight (hv.grow hle) (ih hold)
  | logical he _ ih => exact .logical he (ih hold)
  | assign hu _ ih => exact .assign hu (ih hold)
  | callee he _ ih => exact .callee he (ih hold)
  | argument hv hd he _ ih =>
    exact .argument (hv.grow hle) (hd.imp fun _ _ h => h.grow hle) he (ih hold)
  | get _ ih => exact .get (ih hold)
  | setObject he _ ih => exact .setObject he (ih hold)
  | setValue _ ih => exact .setValue (ih hold)
  | print _ ih => exact .print (ih hold)
  | var hn _ ih => exact .var hn (ih hold)
  | if_ hd hthen helse _ ih => exact .if_ hd hthen helse (ih hold)
  | whileCondition he hd hs _ ih => exact .whileCondition he hd hs (ih hold)
  | whileBody he hd hs _ ih => exact .whileBody he hd hs (ih hold)
  | superclass hn hm _ ih => exact .superclass hn hm (ih hold)
  | return_ _ ih => exact .return_ (ih hold)
  | sequence hs _ ih => exact .sequence hs (ih hold)
  | block hc hlt _ ih =>
    exact .block (hc.mono hle (hold _ hlt)) hlt (ih fun a ha => hold a (Nat.lt_trans ha hlt))
  | call hc hlt hr _ ih =>
    exact .call (hc.mono hle (hold _ hlt)) hlt (hr.mono hle)
      (ih fun a ha => hold a (Nat.lt_trans ha hlt))
  | program hg hs _ ih => exact .program hg hs (ih hold)

/-! ## Configurations -/

/-- The two machines are about to do the same. -/
inductive Configs (w : World) (P : Occurrence → Prop) :
    Machine.Config → Lexical.Config → Prop where
  | eval (hs : w.States P s l) (he : UsesFit P scopes none e.uses)
      (hc : w.Current scopes s.scope l.env) (hk : w.Stacks P scopes s.scope k k') :
      Configs w P ⟨.eval e, k, s⟩ ⟨.eval e, k', l⟩
  | exec (hs : w.States P s l) (hv : stmt.Valid P scopes)
      (hc : w.Current scopes s.scope l.env) (hk : w.Stacks P (scopes.after stmt) s.scope k k') :
      Configs w P ⟨.exec stmt, k, s⟩ ⟨.exec stmt, k', l⟩
  | value (hs : w.States P s l) (hv : w.Values P v v') (hc : w.Current scopes s.scope l.env)
      (hk : w.Stacks P scopes s.scope k k') : Configs w P ⟨.value v, k, s⟩ ⟨.value v', k', l⟩
  | returning (hs : w.States P s l) (hv : w.Values P v v')
      (hg : s.scope = globalScope → l.env = topLevel) (hk : w.Stacks P scopes s.scope k k') :
      Configs w P ⟨.returning v, k, s⟩ ⟨.returning v', k', l⟩
  | failing {f} (hs : w.States P s l) (hg : s.scope = globalScope → l.env = topLevel)
      (hk : w.Stacks P scopes s.scope k k') :
      Configs w P ⟨.failing f, k, s⟩ ⟨.failing f, k', l⟩

end LoxLang.Lexical.World
