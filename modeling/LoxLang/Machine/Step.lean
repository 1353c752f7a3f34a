import LoxLang.Machine.Call
import LoxLang.Machine.Operation

/-!
# Steps

One step of the machine: an expression or statement is taken apart, a value is handed to the frame
on top, or frames are left because of a `return` or a failure.
-/

namespace LoxLang.Machine

/-- Takes an expression apart. -/
def evalStep (e : Expr) (k : List Frame) (s : State) : Config :=
  match e with
  | .literal l => give l.value k s
  | .group inner => ⟨.eval inner, k, s⟩
  | .unary op line operand => ⟨.eval operand, .unary op line :: k, s⟩
  | .binary op line left right => ⟨.eval left, .binaryLeft op line right :: k, s⟩
  | .logical op _ left right => ⟨.eval left, .logical op right :: k, s⟩
  | .variable site name => readName site name.text name.line k s
  | .assign site name value => ⟨.eval value, .assign site name :: k, s⟩
  | .call callee line args => ⟨.eval callee, .callee line args :: k, s⟩
  | .get object name => ⟨.eval object, .get name :: k, s⟩
  | .set object name value => ⟨.eval object, .setObject name value :: k, s⟩
  | .this site line => readName site Keyword.this.spelling line k s
  | .super site line method => getSuper site line method k s

/-- Takes a statement apart. -/
def execStep (stmt : Stmt) (k : List Frame) (s : State) : Config :=
  match stmt with
  | .expression e => ⟨.eval e, k, s⟩
  | .print e => ⟨.eval e, .print :: k, s⟩
  | .var name none => give .nil k (s.define name.text .nil)
  | .var name (some e) => ⟨.eval e, .var name :: k, s⟩
  | .block body =>
    let inner := s.store.nextScope
    sequence body (.block s.scope :: k)
      { s with store := s.store.addScope (some s.scope) [], scope := inner }
  | .if_ condition then_ else_ => ⟨.eval condition, .if_ then_ else_ :: k, s⟩
  | .while_ condition body => ⟨.eval condition, .whileCondition condition body :: k, s⟩
  | .function routine =>
    let closure : Closure := ⟨routine, s.scope, false⟩
    let f := Value.function s.store.nextIdentity closure
    let s := { s with store := s.store.takeIdentity }
    give .nil k (s.define routine.name.text f)
  | .return_ _ none => ⟨.returning .nil, k, s⟩
  | .return_ _ (some e) => ⟨.eval e, .return_ :: k, s⟩
  | .class_ name none methods => give .nil k (declareClass name none methods s)
  | .class_ name (some parent) methods =>
    ⟨.eval (.variable parent.site parent.name),
      .superclass name parent.name.line methods :: k, s⟩

/-- Hands a value to a frame. -/
def resume (v : Value) (f : Frame) (k : List Frame) (s : State) : Config :=
  match f with
  | .unary op line => giveOrRaise (op.apply v) line k s
  | .binaryLeft op line right => ⟨.eval right, .binaryRight op line v :: k, s⟩
  | .binaryRight op line left => giveOrRaise (op.apply left v) line k s
  | .logical op right => if op.decides v then give v k s else ⟨.eval right, k, s⟩
  | .assign site name => writeName site name v k s
  | .callee line args => callWith line v [] args k s
  | .argument line callee done rest => callWith line callee (v :: done) rest k s
  | .get name => getProperty v name k s
  | .setObject name value =>
    match v with
    | .object id _ => ⟨.eval value, .setValue name id :: k, s⟩
    | _ => raise .noFields name.line k s
  | .setValue name object =>
    give v k { s with store := s.store.setField object name.text v }
  | .print =>
    match s.output.print? v.text with
    | some output => give .nil k { s with output := output }
    | none => ⟨.failing .outputFull, k, s⟩
  | .var name => give .nil k (s.define name.text v)
  | .if_ then_ else_ =>
    if v.isTruthy then ⟨.exec then_, k, s⟩
    else
      match else_ with
      | some stmt => ⟨.exec stmt, k, s⟩
      | none => give .nil k s
  | .whileCondition condition body =>
    if v.isTruthy then ⟨.exec body, .whileBody condition body :: k, s⟩ else give .nil k s
  | .whileBody condition body => ⟨.eval condition, .whileCondition condition body :: k, s⟩
  | .superclass name line methods =>
    match v with
    | .class_ c => give .nil k (declareClass name (some c) methods s)
    | _ => raise .superclassNotClass line k s
  | .return_ => ⟨.returning v, k, s⟩
  | .sequence rest => sequence rest k s
  | .block outer => give .nil k { s with scope := outer }
  | .call outer result => finishCall result .nil k (leaveCall outer s)
  | .program rest =>
    match rest with
    | [] => give .nil k s
    | stmt :: rest => ⟨.exec stmt, .program rest :: k, s⟩

/-- Leaves a frame because of a `return`. A call ends it, and so does the top level. -/
def returnThrough (v : Value) (f : Frame) (k : List Frame) (s : State) : Config :=
  match f with
  | .call outer result => finishCall result v k (leaveCall outer s)
  | .block outer => ⟨.returning v, k, { s with scope := outer }⟩
  | .program rest => ⟨.value .nil, .program rest :: k, s⟩
  | _ => ⟨.returning v, k, s⟩

/-- Leaves a frame because of a failure. -/
def failThrough (e : Failure) (f : Frame) (k : List Frame) (s : State) : Config :=
  match f with
  | .call outer _ => ⟨.failing e, k, leaveCall outer s⟩
  | .block outer => ⟨.failing e, k, { s with scope := outer }⟩
  | _ => ⟨.failing e, k, s⟩

/-- One step. A machine that has ended stays as it is. -/
def step : Config → Config
  | ⟨.eval e, k, s⟩ => evalStep e k s
  | ⟨.exec stmt, k, s⟩ => execStep stmt k s
  | ⟨.value v, f :: k, s⟩ => resume v f k s
  | ⟨.returning v, f :: k, s⟩ => returnThrough v f k s
  | ⟨.failing e, f :: k, s⟩ => failThrough e f k s
  | ⟨control, [], s⟩ => ⟨control, [], s⟩

end LoxLang.Machine
