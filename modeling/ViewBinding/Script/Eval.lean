import ViewBinding.Data.Observe
import ViewBinding.Data.Read
import ViewBinding.Engine

/-! The values of expressions. -/

namespace ViewBinding

/-- The view-model with a name. Without one it is that of the script, or else `main`. -/
def Frame.findModel (f : Frame) (w : World) : Option String → Except Fault (Ref .model)
  | some name => found name
  | none => f.model.elim (found "main") .ok
where
  found (name : String) : Except Fault (Ref .model) :=
    (w.names.models.held[name]?).elim (.error (.noSuch .model)) .ok

/-- What the script was called with, and null for what it was not. -/
def Frame.argument (f : Frame) : Argument → Value
  | .new => (f.change.map Change.new).getD .null
  | .old => (f.change.map Change.old).getD .null
  | .kind => (f.event.map fun event => .string event.kind).getD .null
  | .value => ((f.event.bind Event.value).map .string).getD .null

def Value.isTrue : Value → Bool
  | .bool true => true
  | _ => false

variable (compute : Computed → Reading Value) (f : Frame)

def Frame.read (model : Option String) (path : String) : Reading Value := do
  let m ← MonadExcept.ofExcept (f.findModel (← getThe World) model)
  ViewModel.read compute m path

mutual

/-- The value of an expression. Operands are evaluated left to right, and the first fault ends it.
-/
def Expr.eval : Expr → Reading Value
  | .data d => modifyGetThe World (World.observe d)
  | .number x => return .number x
  | .get model path => f.read compute model path
  | .peek model path => Reading.ofAction (f.read compute model path).once
  | .property object key => do
    let object ← object.eval
    let key ← key.eval
    match object.object? with
    | some o => Object.read compute o key.text
    | none => throw (.noSuch .object)
  | .root model => do
    let w ← getThe World
    let m ← MonadExcept.ofExcept (f.findModel w (some model))
    return .object (w.models.get m).data
  | .saved name => do
    match (← getThe World).names.values[name]? with
    | some v => return v
    | none => throw (.noSuch .value)
  | .array items => do
    let vs ← Expr.evalAll items
    modifyGetThe World (·.addArray vs)
  | .concat parts => do
    let vs ← Expr.evalAll parts
    return .string (String.join (vs.map Value.text))
  | .add a b => do
    let x ← a.eval
    let y ← b.eval
    return .number (x.toNumber + y.toNumber)
  | .mul a b => do
    let x ← a.eval
    let y ← b.eval
    return .number (x.toNumber * y.toNumber)
  | .less a b => do
    let x ← a.eval
    let y ← b.eval
    return .bool (x.toNumber < y.toNumber)
  | .same a b => do
    let x ← a.eval
    let y ← b.eval
    return .bool (x.same y)
  | .cond test yes no => do
    let v ← test.eval
    if v.isTrue then yes.eval else no.eval
  | .sort e => do
    let v ← e.eval
    return .string v.sort.name
  | .fail message => throw (.raised message)
  | .tracking => return .bool (← getThe Evaluation).subscriber.isSome
  | .registrations => return .number (Float.ofNat (← getThe Evaluation).registrations)
  | .argument which => return f.argument which
termination_by structural e => e

def Expr.evalAll : List Expr → Reading (List Value)
  | [] => return []
  | e :: es => do
    let v ← e.eval
    let vs ← Expr.evalAll es
    return v :: vs
termination_by structural es => es

end

/-- Works out a computed property. Its view-model has to be alive. -/
def Computed.eval (p : Computed) : Reading Value := do
  unless (← getThe World).modelAlive p.model do
    throw .detached
  Reading.ofAction (Action.tell (.computed p))
  p.body.eval compute { model := p.model }

end ViewBinding
