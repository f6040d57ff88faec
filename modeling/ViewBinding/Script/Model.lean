import ViewBinding.Binding
import ViewBinding.Data.Description
import ViewBinding.Data.Export
import ViewBinding.Script.Lookup

/-! The steps that make view-models, bind them, and work on them. -/

namespace ViewBinding.Script

variable (e : Engine) (f : Frame)

def setup (data : Option Expr) (computed : List (String × Expr))
    (methods : List (String × List Step)) : Action Setup := do
  let data ← value e f (data.getD (.data (.object [])))
  return { data, computed, methods }

def nameModel (name : Option String) (m : Ref .model) : Action Unit :=
  changeNames fun names => { names with models := names.models.bind (modelName name) m }

def watcherCount (m : Ref .model) : Action Nat := do
  return ((← get).models.get m).watchers.length

def build (name : Option String) (data : Option Expr) (computed : List (String × Expr))
    (methods : List (String × List Step)) : Action Answer := do
  let m ← ViewModel.create (← setup e f data computed methods)
  nameModel name m
  return .watchers (← watcherCount m)

def mount (name : Option String) (target : Target) (data : Option Expr)
    (computed : List (String × Expr)) (methods : List (String × List Step)) (settings : Settings) :
    Action Answer := do
  let setup ← setup e f data computed methods
  let point ← match target with
    | .selector text => pure (MountPoint.selector text)
    | .node n => MountPoint.node <$> findNode n
  let m ← ViewModel.mount e.compute point setup settings (nameModel name)
  return .watchers (← watcherCount m)

def compile (name : Option String) (node : Nat) (settings : Settings) : Action Answer :=
  withModel f name fun m => do
    settings.compile e.compute m (← findNode node)
    return .watchers (← watcherCount m)

def dropModel (name : Option String) : Action Answer := do
  let bound := (← get).names.models.held.contains (modelName name)
  changeNames fun names => { names with models := names.models.drop (modelName name) }
  return .flag bound

def alive (name : Option String) : Action Answer := do
  let w ← get
  return .flag ((w.names.models.last[modelName name]?).any w.modelAlive)

def read (name : Option String) (path : String) : Action Answer :=
  withModel f name fun m => return .value (← (ViewModel.read e.compute m path).once)

def write (name : Option String) (path : String) (x : Expr) : Action Answer :=
  withModel f name fun m => do
    let v ← value e f x
    return .flag (← ViewModel.write e.compute (Subscriber.update e) m path v)

def call (name : Option String) (method kind : String) (text : Option String) : Action Answer :=
  withModel f name fun m => do
    ViewModel.call e m method { kind, value := text }
    return .nothing

def hasMethod (name : Option String) (method : String) : Action Answer :=
  withModel f name fun m => return .flag (ViewModel.hasMethod (← get) m method)

def snapshot (name : Option String) : Action Answer :=
  withModel f name fun m => do
    let w ← get
    return .document (← Action.finished (w.export? (w.models.get m).data))

def countWatchers (name : Option String) : Action Answer :=
  withModel f name fun m => return .count (← watcherCount m)

def showModel (name : Option String) : Action Answer :=
  withModel f name fun m => return .text (← Action.finished ((← get).describeModel? m))

def render (name : Option String) (text : String) (delimiters : Delimiters) : Action Answer :=
  match Template.parse delimiters text with
  | none => return .nothing
  | some t => withModel f name fun m => return .text (← t.render e.compute m)

end ViewBinding.Script
