import ViewBinding.Watcher

/-! View-models: a data object with methods, computed properties and watchers. -/

namespace ViewBinding

structure Setup where
  data : Value
  computed : List (String × Expr) := []
  /-- Of two methods with one name the later counts. -/
  methods : List (String × List Step) := []
  deriving Inhabited

def Setup.methodTable (setup : Setup) : Keyed (List Step) :=
  setup.methods.foldl (fun table (name, steps) => table.insert name steps) ∅

namespace ViewModel

/-- Makes a view-model and defines its computed properties on the data, in place of what is there.
-/
def create (setup : Setup) : Action (Ref .model) := do
  let data ← Action.require (.rootNotObject setup.data.sort) setup.data.object?
  let m := (← get).models.fresh
  setup.computed.forM fun (name, body) =>
    modify (·.setComputed data { name, body, model := m })
  modify fun w => { w with models := w.models.add { data, methods := setup.methodTable } }
  return m

def hasMethod (w : World) (m : Ref .model) (name : String) : Bool :=
  name ∈ (w.models.get m).methods

def call (e : Engine) (m : Ref .model) (name : String) (event : Event) : Action Unit := do
  let steps ← Action.require (.unknownMethod name) ((← get).models.get m).methods[name]?
  Action.tell (.method m name event)
  e.call { model := m, event } steps

end ViewModel

/-- Responds to an event. Once the view-model is gone nothing happens. -/
def Response.perform (e : Engine) (event : Event) : Response → Action Unit
  | .assign m path n => do
    if (← get).modelAlive m then
      Action.usingModel m do
        let text := event.value.getD ((← get).view.node n).value
        discard <| ViewModel.write e.compute (Subscriber.update e) m path (.string text)
  | .call m name => do
    if (← get).modelAlive m then
      Action.usingModel m (ViewModel.call e m name event)

/-- Runs the listeners of a node that an event is for, until one fails. -/
def Event.dispatch (e : Engine) (n : Ref .node) (event : Event) : Action Unit := do
  let listeners := ((← get).view.node n).listeners.filter (·.event == event.kind)
  listeners.forM (·.response.perform e event)

def Event.input (e : Engine) (n : Ref .node) (text : String) : Action Unit := do
  modify fun w => { w with view := w.view.modify n fun node => { node with value := text } }
  Event.dispatch e n { kind := "input", value := text }

end ViewBinding
