import ViewBinding.Data.Write
import ViewBinding.Engine

/-! Watchers: subscribers that follow a path from the root of a view-model and act when what it
leads to has changed. -/

namespace ViewBinding

def Face.write (face : Face) (m : Ref .model) (n : Ref .node) (text : String) : Action Unit := do
  Action.tell (.wrote m face n text)
  modify fun w => { w with view := w.view.write face n text }

def ViewModel.check (m : Ref .model) : Action Unit := do
  unless (← get).modelAlive m do
    throw .detached

/-- The text of a template over the data of a view-model, read for nobody. -/
def Template.render (compute : Computed → Reading Value) (t : Template) (m : Ref .model) :
    Action String := do
  let texts ← t.segments.mapM fun
    | .literal text => return text
    | .path path => return (← (ViewModel.read compute m path).once).text
  return String.join texts

def Callback.perform (e : Engine) (r : Ref .watcher) (m : Ref .model) (change : Change)
    (callback : Callback) : Action Unit := do
  Action.tell (.called r callback change)
  match callback with
  | .run _ steps => e.call { model := m, change := change } steps
  | .write face n => face.write m n change.new.text
  | .render n template =>
    ViewModel.check m
    Face.text.write m n (← template.render e.compute m)

namespace Watcher

/-- What the path of a watcher leads to now, registering the watcher on the way. -/
def evaluate (compute : Computed → Reading Value) (r : Ref .watcher) : Action Value := do
  let watcher := (← get).watchers.get r
  (watcher.path.resolve compute ((← get).models.get watcher.model).data).track (.watcher r)

def setValue (r : Ref .watcher) (v : Value) : Action Unit :=
  modify fun w =>
    { w with watchers := w.watchers.modify r fun watcher => { watcher with value := v } }

/-- Makes a watcher, with what its path leads to as the value it saw last. -/
def create (compute : Computed → Reading Value) (m : Ref .model) (path : String)
    (callback : Callback) : Action (Ref .watcher) := do
  let p ← MonadExcept.ofExcept (Path.parse path)
  let r := (← get).watchers.fresh
  modify fun w => { w with watchers := w.watchers.add { model := m, path := p, callback } }
  let v ← evaluate compute r
  setValue r v
  Action.tell (.made r v)
  return r

/-- Evaluates the path again, and acts if that is not the same as before. -/
def update (e : Engine) (r : Ref .watcher) : Action Unit := do
  let m := ((← get).watchers.get r).model
  ViewModel.check m
  Action.usingModel m do
    let new ← evaluate e.compute r
    let watcher := (← get).watchers.get r
    if watcher.value.same new then return
    setValue r new
    watcher.callback.perform e r m { new, old := watcher.value }

end Watcher

def Subscriber.update (e : Engine) : Subscriber → Action Unit
  | .watcher r => Watcher.update e r
  | .reaction r => do
    let reaction := (← get).reactions.get r
    Action.emit (.update reaction.id)
    e.call {} reaction.steps

/-- Makes a watcher that lives as long as its view-model. -/
def ViewModel.watch (compute : Computed → Reading Value) (m : Ref .model) (path : String)
    (callback : Callback) : Action (Ref .watcher) := do
  let r ← Watcher.create compute m path callback
  modify fun w =>
    { w with models := w.models.modify m fun model =>
        { model with watchers := model.watchers ++ [r] } }
  return r

end ViewBinding
