import ViewBinding.Data.Description
import ViewBinding.Script.Lookup
import ViewBinding.Watcher

/-! The steps that make watchers and work on them. -/

namespace ViewBinding.Script

variable (e : Engine) (f : Frame)

def watch (name : Option String) (id path : String) (steps : List Step) : Action Answer :=
  withModel f name fun m => do
    let r ← ViewModel.watch e.compute m path (.run id steps)
    return .value ((← get).watchers.get r).value

def watcher (name : Option String) (id path : String) (steps : List Step) : Action Answer :=
  withModel f name fun m => do
    let r ← Watcher.create e.compute m path (.run id steps)
    changeNames fun names => { names with watchers := names.watchers.bind id r }
    return .value ((← get).watchers.get r).value

def watcherValue (id : String) : Action Answer := do
  let r ← findWatcher id
  return .value ((← get).watchers.get r).value

def watcherUpdate (id : String) : Action Answer := do
  let r ← findWatcher id
  Action.usingSubscriber (.watcher r) (Watcher.update e r)
  return .nothing

def watcherPath (id : String) : Action Answer := do
  let r ← findWatcher id
  return .path ((← get).watchers.get r).path

def showWatcher (id : String) : Action Answer := do
  let r ← findWatcher id
  return .text (← Action.finished ((← get).describeWatcher? r))

def dropWatcher (id : String) : Action Answer := do
  let bound := (← get).names.watchers.held.contains id
  changeNames fun names => { names with watchers := names.watchers.drop id }
  return .flag bound

end ViewBinding.Script
