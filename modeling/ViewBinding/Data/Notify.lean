import ViewBinding.Action

/-! Notifying the subscribers of a property. Everyone who is alive when a notification starts is
kept alive until its own turn is over, and a failure keeps nobody else from being updated. -/

namespace ViewBinding

/-- Updates subscribers in order, lets each one go after its turn, and says how many failed. -/
def updateEach (update : Subscriber → Action Unit) : List Subscriber → Action Nat
  | [] => return 0
  | s :: rest => do
    let fault ← (update s).faultOf
    if let some f := fault then
      Action.emit (.updateFailed f)
    modify (·.releaseSubscriber s)
    let failed ← updateEach update rest
    return if fault.isSome then failed + 1 else failed

def Registry.notify (update : Subscriber → Action Unit) (r : Registry) : Action Nat := do
  let live := r.live (← get).alive
  modify (·.useSubscribers live)
  updateEach update live

/-- Updates those who are registered somewhere, after forgetting those who are not alive. -/
def Source.notify (update : Subscriber → Action Unit) (source : Source) : Action Nat := do
  let w ← get
  let registry := (w.registry source).prune w.alive
  modify (·.setRegistry source registry)
  registry.notify update

end ViewBinding
