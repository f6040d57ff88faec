import ViewBinding.World

/-! What is done to the world. An action ends with a result or a fault, and what it did before a
fault stays done; or it goes on for longer than it was allowed to, and then there is no outcome at
all. -/

namespace ViewBinding

abbrev Action := ExceptT Fault (StateT World Option)

namespace Action

variable {α : Type}

/-- Goes on for too long. -/
def unfinished : Action α := fun _ => none

/-- Does `after` at the end, whether the action succeeded or failed. -/
def andThen (x : Action α) (after : World → World) : Action α :=
  fun w => (x w).map fun (r, w) => (r, after w)

/-- Keeps a view-model alive during an action. -/
def usingModel (m : Ref .model) (x : Action α) : Action α := do
  modify (·.useModel m)
  x.andThen (·.releaseModel m)

def usingSubscriber (s : Subscriber) (x : Action α) : Action α := do
  modify (·.useSubscribers [s])
  x.andThen (·.releaseSubscriber s)

/-- The fault that an action ends with, if it fails. -/
def faultOf (x : Action Unit) : Action (Option Fault) :=
  tryCatch (do x; return none) fun f => return some f

def tell (h : Happening) : Action Unit := modify (·.tell h)

def emit (e : Effect) : Action Unit := tell (.showed e)

/-- The result, or else a fault. -/
def require (f : Fault) : Option α → Action α
  | some a => pure a
  | none => throw f

def finished : Option α → Action α
  | some a => pure a
  | none => unfinished

end Action

end ViewBinding
