import ViewBinding.Action

/-! Reading as part of an evaluation, which registers its subscriber with everything it reads. -/

namespace ViewBinding

/-- For whom something is read, and how many registries the subscriber has joined on the way. -/
structure Evaluation where
  subscriber : Option Subscriber := none
  registrations : Nat := 0
  deriving DecidableEq, Inhabited

/-- What is read as part of one evaluation. -/
abbrev Reading := ExceptT Fault (StateT Evaluation (StateT World Option))

namespace Reading

variable {α : Type}

/-- Registers the subscriber of the evaluation, if there is one. -/
def register (source : Source) : Reading Unit := do
  match (← getThe Evaluation).subscriber with
  | none => return
  | some s =>
    if let some registry := ((← getThe World).registry source).add? s then
      modifyThe World (·.setRegistry source registry)
      modifyThe Evaluation fun e => { e with registrations := e.registrations + 1 }

/-- Reads as an evaluation of its own, and says how many registries its subscriber joined. -/
def evaluate (subscriber : Option Subscriber) (x : Reading α) : Action (Except Fault α × Nat) :=
  fun w => (x { subscriber } w).map fun ((r, e), w) => (.ok (r, e.registrations), w)

def track (s : Subscriber) (x : Reading α) : Action α := do
  MonadExcept.ofExcept (← x.evaluate (some s)).1

/-- Reads for nobody. -/
def once (x : Reading α) : Action α := do
  MonadExcept.ofExcept (← x.evaluate none).1

def ofAction (x : Action α) : Reading α :=
  fun e w => (x w).map fun (r, w) => ((r, e), w)

end Reading

end ViewBinding
