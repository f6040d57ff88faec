import ViewBinding.Script.Property

/-! The steps that make reactions and registries and work on them. -/

namespace ViewBinding.Script

variable (e : Engine) (f : Frame)

def react (id : String) (steps : List Step) : Action Answer := do
  let r := (← get).reactions.fresh
  modify fun w => { w with reactions := w.reactions.add { id, steps } }
  changeNames fun names => { names with reactions := names.reactions.bind id r }
  return .nothing

def dropReaction (id : String) : Action Answer := do
  let bound := (← get).names.reactions.held.contains id
  changeNames fun names => { names with reactions := names.reactions.drop id }
  return .flag bound

/-- The outcome of a part of an evaluation, which goes on after a fault. -/
def outcome {α : Type} (x : Reading α) : Reading (Except Fault α) :=
  tryCatch (.ok <$> x) fun fault => return .error fault

/-- Follows paths in one evaluation for a reaction. A path that cannot be followed has a fault of
its own and the others are followed all the same. The view-model is looked up for each path, so no
path needs none, and the first path that misses it ends the step. -/
def track (name : Option String) (reaction : String) (paths : List String) : Action Answer := do
  let r ← findReaction reaction
  let reads := paths.mapM fun path => do
    let m ← MonadExcept.ofExcept (f.findModel (← getThe World) name)
    outcome (ViewModel.read e.compute m path)
  let (values, registrations) ← reads.evaluate (some (.reaction r))
  return .readings (← MonadExcept.ofExcept values) registrations

def trackCell (reaction id : String) : Action Answer := do
  let r ← findReaction reaction
  let c ← findCell id
  let (v, registrations) ← (Cell.read c).evaluate (some (.reaction r))
  return .reading (← MonadExcept.ofExcept v) registrations

def makeRegistry (id : String) : Action Answer := do
  let r := (← get).registries.fresh
  modify fun w => { w with registries := w.registries.add {} }
  changeNames fun names => { names with registries := names.registries.insert id r }
  return .nothing

def register (id reaction : String) : Action Answer := do
  let source := Source.registry (← findRegistry id)
  let r ← findReaction reaction
  match ((← get).registry source).add? (.reaction r) with
  | some registry =>
    modify (·.setRegistry source registry)
    return .flag true
  | none => return .flag false

def notify (id : String) : Action Answer := do
  let r ← findRegistry id
  return .count (← Source.notify (Subscriber.update e) (.registry r))

def registrySize (id : String) : Action Answer := do
  let r ← findRegistry id
  return .registrySize (subscriberCount (← get) (.registry r))

end ViewBinding.Script
