import ViewBinding.Data.Notify
import ViewBinding.Data.Read

/-! Writing data. A write that changes something updates everyone who read what it changed. -/

namespace ViewBinding

variable (compute : Computed → Reading Value) (update : Subscriber → Action Unit)

/-- Stores a value in a cell, unless it is the same as the one there, and says whether it did. -/
def Cell.write (c : Ref .cell) (v : Value) : Action Bool := do
  if ((← get).cells.get c).value.same v then return false
  modify fun w => { w with cells := w.cells.modify c fun cell => { cell with value := v } }
  let failed ← Source.notify update (.cell c)
  if 0 < failed then
    Action.emit (.leftBehind failed none)
  return true

/-- Adds a property that an object lacks, and updates those who waited for it. -/
def Object.insert (o : Ref .object) (key : String) (v : Value) : Action Unit := do
  modify (·.insertCell o key v)
  let waiting ← modifyGet (·.takeWaiting o key)
  if let some registry := waiting then
    let failed ← registry.notify update
    if 0 < failed then
      Action.emit (.leftBehind failed (some key))

def Object.write (o : Ref .object) (key : String) (v : Value) : Action Bool := do
  match (← get).slot? o key with
  | some (.cell c) => Cell.write update c v
  | some (.computed _) => throw (.readOnly key)
  | none =>
    Object.insert update o key v
    return true

def Path.assign (p : Path) (root : Ref .object) (v : Value) : Action Bool := do
  let parent ← (p.follow compute p.parents (.object root)).once
  let o ← MonadExcept.ofExcept (p.owner parent p.last)
  Object.write update o p.last v

def ViewModel.write (m : Ref .model) (path : String) (v : Value) : Action Bool := do
  let p ← MonadExcept.ofExcept (Path.parse path)
  p.assign compute update ((← get).models.get m).data v

end ViewBinding
