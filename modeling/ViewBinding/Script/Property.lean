import ViewBinding.Data.Description
import ViewBinding.Data.Export
import ViewBinding.Script.Lookup
import ViewBinding.Watcher

/-! The steps that work on values, objects and cells. -/

namespace ViewBinding.Script

variable (e : Engine) (f : Frame)

def save (name : String) (x : Expr) : Action Answer := do
  let v ← value e f x
  changeNames fun names => { names with values := names.values.insert name v }
  return .value v

def exported (x : Expr) : Action Answer := do
  let v ← value e f x
  return .document (← Action.finished ((← get).exportValue? v))

def showValue (x : Expr) : Action Answer := do
  let v ← value e f x
  return .text (← Action.finished ((← get).describe? v))

def property (place : Place) (key : String) : Action Answer :=
  withObject e f place fun o => return .value (← (Object.read e.compute o key).once)

def setProperty (place : Place) (key : String) (x : Expr) : Action Answer :=
  withObject e f place fun o => do
    let v ← value e f x
    return .flag (← Object.write (Subscriber.update e) o key v)

def keys (place : Place) : Action Answer :=
  withObject e f place fun o => return .keys ((← get).objects.get o).slots.keys

def subscriberCount (w : World) (source : Source) : Nat := ((w.registry source).live w.alive).length

def hasProperty (place : Place) (key : String) : Action Answer :=
  withObject e f place fun o => do
    let w ← get
    match w.slot? o key with
    | some (.cell c) => return .property true (subscriberCount w (.cell c))
    | some (.computed _) => return .property true none
    | none => return .property false none

def assign (place : Place) (path : String) (x : Expr) : Action Answer :=
  withObject e f place fun o => do
    let p ← MonadExcept.ofExcept (Path.parse path)
    let v ← value e f x
    return .flag (← p.assign e.compute (Subscriber.update e) o v)

def nameCell (id : String) (c : Ref .cell) : Action Unit :=
  changeNames fun names => { names with cells := names.cells.insert id c }

def cell (id : String) (x : Option Expr) : Action Answer := do
  let v ← x.elim (pure .null) (value e f)
  let c ← modifyGet (·.addCell v)
  nameCell id c
  return .nothing

def cellOf (id : String) (place : Place) (key : String) : Action Answer :=
  withObject e f place fun o => do
    match (← get).slot? o key with
    | some (.cell c) =>
      nameCell id c
      return .flag true
    | _ => return .flag false

def cellValue (id : String) : Action Answer := do
  let c ← findCell id
  return .value ((← get).cells.get c).value

def cellSubscribers (id : String) : Action Answer := do
  let c ← findCell id
  return .count (subscriberCount (← get) (.cell c))

def showCell (id : String) : Action Answer := do
  let c ← findCell id
  let w ← get
  return .text (← Action.finished (w.describe? (w.cells.get c).value))

def setCell (id : String) (x : Expr) : Action Answer := do
  let c ← findCell id
  let v ← value e f x
  return .flag (← Cell.write (Subscriber.update e) c v)

end ViewBinding.Script
