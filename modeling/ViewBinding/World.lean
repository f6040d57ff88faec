import Std.Data.ExtTreeSet
import ViewBinding.Happening
import ViewBinding.Names
import ViewBinding.Path

/-! Everything there is at one moment: data, subscribers, view-models, the view, and what keeps
them alive. -/

namespace ViewBinding

structure Cell where
  value : Value := .null
  registry : Registry := {}
  deriving Inhabited

inductive Slot
  | cell (c : Ref .cell)
  | computed (p : Computed)
  deriving Inhabited

structure Object where
  slots : Keyed Slot := ∅
  /-- Who read a property that was not there. -/
  waiting : Keyed Registry := ∅
  deriving Inhabited

structure Watcher where
  model : Ref .model
  path : Path
  callback : Callback
  /-- The value it saw last. -/
  value : Value := .null
  deriving Inhabited

structure Reaction where
  id : String
  steps : List Step
  deriving Inhabited

structure ViewModel where
  data : Ref .object
  methods : Keyed (List Step) := ∅
  /-- The watchers that live as long as the view-model. -/
  watchers : List (Ref .watcher) := []
  deriving Inhabited

structure World where
  objects : Store .object Object := {}
  cells : Store .cell Cell := {}
  /-- The identity of the next array. -/
  nextArray : Ref .array := ⟨0⟩
  registries : Store .registry Registry := {}
  watchers : Store .watcher Watcher := {}
  reactions : Store .reaction Reaction := {}
  models : Store .model ViewModel := {}
  view : View := {}
  names : Names := {}
  /-- View-models in use, once for each use. -/
  modelsInUse : List (Ref .model) := []
  /-- Subscribers in use, once for each use. -/
  subscribersInUse : List Subscriber := []
  /-- The indices of the nodes that scripts have met. -/
  knownNodes : Std.ExtTreeSet Nat := ∅
  /-- All that happened so far. -/
  trace : Array Happening := #[]
  deriving Inhabited

/-- Remembers nodes, so that scripts can name them from now on. -/
def World.meet (w : World) (ns : List (Ref .node)) : World :=
  { w with knownNodes := ns.foldl (fun known n => known.insert n.index) w.knownNodes }

/-- Where subscribers register: with a cell, with a property that an object lacks, or on their
own. -/
inductive Source
  | cell (c : Ref .cell)
  | waiting (o : Ref .object) (key : String)
  | registry (r : Ref .registry)
  deriving DecidableEq, Inhabited

namespace World

def tell (w : World) (h : Happening) : World := { w with trace := w.trace.push h }

def emit (w : World) (e : Effect) : World := w.tell (.showed e)

def modelAlive (w : World) (m : Ref .model) : Bool :=
  w.names.models.holds m || w.modelsInUse.contains m

def alive (w : World) (s : Subscriber) : Bool :=
  w.subscribersInUse.contains s ||
    match s with
    | .watcher r =>
      let m := (w.watchers.get r).model
      w.names.watchers.holds r || (w.modelAlive m && (w.models.get m).watchers.contains r)
    | .reaction r => w.names.reactions.holds r

def slot? (w : World) (o : Ref .object) (key : String) : Option Slot :=
  (w.objects.get o).slots[key]?

def setSlot (w : World) (o : Ref .object) (key : String) (slot : Slot) : World :=
  { w with objects := w.objects.modify o fun object =>
      { object with slots := object.slots.insert key slot } }

def addObject (w : World) (object : Object) : Ref .object × World :=
  (w.objects.fresh, { w with objects := w.objects.add object })

def addCell (w : World) (value : Value) : Ref .cell × World :=
  (w.cells.fresh, { w with cells := w.cells.add { value } })

def insertCell (w : World) (o : Ref .object) (key : String) (v : Value) : World :=
  let (c, w) := w.addCell v
  w.setSlot o key (.cell c)

def takeWaiting (w : World) (o : Ref .object) (key : String) : Option Registry × World :=
  ((w.objects.get o).waiting[key]?,
    { w with objects := w.objects.modify o fun object =>
        { object with waiting := object.waiting.erase key } })

/-- Gives an object a computed property. Those who wait for a property of that name go on waiting.
-/
def setComputed (w : World) (o : Ref .object) (p : Computed) : World :=
  let waiting := ((w.objects.get o).waiting[p.name]?).getD {}
  (w.tell (.defined o p.name waiting.order)).setSlot o p.name (.computed p)

/-- An array with an identity of its own. -/
def addArray (w : World) (items : List Value) : Value × World :=
  (.array w.nextArray items, { w with nextArray := ⟨w.nextArray.index + 1⟩ })

def registry (w : World) : Source → Registry
  | .cell c => (w.cells.get c).registry
  | .waiting o key => ((w.objects.get o).waiting[key]?).getD {}
  | .registry r => w.registries.get r

def setRegistry (w : World) (source : Source) (registry : Registry) : World :=
  match source with
  | .cell c => { w with cells := w.cells.modify c fun cell => { cell with registry } }
  | .waiting o key =>
    { w with objects := w.objects.modify o fun object =>
        { object with waiting := object.waiting.insert key registry } }
  | .registry r => { w with registries := w.registries.modify r fun _ => registry }

def useModel (w : World) (m : Ref .model) : World := { w with modelsInUse := m :: w.modelsInUse }

def releaseModel (w : World) (m : Ref .model) : World :=
  { w with modelsInUse := w.modelsInUse.erase m }

def useSubscribers (w : World) (ss : List Subscriber) : World :=
  { w with subscribersInUse := ss ++ w.subscribersInUse }

def releaseSubscriber (w : World) (s : Subscriber) : World :=
  { w with subscribersInUse := w.subscribersInUse.erase s }

end World

end ViewBinding
