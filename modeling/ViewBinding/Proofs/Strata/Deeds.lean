import Mathlib.Logic.Relation
import ViewBinding.Proofs.Course.Readings
import ViewBinding.Proofs.FanOut

/-! What a run does, taken apart into deeds that lead to one another. A deed leads on to all that it
starts itself, also where it never comes to an end; and a run is stratified if the slots have ranks
that rise from what a subscriber reads to what it writes. -/

namespace ViewBinding

/-- Something that a run does. -/
inductive Deed
  /-- The steps of a run, each of which may fail on its own. -/
  | session (steps : List Step)
  | script (f : Frame) (steps : List Step)
  | step (f : Frame) (s : Step)
  | call (m : Ref .model) (name : String) (event : Event)
  | dispatch (n : Ref .node) (event : Event)
  | listen (event : Event) (listeners : List Listener)
  | respond (event : Event) (response : Response)
  /-- A value is written to a path of a view-model. -/
  | set (m : Ref .model) (path : String) (v : Value)
  | assign (p : Path) (root : Ref .object) (v : Value)
  | property (o : Ref .object) (key : String) (v : Value)
  | insert (o : Ref .object) (key : String) (v : Value)
  | store (c : Ref .cell) (v : Value)
  /-- The turns of those who are updated after a write. -/
  | turns (ss : List Subscriber)
  | turn (s : Subscriber)
  | perform (r : Ref .watcher) (m : Ref .model) (change : Change) (callback : Callback)
  deriving Inhabited

section

variable {α β : Type}

/-- What there is to do after an action, if it succeeds. -/
def Action.after (x : Action α) (w : World) (next : α → World → List β) : List β :=
  match x w with
  | some (.ok a, w') => next a w'
  | _ => []

def Script.inModel (f : Frame) (name : Option String) (w : World)
    (next : Ref .model → World → List β) : List β :=
  match f.findModel w name with
  | .ok m => next m (w.useModel m)
  | .error _ => []

def Script.inObject (e : Engine) (f : Frame) (place : Place) (w : World)
    (next : Ref .object → World → List β) : List β :=
  match place with
  | .of x => (value e f x).after w fun v w' => v.object?.elim [] (next · w')
  | .root name => inModel f name w fun m w' => next (w'.models.get m).data w'

end

def World.notified (w : World) (source : Source) : World :=
  (w.setRegistry source ((w.registry source).prune w.alive)).useSubscribers (w.due source)

def Step.parts (e : Engine) (f : Frame) (w : World) : Step → List (Deed × World)
  | .write name path x => Script.inModel f name w fun m w =>
    (Script.value e f x).after w fun v w => [(.set m path v, w)]
  | .setProperty place key x => Script.inObject e f place w fun o w =>
    (Script.value e f x).after w fun v w => [(.property o key v, w)]
  | .assign place path x => Script.inObject e f place w fun o w =>
    match Path.parse path with
    | .ok p => (Script.value e f x).after w fun v w => [(.assign p o v, w)]
    | .error _ => []
  | .setCell id x => (w.names.cells[id]?).elim [] fun c =>
    (Script.value e f x).after w fun v w => [(.store c v, w)]
  | .call name method kind text => Script.inModel f name w fun m w =>
    [(.call m method { kind, value := text }, w)]
  | .input k text => (Script.findNode k).after w fun n w =>
    [(.dispatch n { kind := "input", value := text },
      { w with view := w.view.modify n fun node => { node with value := text } })]
  | .dispatch k kind => (Script.findNode k).after w fun n w =>
    [(.dispatch n { kind, value := (w.view.node n).value }, w)]
  | .event k kind text => (Script.findNode k).after w fun n w =>
    [(.dispatch n { kind, value := text }, w)]
  | .cond test yes no => (Script.value e f test).after w fun v w =>
    [(.script f (if v.isTrue then yes else no), w)]
  | .attempt steps => [(.script f steps, w)]
  | .loop 0 _ => []
  | .loop (times + 1) steps => (.script f steps, w) ::
    (Step.runAll e f steps).after w fun _ w => [(.step f (.loop times steps), w)]
  | .watcherUpdate id => (w.names.watchers.held[id]?).elim [] fun r =>
    [(.turn (.watcher r), w.useSubscribers [.watcher r])]
  | .notify id => (w.names.registries[id]?).elim [] fun r =>
    [(.turns (w.due (.registry r)), w.notified (.registry r))]
  | _ => []

namespace Deed

def Result : Deed → Type
  | session _ => List Outcome
  | step _ _ => Answer
  | set _ _ _ => Bool
  | assign _ _ _ => Bool
  | property _ _ _ => Bool
  | store _ _ => Bool
  | turns _ => Nat
  | _ => Unit

def act (e : Engine) : (d : Deed) → Action d.Result
  | session steps => fun w => (w.steps e steps).map fun p => (.ok p.1, p.2)
  | script f steps => Step.runAll e f steps
  | step f s => s.run e f
  | call m name event => ViewModel.call e m name event
  | dispatch n event => event.dispatch e n
  | listen event listeners => listeners.forM (·.response.perform e event)
  | respond event response => response.perform e event
  | set m path v => ViewModel.write e.compute (Subscriber.update e) m path v
  | assign p root v => p.assign e.compute (Subscriber.update e) root v
  | property o key v => Object.write (Subscriber.update e) o key v
  | insert o key v => Object.insert (Subscriber.update e) o key v
  | store c v => Cell.write (Subscriber.update e) c v
  | turns ss => updateEach (Subscriber.update e) ss
  | turn s => s.update e
  | perform r m change callback => callback.perform e r m change

/-- What a deed leads to, but for the turns that follow a write. -/
def parts (e : Engine) (w : World) : Deed → List (Deed × World)
  | session [] => []
  | session (s :: rest) => (step {} s, w) ::
    (w.step e s).elim [] fun p => [(session rest, p.2)]
  | script _ [] => []
  | script f (s :: rest) => (step f s, w) :: (s.run e f).after w fun _ w => [(script f rest, w)]
  | step f s => s.parts e f w
  | call m name event => ((w.models.get m).methods[name]?).elim [] fun steps =>
    [(script { model := m, event } steps, w.tell (.method m name event))]
  | dispatch n event =>
    [(listen event ((w.view.node n).listeners.filter (·.event == event.kind)), w)]
  | listen _ [] => []
  | listen event (l :: rest) => (respond event l.response, w) ::
    (l.response.perform e event).after w fun _ w => [(listen event rest, w)]
  | respond event (.assign m path n) => if w.modelAlive m then
      [(set m path (.string (event.value.getD (w.view.node n).value)), w.useModel m)]
    else []
  | respond event (.call m name) =>
    if w.modelAlive m then [(call m name event, w.useModel m)] else []
  | set m path v => match Path.parse path with
    | .ok p => [(assign p (w.models.get m).data v, w)]
    | .error _ => []
  | assign p root v => (p.follow e.compute p.parents (.object root)).once.after w fun parent w =>
    match p.owner parent p.last with
    | .ok o => [(property o p.last v, w)]
    | .error _ => []
  | property o key v => match w.slot? o key with
    | some (.cell c) => [(store c v, w)]
    | some (.computed _) => []
    | none => [(insert o key v, w)]
  | insert _ _ _ => []
  | store _ _ => []
  | turns [] => []
  | turns (s :: rest) => (turn s, w) ::
    (s.update e w).elim [] fun p => [(turns rest, World.afterTurn s p)]
  | turn (.watcher r) => (Watcher.starts e.compute r w).elim [] fun p =>
    [(perform r (w.watchers.get r).model p.1 (w.watchers.get r).callback, p.2)]
  | turn (.reaction r) =>
    [(script {} (w.reactions.get r).steps, w.emit (.update (w.reactions.get r).id))]
  | perform r m change (.run id steps) =>
    [(script { model := m, change } steps, w.tell (.called r (.run id steps) change))]
  | perform _ _ _ (.write _ _) => []
  | perform _ _ _ (.render _ _) => []

/-- The slot, there or not, that a deed puts a value in. -/
def target? : Deed → Option Source
  | insert o key _ => some (.waiting o key)
  | store c _ => some (.cell c)
  | _ => none

/-- The turns that follow a write. -/
def fanOut (w : World) : Deed → List (Deed × World)
  | insert o key v => [(turns (w.due (.waiting o key)), w.turns (.waiting o key) v)]
  | store c v => if w.changes (.cell c) v then
      [(turns (w.due (.cell c)), w.turns (.cell c) v)]
    else []
  | _ => []

/-- Whether a deed starts another itself. -/
def Own (x y : Deed × World) : Prop := ∃ n, y ∈ x.1.parts (.ofFuel n) x.2

/-- Whether a deed leads to another, itself or by what it writes. -/
def Leads (x y : Deed × World) : Prop := Own x y ∨ y ∈ x.1.fanOut x.2

abbrev Reaches : Deed × World → Deed × World → Prop := Relation.ReflTransGen Leads

end Deed

/-- Whether an action has an outcome with every engine that goes far enough. -/
def Action.HasOutcome {α : Type} (x : Engine → Action α) (w : World)
    (p : Except Fault α × World) : Prop :=
  ∃ n, ∀ k, n ≤ k → x (.ofFuel k) w = some p

def Action.Returns {α : Type} (x : Engine → Action α) (w : World) : Prop :=
  ∃ p, Action.HasOutcome x w p

/-- Something is read, made or told, or a view-model comes into use. -/
inductive World.Touches (w : World) : World → Prop
  | glance {hs : List Happening} {w' : World} : w.Glance hs w' → Touches w w'
  | tell (x : Happening) : Touches w (w.tell x)
  | use (m : Ref .model) : Touches w (w.useModel m)

/-- Computed properties are total: whatever is read first, each can be worked out. -/
def World.Total (w : World) : Prop :=
  ∀ w', Relation.ReflTransGen World.Touches w w' → ∀ o key p,
    w'.slot? o key = some (.computed p) →
      ∃ n, ∀ e, ((Engine.ofFuel n).compute p e w').isSome

/-- A step that makes no watcher and calls no update or notification itself. -/
def Step.Modest : Step → Prop
  | .mount _ _ _ _ _ _ => False
  | .compile _ _ _ => False
  | .watch _ _ _ _ => False
  | .watcher _ _ _ _ => False
  | .watcherUpdate _ => False
  | .notify _ => False
  | _ => True

/-- A step that writes data out, which goes on forever if the data contains itself. -/
def Step.Shows : Step → Prop
  | .snapshot _ => True
  | .showModel _ => True
  | .showWatcher _ => True
  | .exported _ => True
  | .showValue _ => True
  | .showCell _ => True
  | _ => False

namespace Deed

/-- Whether a deed is done in a turn of a subscriber, by its own callback. Turns that follow on a
write of the callback are not part of it. -/
def DoneBy (start : Deed × World) (s : Subscriber) (x : Deed × World) : Prop :=
  ∃ w, Reaches start (turn s, w) ∧ Relation.ReflTransGen Own (turn s, w) x

def Joins (start : Deed × World) (s : Subscriber) (source : Source) : Prop :=
  ∃ x, Reaches start x ∧ s ∈ (x.2.registry source).order

/-- A run in which computed properties are total, callbacks are finite, make no watchers and update
nobody themselves, and each callback only writes to slots of a higher rank than those in whose
registries its subscriber ever is. -/
structure Stratified (rank : Source → Nat) (bound : Nat) (start : Deed × World) : Prop where
  bounded : ∀ source, rank source ≤ bound
  total : ∀ x, Reaches start x → x.2.Total
  /-- A callback takes finitely many steps itself, and so makes finitely many writes. -/
  finite : ∀ s w, Reaches start (turn s, w) → Acc (fun y x => Own x y) (turn s, w)
  modest : ∀ s f step w, DoneBy start s (.step f step, w) → step.Modest
  shown : ∀ s f step w, DoneBy start s (.step f step, w) → step.Shows →
    Action.Returns (fun e => step.run e f) w
  upward : ∀ s d w source target, DoneBy start s (d, w) → d.target? = some target →
    Joins start s source → rank source < rank target

end Deed

end ViewBinding
