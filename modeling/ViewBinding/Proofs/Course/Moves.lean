import ViewBinding.Proofs.Course.Scripts
import ViewBinding.Proofs.Changes
import ViewBinding.Proofs.Writes

/-! Runs in small moves. A move is the least that is done at once, and a course is any number of
moves with all that happened on the way, so every moment of a run lies between two moves. -/

namespace ViewBinding

def Effect.Mere : Effect → Prop
  | .update _ => True
  | .log _ => True
  | .caught _ => True
  | .detach _ _ => True
  | .append _ _ => True
  | .updateFailed _ => True
  | .leftBehind _ _ => True
  | _ => False

/-- Steps that define computed properties themselves. -/
def Step.Defines : Step → Prop
  | .build _ _ computed _ => computed ≠ []
  | .mount _ _ _ computed _ _ => computed ≠ []
  | _ => False

def Step.Writes : Step → Prop
  | .write _ _ _ => True
  | .setProperty _ _ _ => True
  | .assign _ _ _ => True
  | .setCell _ _ => True
  | .input _ _ => True
  | .dispatch _ _ => True
  | .event _ _ _ => True
  | _ => False

/-- What happens when a callback starts. A binding that shows what its watcher saw does so at once.
-/
def Callback.start (r : Ref .watcher) (m : Ref .model) (change : Change) (callback : Callback) :
    List Happening :=
  .called r callback change ::
    match callback with
    | .write face n => [.wrote m face n change.new.text]
    | _ => []

namespace World

variable {w w' w'' : World}

def addWatcher (w : World) (watcher : Watcher) : World :=
  { w with watchers := w.watchers.add watcher }

def keepWatcher (w : World) (m : Ref .model) (r : Ref .watcher) : World :=
  { w with models := w.models.modify m fun model =>
      { model with watchers := model.watchers ++ [r] } }

def startCallback (w : World) (r : Ref .watcher) (m : Ref .model) (change : Change)
    (callback : Callback) : World :=
  let w := w.tell (.called r callback change)
  match callback with
  | .write face n =>
    let w := w.tell (.wrote m face n change.new.text)
    { w with view := w.view.write face n change.new.text }
  | _ => w

/-- Sources where nobody waits for a property that is there. -/
def Open (w : World) : Source → Prop
  | .cell _ => True
  | .waiting o key => w.slot? o key = none
  | .registry _ => True

inductive Along (R : World → List Happening → World → Prop) : World → List Happening → World → Prop
  | nil (w : World) : Along R w [] w
  | snoc {w w' w'' : World} {hs hs' : List Happening} : Along R w hs w' → R w' hs' w'' →
      Along R w (hs ++ hs') w''

/-- A single thing that reading does. -/
inductive Glance : World → List Happening → World → Prop
  | register {w : World} {source : Source} {s : Subscriber} {registry : Registry} :
      (w.registry source).add? s = some registry → w.Open source →
      Glance w [] (w.setRegistry source registry)
  | observe (w : World) (d : Document) : Glance w [] (observe d w).2
  | array (w : World) (items : List Value) : Glance w [] (w.addArray items).2
  /-- A computed property is worked out while its view-model is alive. -/
  | computed {w : World} {p : Computed} : w.modelAlive p.model →
      Glance w [.computed p] (w.tell (.computed p))

/-- Names that scripts give and take back, those of new watchers apart. -/
inductive Renamed (w : World) : Names → Prop
  | model (name : String) {m : Ref .model} : m ∈ w.modelsInUse →
      Renamed w { w.names with models := w.names.models.bind name m }
  | dropModel (name : String) : Renamed w { w.names with models := w.names.models.drop name }
  | dropWatcher (id : String) : Renamed w { w.names with watchers := w.names.watchers.drop id }
  | reaction (id : String) (r : Ref .reaction) :
      Renamed w { w.names with reactions := w.names.reactions.bind id r }
  | dropReaction (id : String) : Renamed w { w.names with reactions := w.names.reactions.drop id }
  | cell (id : String) (c : Ref .cell) :
      Renamed w { w.names with cells := w.names.cells.insert id c }
  | registry (id : String) (r : Ref .registry) :
      Renamed w { w.names with registries := w.names.registries.insert id r }
  | value (name : String) (v : Value) :
      Renamed w { w.names with values := w.names.values.insert name v }

end World

/-- What the binding of a watcher may show: the value that the watcher has, or the text of its
template. -/
inductive World.MayShow (w : World) (r : Ref .watcher) : Face → Ref .node → String → Prop
  | value {face : Face} {n : Ref .node} : (w.watchers.get r).callback = .write face n →
      MayShow w r face n (w.watchers.get r).value.text
  | template {n : Ref .node} {t : Template} (text : String) :
      (w.watchers.get r).callback = .render n t → MayShow w r .text n text

/-- The changes of the view that a step makes by itself. -/
inductive Step.Edits (v : View) : Step → View → Prop
  | create (markup : Markup) : Edits v (.create markup) (v.create markup).2
  | typed (k : Nat) (text : String) :
      Edits v (.input k text) (v.modify ⟨k⟩ fun node => { node with value := text })
  | setText (k : Nat) (text : String) : Edits v (.setText k text) (v.write .text ⟨k⟩ text)
  | setValue (k : Nat) (text : String) : Edits v (.setValue k text) (v.write .value ⟨k⟩ text)
  | detach (k : Nat) : Edits v (.detach k) (v.detach ⟨k⟩).2
  | append (k : Nat) (children : List Nat) :
      Edits v (.append k children) (v.append ⟨k⟩ (children.map Ref.mk))

variable (P : Step → Prop)

/-- Edits of the view that go unseen. -/
inductive View.Edited (v : View) : View → Prop
  | create (markup : Markup) : Edited v (v.create markup).2
  | detach (n : Ref .node) : Edited v (v.detach n).2
  | append (n : Ref .node) (children : List (Ref .node)) : Edited v (v.append n children)
  /-- Somebody types into a node. -/
  | typed {k : Nat} {text : String} : P (.input k text) →
      Edited v (v.modify ⟨k⟩ fun node => { node with value := text })
  | setText {k : Nat} {text : String} : P (.setText k text) → Edited v (v.write .text ⟨k⟩ text)
  | setValue {k : Nat} {text : String} : P (.setValue k text) → Edited v (v.write .value ⟨k⟩ text)

variable {P} in
theorem Step.Edits.edited {s : Step} {v v' : View} (h : s.Edits v v') (hs : P s) :
    v.Edited P v' := by
  cases h with
  | create markup => exact .create markup
  | typed k text => exact .typed hs
  | setText k text => exact .setText hs
  | setValue k text => exact .setValue hs
  | detach k => exact .detach _
  | append k children => exact .append _ _

def Writable : Prop := ∃ s : Step, P s ∧ s.Writes

def Definable : Prop := ∃ s : Step, P s ∧ s.Defines

namespace World

/-- A watcher is added, looks along its path, and takes what it finds as its first value. -/
inductive Makes (w : World) (watcher : Watcher) (n : Nat) (hs : List Happening) (v : Value) :
    World → Prop
  | intro {w' : World} : (w.addWatcher watcher).Along Glance hs w' →
      Watcher.evaluate (Engine.ofFuel n).compute w.watchers.fresh (w.addWatcher watcher) =
        some (.ok v, w') →
      Makes w watcher n hs v ((w'.remember w.watchers.fresh v).tell (.made w.watchers.fresh v))

/-- A single thing that is done in a run whose steps all meet a condition. -/
inductive Move : World → List Happening → World → Prop
  | glance {w w' : World} {hs : List Happening} : w.Glance hs w' → Move w hs w'
  /-- A watcher is prepared, which may still fail to see anything. -/
  | prepare {w : World} {watcher : Watcher} : watcher.callback.Every P →
      Move w [] (w.addWatcher watcher)
  /-- A watcher is made with what its path leads to as its first value, for its view-model to keep.
  -/
  | watch {w w' : World} {watcher : Watcher} {hs : List Happening} {n : Nat} {v : Value} :
      watcher.callback.Every P → w.Makes watcher n hs v w' →
      Move w (hs ++ [.made w.watchers.fresh v]) (w'.keepWatcher watcher.model w.watchers.fresh)
  /-- A watcher is made as before, and gets a name. -/
  | hold {w w' : World} {watcher : Watcher} {hs : List Happening} {n : Nat} {v : Value}
      (id : String) : watcher.callback.Every P → w.Makes watcher n hs v w' →
      Move w (hs ++ [.made w.watchers.fresh v]) { w' with
        names := { w'.names with watchers := w'.names.watchers.bind id w.watchers.fresh } }
  /-- A watcher sees a change of what its path leads to, and acts on it. -/
  | call {w₀ w : World} {r : Ref .watcher} {n : Nat} {new : Value} :
      .watcher r ∈ w.subscribersInUse → (w.watchers.get r).model ∈ w.modelsInUse →
      Watcher.evaluate (Engine.ofFuel n).compute r w₀ = some (.ok new, w) →
      (w.watchers.get r).value.same new = false →
      Move w ((w.watchers.get r).callback.start r (w.watchers.get r).model
          { new, old := (w.watchers.get r).value })
        ((w.remember r new).startCallback r (w.watchers.get r).model
          { new, old := (w.watchers.get r).value } (w.watchers.get r).callback)
  | store {w : World} {c : Ref .cell} {v : Value} : Writable P →
      (w.cells.get c).value.same v = false → Move w [] (w.store c v)
  | insert {w : World} {o : Ref .object} {key : String} (v : Value) : Writable P →
      w.slot? o key = none → Move w [] ((w.insertCell o key v).takeWaiting o key).2
  | define {w : World} (o : Ref .object) (p : Computed) : Definable P →
      Move w [.defined o p.name (w.registry (.waiting o p.name)).order]
        (w.setComputed o p)
  | prune {w : World} {source : Source} : (∀ o key, source ≠ .waiting o key) →
      Move w [] (w.setRegistry source ((w.registry source).prune w.alive))
  | addCell (w : World) (v : Value) : Move w [] (w.addCell v).2
  | addRegistry (w : World) : Move w [] { w with registries := w.registries.add {} }
  | addReaction (w : World) (reaction : Reaction) : Step.EveryAll P reaction.steps →
      Move w [] { w with reactions := w.reactions.add reaction }
  /-- A view-model is made and gets a name. -/
  | build (w : World) (model : ViewModel) (name : String) : model.watchers = [] →
      (Callable P → ∀ (name : String) steps, model.methods[name]? = some steps →
        Step.EveryAll P steps) →
      Move w [] { w with
        models := w.models.add model
        names := { w.names with models := w.names.models.bind name w.models.fresh } }
  /-- A view-model is made and is in use while it is bound. -/
  | mount (w : World) (model : ViewModel) : model.watchers = [] →
      (Callable P → ∀ (name : String) steps, model.methods[name]? = some steps →
        Step.EveryAll P steps) →
      Move w [] (useModel { w with models := w.models.add model } w.models.fresh)
  | useModel {w : World} {m : Ref .model} : w.modelAlive m → Move w [] (w.useModel m)
  | releaseModel (w : World) (m : Ref .model) : Move w [] (w.releaseModel m)
  | useSubscribers {w : World} {ss : List Subscriber} : (∀ s ∈ ss, w.alive s) →
      Move w [] (w.useSubscribers ss)
  | releaseSubscriber (w : World) (s : Subscriber) : Move w [] (w.releaseSubscriber s)
  | rename {w : World} {names : Names} : w.Renamed names → Move w [] { w with names }
  | method {w : World} {m : Ref .model} {name : String} (event : Event) : m ∈ w.modelsInUse →
      ViewModel.hasMethod w m name → Move w [.method m name event] (w.tell (.method m name event))
  /-- A binding shows something while its view-model is in use. -/
  | write {w : World} {r : Ref .watcher} {face : Face} {n : Ref .node} {text : String} :
      (w.watchers.get r).model ∈ w.modelsInUse → w.MayShow r face n text →
      Move w [.wrote (w.watchers.get r).model face n text]
        { w.tell (.wrote (w.watchers.get r).model face n text) with
          view := w.view.write face n text }
  | listen (w : World) (l : Listener) (n : Ref .node) :
      Move w [.showed (.listen n l.event)]
        { w.emit (.listen n l.event) with view := w.view.listen n l }
  | edit {w : World} {v : View} : w.view.Edited P v → Move w [] { w with view := v }
  | meet (w : World) (known : Std.ExtTreeSet Nat) : Move w [] { w with knownNodes := known }
  | show {w : World} {e : Effect} : e.Mere → Move w [.showed e] (w.emit e)

end World

end ViewBinding
