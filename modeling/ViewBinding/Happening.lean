import ViewBinding.Effect
import ViewBinding.Registry
import ViewBinding.Script

/-! What happens in a run, and what can be seen of it from outside. -/

namespace ViewBinding

/-- A property whose value is worked out on every read. -/
structure Computed where
  name : String
  body : Expr
  model : Ref .model
  deriving Inhabited

/-- What a watcher does when its value has changed. -/
inductive Callback
  | run (id : String) (steps : List Step)
  | write (face : Face) (node : Ref .node)
  | render (node : Ref .node) (template : Template)
  deriving Inhabited

structure Event where
  kind : String
  value : Option String := none
  deriving DecidableEq, Inhabited

structure Change where
  new : Value
  old : Value
  deriving Inhabited

/-- Something that happens in a run. -/
inductive Happening
  /-- A watcher was made and saw its first value. -/
  | made (r : Ref .watcher) (v : Value)
  /-- A watcher saw a change, and its callback started. -/
  | called (r : Ref .watcher) (callback : Callback) (change : Change)
  /-- A computed property was defined where some waited for a property of that name. -/
  | defined (o : Ref .object) (key : String) (waiting : List Subscriber)
  | computed (p : Computed)
  /-- A method of a view-model started. -/
  | method (m : Ref .model) (name : String) (event : Event)
  /-- A binding of a view-model wrote a face of a node. -/
  | wrote (m : Ref .model) (face : Face) (n : Ref .node) (text : String)
  /-- Something else was shown. -/
  | showed (e : Effect)
  deriving Inhabited

def Callback.effect? (change : Change) : Callback → Option Effect
  | .run id _ => some (.callback id change.new change.old)
  | .write _ _ => none
  | .render _ _ => none

/-- What can be seen of a happening from outside. -/
def Happening.effect? : Happening → Option Effect
  | made _ _ => none
  | called _ callback change => callback.effect? change
  | defined _ _ _ => none
  | computed p => some (.computed p.name)
  | method _ name event => some (.method name event.kind event.value)
  | wrote _ face n text => some (.wrote face n text)
  | showed e => some e

end ViewBinding
