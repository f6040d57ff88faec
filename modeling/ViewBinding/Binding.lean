import ViewBinding.Directive
import ViewBinding.ViewModel

/-! Binding a view tree to a view-model, and mounting. -/

namespace ViewBinding

def Listener.attach (l : Listener) (n : Ref .node) : Action Unit := do
  Action.emit (.listen n l.event)
  modify fun w => { w with view := w.view.listen n l }

variable (compute : Computed → Reading Value)

/-- Shows what a path leads to on a face of a node, now and after every change. -/
def Face.bind (face : Face) (n : Ref .node) (m : Ref .model) (path : String) : Action Unit := do
  let r ← ViewModel.watch compute m path (.write face n)
  face.write m n ((← get).watchers.get r).value.text

def Directive.bind (u : Directive.Use) (value : String) (n : Ref .node) (m : Ref .model) :
    Action Unit :=
  match u.directive with
  | .model => do
    Face.value.bind compute n m value
    Listener.attach { event := "input", response := .assign m value n } n
  | .html => Face.html.bind compute n m value
  | .text => Face.text.bind compute n m value
  | .on => do
    let event ← Action.require (.missingArgument .on) u.argument
    unless ViewModel.hasMethod (← get) m value do
      throw (.unknownMethod value)
    Listener.attach { event, response := .call m value } n

/-- Shows a template as the text of a node, now and after every change of one of its paths. -/
def Template.bind (t : Template) (n : Ref .node) (m : Ref .model) : Action Unit := do
  t.paths.forM fun path => discard <| ViewModel.watch compute m path (.render n t)
  Face.text.write m n (← t.render compute m)

def Settings.bindAttrs (s : Settings) (n : Ref .node) (m : Ref .model) : Action Unit := do
  ((← get).view.node n).attrs.forM fun (name, value) => do
    if let some u ← MonadExcept.ofExcept (Directive.parse s.marker name) then
      Directive.bind compute u value n m

def Settings.bindText (s : Settings) (n : Ref .node) (m : Ref .model) : Action Unit := do
  if let some t := Template.parse s.delimiters ((← get).view.text n) then
    t.bind compute n m

/-- Binds nodes and everything below them, as far as `depth` levels down. The children of an
element are those it has after its own directives are bound. -/
def Settings.bindNodes (s : Settings) (m : Ref .model) : Nat → List (Ref .node) → Action Unit
  | 0, ns => if ns.isEmpty then return else Action.unfinished
  | depth + 1, ns => ns.forM fun n => do
    match ((← get).view.node n).sort with
    | .element =>
      s.bindAttrs compute n m
      bindNodes s m depth ((← get).view.children n)
    | .text => s.bindText compute n m
    | .other => return

/-- Binds everything below a node. Its children are off the node meanwhile, and are put back even if
binding fails. -/
def Settings.compile (s : Settings) (m : Ref .model) (root : Ref .node) : Action Unit := do
  let children ← modifyGet fun w =>
    let (children, view) := w.view.detach root
    (children, { w with view })
  Action.emit (.detach root children)
  let depth := (← get).view.nodes.size + 1
  let outcome ← Action.faultOf (s.bindNodes compute m depth children)
  Action.emit (.append root children)
  modify fun w => { w with view := w.view.append root children }
  if let some f := outcome then
    throw f

/-- Where a view tree is mounted: at a node, or at the first one that a selector finds. -/
inductive MountPoint
  | node (n : Ref .node)
  | selector (text : String)
  deriving DecidableEq, Inhabited

/-- Makes a view-model and binds a view tree to it. The view-model is alive until it is bound to a
name by `keep` or mounting is over. -/
def ViewModel.mount (point : MountPoint) (setup : Setup) (s : Settings)
    (keep : Ref .model → Action Unit) : Action (Ref .model) := do
  let n ← match point with
    | .node n => pure n
    | .selector text => Action.require (.targetNotFound text) ((← get).view.query text)
  let m ← ViewModel.create setup
  Action.usingModel m do
    s.compile compute m n
    keep m
  return m

end ViewBinding
