import ViewBinding.ViewModel
import ViewBinding.Script.Lookup

/-! The steps that work on the view. -/

namespace ViewBinding.Script

variable (e : Engine) (f : Frame)

def plant (markup : Markup) : Action (Ref .node) := do
  let first := (← get).view.nodes.size
  let n ← modifyGet fun w =>
    let (n, view) := View.create markup w.view
    (n, { w with view })
  modify fun w => w.meet ((List.range' first (w.view.nodes.size - first)).map Ref.mk)
  return n

def create (markup : Markup) : Action Answer := return .node (some (← plant markup))

def input (node : Nat) (text : String) : Action Answer := do
  Event.input e (← findNode node) text
  return .nothing

def dispatch (node : Nat) (kind : String) : Action Answer := do
  let n ← findNode node
  Event.dispatch e n { kind, value := ((← get).view.node n).value }
  return .nothing

def event (node : Nat) (kind : String) (text : Option String) : Action Answer := do
  Event.dispatch e (← findNode node) { kind, value := text }
  return .nothing

def report (node : Nat) : Action Answer := do
  let n ← findNode node
  let view := (← get).view
  return .report (view.node n) (view.text n)

def nodeCount : Action Answer := return .count (← get).view.nodes.size

def query (selector : String) : Action Answer := return .node ((← get).view.query selector)

def setFace (face : Face) (node : Nat) (text : String) : Action Answer := do
  let n ← findNode node
  changeView (·.write face n text)
  return .nothing

def detach (node : Nat) : Action Answer := do
  let n ← findNode node
  let children := (← get).view.children n
  changeView fun view => (view.detach n).2
  return .nodes children

def append (node : Nat) (children : List Nat) : Action Answer := do
  let n ← findNode node
  let ns ← children.mapM findNode
  changeView (·.append n ns)
  return .nothing

end ViewBinding.Script
