import ViewBinding.Markup
import ViewBinding.Store
import ViewBinding.Text.After

/-! View trees in memory. Nodes have identities and are never removed, only taken off their
parents. -/

namespace ViewBinding

inductive NodeSort
  | element | text | other
  deriving DecidableEq, Inhabited

/-- What a node does on an event. A listener does not keep its view-model alive. -/
inductive Response
  /-- Assigns the text of the event to a path, or the value of the node if the event has none. -/
  | assign (model : Ref .model) (path : String) (node : Ref .node)
  | call (model : Ref .model) (method : String)
  deriving DecidableEq, Inhabited

structure Listener where
  event : String
  response : Response
  deriving DecidableEq, Inhabited

structure Node where
  sort : NodeSort
  tag : String
  attrs : List (String × String) := []
  children : List (Ref .node) := []
  parent : Option (Ref .node) := none
  text : String := ""
  value : String := ""
  html : String := ""
  listeners : List Listener := []
  valueWrites : Nat := 0
  textWrites : Nat := 0
  deriving DecidableEq, Inhabited

/-- The parts of a node that show a value. -/
inductive Face
  | text | value | html
  deriving DecidableEq, Inhabited

structure View where
  nodes : Store .node Node := {}
  deriving Inhabited

namespace View

def node (v : View) (n : Ref .node) : Node := v.nodes.get n

def modify (v : View) (n : Ref .node) (f : Node → Node) : View := ⟨v.nodes.modify n f⟩

def add (v : View) (node : Node) : Ref .node × View := (v.nodes.fresh, ⟨v.nodes.add node⟩)

def children (v : View) (n : Ref .node) : List (Ref .node) := (v.node n).children

def setParent (v : View) (parent : Option (Ref .node)) (ns : List (Ref .node)) : View :=
  ns.foldl (fun v n => v.modify n fun node => { node with parent }) v

def detach (v : View) (n : Ref .node) : List (Ref .node) × View :=
  let children := v.children n
  (children, (v.modify n fun node => { node with children := [] }).setParent none children)

def append (v : View) (n : Ref .node) (children : List (Ref .node)) : View :=
  (v.setParent (some n) children).modify n fun node =>
    { node with children := node.children ++ children }

mutual

/-- Makes the nodes of a tree, children before their parents. -/
def create : Markup → View → Ref .node × View
  | .text text, v => v.add { sort := .text, tag := "#text", text }
  | .comment text, v => v.add { sort := .other, tag := "#comment", text }
  | .element tag attrs children, v =>
    let (ns, v) := createAll children v
    let (n, v) := v.add { sort := .element, tag, attrs }
    (n, v.append n ns)
termination_by structural m => m

def createAll : List Markup → View → List (Ref .node) × View
  | [], v => ([], v)
  | m :: ms, v =>
    let (n, v) := create m v
    let (ns, v) := createAll ms v
    (n :: ns, v)
termination_by structural ms => ms

end

def textWithin (v : View) : Nat → Ref .node → String
  | 0, _ => ""
  | depth + 1, n =>
    match (v.node n).sort with
    | .text => (v.node n).text
    | .element => String.join ((v.children n).map (v.textWithin depth))
    | .other => ""

/-- The text below a node. No tree is deeper than there are nodes. -/
def text (v : View) (n : Ref .node) : String := v.textWithin v.nodes.size n

def setOwnText (v : View) (n : Ref .node) (text : String) : View :=
  v.modify n fun node => { node with text }

def renewText (v : View) (n : Ref .node) (text : String) : View :=
  let (child, v) := v.add { sort := .text, tag := "#text", text }
  (v.detach n).2.append n [child]

/-- Makes a text all there is below an element: in its only child if that is a text node, or else in
a new one. Any other node takes the text itself. -/
def replaceText (v : View) (n : Ref .node) (text : String) : View :=
  if (v.node n).sort = .element then
    match v.children n with
    | [child] =>
      if (v.node child).sort = .text then v.setOwnText child text else v.renewText n text
    | _ => v.renewText n text
  else v.setOwnText n text

def write (v : View) (face : Face) (n : Ref .node) (text : String) : View :=
  match face with
  | .text =>
    (v.replaceText n text).modify n fun node => { node with textWrites := node.textWrites + 1 }
  | .value =>
    v.modify n fun node => { node with value := text, valueWrites := node.valueWrites + 1 }
  | .html => v.modify n fun node => { node with html := text }

def listen (v : View) (n : Ref .node) (l : Listener) : View :=
  v.modify n fun node => { node with listeners := node.listeners ++ [l] }

/-- The first node with the identifier after a `#`, or else the first element with the tag. -/
def query (v : View) (selector : String) : Option (Ref .node) :=
  let found (node : Node) : Bool :=
    match Text.after? ['#'] selector.toList with
    | some id => node.attrs.any fun (name, value) => name == "id" && value == String.ofList id
    | none => node.sort == .element && node.tag == selector
  (v.nodes.entries.findIdx? found).map Ref.mk

end View

end ViewBinding
