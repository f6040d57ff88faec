import ViewBinding.Script.Answer
import ViewBinding.Script.Eval

/-! Finding what the steps of a script name. -/

namespace ViewBinding.Script

def modelName (name : Option String) : String := name.getD "main"

/-- Works on a view-model, which stays alive meanwhile. -/
def withModel {α : Type} (f : Frame) (name : Option String) (x : Ref .model → Action α) :
    Action α := do
  let m ← MonadExcept.ofExcept (f.findModel (← get) name)
  Action.usingModel m (x m)

/-- The value of an expression in a step, whose reads are for nobody. -/
def value (e : Engine) (f : Frame) (x : Expr) : Action Value := (x.eval e.compute f).once

/-- Works on an object. If it is the root data of a view-model, that stays alive meanwhile. -/
def withObject {α : Type} (e : Engine) (f : Frame) (place : Place) (x : Ref .object → Action α) :
    Action α :=
  match place with
  | .of expr => do
    let v ← value e f expr
    x (← Action.require (.noSuch .object) v.object?)
  | .root name => withModel f name fun m => do x ((← get).models.get m).data

def findWatcher (id : String) : Action (Ref .watcher) := do
  Action.require (.noSuch .watcher) (← get).names.watchers.held[id]?

/-- The reaction that a name stood for last, alive or not. -/
def findReaction (id : String) : Action (Ref .reaction) := do
  Action.require (.noSuch .reaction) (← get).names.reactions.last[id]?

def findCell (id : String) : Action (Ref .cell) := do
  Action.require (.noSuch .cell) (← get).names.cells[id]?

def findRegistry (id : String) : Action (Ref .registry) := do
  Action.require (.noSuch .registry) (← get).names.registries[id]?

def nodesBelow (v : View) : Nat → List (Ref .node) → List (Ref .node)
  | 0, ns => ns
  | depth + 1, ns => (ns ++ nodesBelow v depth (ns.flatMap v.children)).eraseDups

/-- A node by number. One that no script has met can be named as soon as it is below one that has
been met. -/
def findNode (n : Nat) : Action (Ref .node) := do
  unless n ∈ (← get).knownNodes do
    modify fun w => w.meet (nodesBelow w.view w.view.nodes.size (w.knownNodes.toList.map Ref.mk))
  if n ∈ (← get).knownNodes then return ⟨n⟩ else throw (.noSuch .node)

def changeNames (change : Names → Names) : Action Unit :=
  modify fun w => { w with names := change w.names }

def changeView (change : View → View) : Action Unit :=
  modify fun w => { w with view := change w.view }

end ViewBinding.Script
