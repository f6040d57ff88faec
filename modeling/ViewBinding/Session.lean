import ViewBinding.Script.Run

/-! Whole runs: a view tree is made, and steps are taken one by one. A fault ends only its step. -/

namespace ViewBinding

structure Outcome where
  answer : Except Fault Answer
  effects : Array Effect

def Answer.nodesMet : Answer → List (Ref .node)
  | .node n => n.toList
  | .nodes ns => ns
  | .report info _ => info.children ++ info.parent.toList
  | _ => []

def Effect.nodesMet : Effect → List (Ref .node)
  | .wrote _ n _ => [n]
  | .listen n _ => [n]
  | .detach n ns => n :: ns
  | .append n ns => n :: ns
  | _ => []

/-- What was shown after the first so many happenings. -/
def World.effectsFrom (w : World) (start : Nat) : Array Effect :=
  (w.trace.extract start).filterMap Happening.effect?

def World.step (e : Engine) (s : Step) (w : World) : Option (Outcome × World) := do
  let before := w.trace.size
  let (answer, w) ← s.run e {} w
  let effects := w.effectsFrom before
  let met := (answer.toOption.map Answer.nodesMet).getD [] ++
    effects.toList.flatMap Effect.nodesMet
  return ({ answer, effects }, w.meet met)

def World.steps (e : Engine) : List Step → World → Option (List Outcome × World)
  | [], w => some ([], w)
  | s :: rest, w => do
    let (outcome, w) ← w.step e s
    let (outcomes, w) ← World.steps e rest w
    return (outcome :: outcomes, w)

/-- The world with nothing but a view in it. -/
def World.ofTrees (trees : List Markup) : Option World :=
  ((trees.forM fun tree => discard <| Script.plant tree) {}).map (·.2)

/-- Makes the trees and takes the steps, with scripts that call each other at most `fuel` levels
deep. -/
def session (fuel : Nat) (trees : List Markup) (steps : List Step) : Option (List Outcome) := do
  let w ← World.ofTrees trees
  let (outcomes, _) ← w.steps (Engine.ofFuel fuel) steps
  return outcomes

structure Appraisal where
  value : Value
  document : Document
  keys : Option (List String)

/-- The value of an expression where there is nothing else. -/
def appraise (fuel : Nat) (x : Expr) : Option (Except Fault Appraisal) := do
  let (v, w) ← (Script.value (Engine.ofFuel fuel) {} x) {}
  match v with
  | .error f => return .error f
  | .ok value =>
    let document ← w.exportValue? value
    let keys := value.object?.map fun o => (w.objects.get o).slots.keys
    return .ok { value, document, keys }

end ViewBinding
