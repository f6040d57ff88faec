import ViewBinding.World

/-! What the steps of a script answer. -/

namespace ViewBinding

inductive Answer
  | nothing
  | flag (b : Bool)
  | count (n : Nat)
  | value (v : Value)
  | text (s : String)
  | document (d : Document)
  /-- How many watchers a view-model has after it was made or bound. -/
  | watchers (n : Nat)
  | path (p : Path)
  | keys (ks : List String)
  /-- Whether an object has a property, and how many subscribers its cell has. -/
  | property (contains : Bool) (subscribers : Option Nat)
  /-- What an evaluation read, and how many registries its subscriber joined. -/
  | readings (values : List (Except Fault Value)) (registrations : Nat)
  | reading (v : Value) (registrations : Nat)
  | registrySize (n : Nat)
  | node (n : Option (Ref .node))
  | nodes (ns : List (Ref .node))
  /-- A node with the text below it. -/
  | report (node : Node) (text : String)
  deriving Inhabited

end ViewBinding
