import ViewBinding.Fault
import ViewBinding.Value
import ViewBinding.View

/-! What a run shows to the outside. -/

namespace ViewBinding

inductive Effect
  | callback (id : String) (new old : Value)
  | computed (name : String)
  | method (name kind : String) (value : Option String)
  | update (id : String)
  | log (v : Value)
  | caught (f : Fault)
  | wrote (face : Face) (node : Ref .node) (text : String)
  | listen (node : Ref .node) (event : String)
  | detach (node : Ref .node) (children : List (Ref .node))
  | append (node : Ref .node) (children : List (Ref .node))
  /-- A subscriber failed during a notification. -/
  | updateFailed (f : Fault)
  /-- A write is over that left failed subscribers behind; the key is that of a new property. -/
  | leftBehind (failed : Nat) (key : Option String)
  deriving Inhabited

end ViewBinding
