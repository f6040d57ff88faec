import ViewBinding.Document
import ViewBinding.Markup
import ViewBinding.Template

/-! Scripts: the expressions of computed properties, and the steps of callbacks, methods and whole
runs. A step names what it works on; without a name it works on the view-model it belongs to, or
on `main`. -/

namespace ViewBinding

inductive Argument
  | new | old | kind | value
  deriving DecidableEq, Inhabited

inductive Expr
  /-- Fresh data, made anew each time. -/
  | data (d : Document)
  | number (x : Float)
  /-- What a path leads to, as a read of the evaluation that the expression is part of. -/
  | get (model : Option String) (path : String)
  /-- What a path leads to, as a read on its own. -/
  | peek (model : Option String) (path : String)
  | property (object key : Expr)
  | root (model : String)
  | saved (name : String)
  | array (items : List Expr)
  /-- The texts of the parts, one after the other. -/
  | concat (parts : List Expr)
  | add (a b : Expr)
  | mul (a b : Expr)
  | less (a b : Expr)
  | same (a b : Expr)
  | cond (test yes no : Expr)
  | sort (e : Expr)
  | fail (message : String)
  /-- Whether the evaluation has a subscriber. -/
  | tracking
  /-- How many registries the evaluation has joined so far. -/
  | registrations
  | argument (which : Argument)
  deriving Inhabited

/-- How attributes and texts of a view tree are read. -/
structure Settings where
  marker : String := "directive-"
  delimiters : Delimiters := {}
  deriving DecidableEq, Inhabited

inductive Target
  | selector (text : String)
  | node (index : Nat)
  deriving DecidableEq, Inhabited

/-- An object: the value of an expression, or the root data of a view-model. -/
inductive Place
  | of (e : Expr)
  | root (model : Option String)
  deriving Inhabited

inductive Step
  | build (name : Option String) (data : Option Expr) (computed : List (String × Expr))
      (methods : List (String × List Step))
  | mount (name : Option String) (target : Target) (data : Option Expr)
      (computed : List (String × Expr)) (methods : List (String × List Step)) (settings : Settings)
  | compile (model : Option String) (node : Nat) (settings : Settings)
  | dropModel (name : Option String)
  | alive (name : Option String)
  | read (model : Option String) (path : String)
  | write (model : Option String) (path : String) (value : Expr)
  | call (model : Option String) (method kind : String) (value : Option String)
  | hasMethod (model : Option String) (method : String)
  | snapshot (model : Option String)
  | watcherCount (model : Option String)
  | showModel (model : Option String)
  | render (model : Option String) (text : String) (delimiters : Delimiters)
  /-- A watcher that lives as long as its view-model. -/
  | watch (model : Option String) (id path : String) (steps : List Step)
  /-- A watcher that lives as long as its name. -/
  | watcher (model : Option String) (id path : String) (steps : List Step)
  | watcherValue (id : String)
  | watcherUpdate (id : String)
  | watcherPath (id : String)
  | showWatcher (id : String)
  | dropWatcher (id : String)
  | save (name : String) (value : Expr)
  | eval (value : Expr)
  | exported (value : Expr)
  | showValue (value : Expr)
  | property (object : Place) (key : String)
  | setProperty (object : Place) (key : String) (value : Expr)
  | keys (object : Place)
  | hasProperty (object : Place) (key : String)
  | assign (object : Place) (path : String) (value : Expr)
  | cell (id : String) (value : Option Expr)
  | cellOf (id : String) (object : Place) (key : String)
  | cellValue (id : String)
  | cellSubscribers (id : String)
  | showCell (id : String)
  | setCell (id : String) (value : Expr)
  | react (id : String) (steps : List Step)
  | dropReaction (id : String)
  | track (model : Option String) (reaction : String) (paths : List String)
  | trackCell (reaction cell : String)
  | registry (id : String)
  | register (id reaction : String)
  | notify (id : String)
  | registrySize (id : String)
  | create (markup : Markup)
  | input (node : Nat) (text : String)
  | dispatch (node : Nat) (kind : String)
  | event (node : Nat) (kind : String) (value : Option String)
  | node (node : Nat)
  | nodeCount
  | query (selector : String)
  | setText (node : Nat) (text : String)
  | setValue (node : Nat) (text : String)
  | detach (node : Nat)
  | append (node : Nat) (children : List Nat)
  | log (value : Expr)
  | fail (message : String)
  | cond (test : Expr) (yes no : List Step)
  /-- Runs until the first fault, which is reported. -/
  | attempt (steps : List Step)
  | loop (times : Nat) (steps : List Step)
  deriving Inhabited

end ViewBinding
