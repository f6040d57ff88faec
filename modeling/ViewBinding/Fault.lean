import ViewBinding.Directive.Name
import ViewBinding.Value.Sort

/-! Everything that can go wrong, by cause, and its wording. -/

namespace ViewBinding

/-- What a script can name. -/
inductive Handle
  | model | watcher | cell | registry | reaction | value | object | node
  deriving DecidableEq, Inhabited

def Handle.word : Handle → String
  | .model => "vm"
  | .watcher => "watcher"
  | .cell => "cell"
  | .registry => "registry"
  | .reaction => "subscriber"
  | .value => "value"
  | .object => "object"
  | .node => "node"

inductive Fault
  /-- An attribute carries the marker of directives but names none. -/
  | unknownDirective (name : String)
  /-- A directive needs an argument and has none. -/
  | missingArgument (directive : Directive)
  | invalidPath (text : String)
  /-- A path goes on at `segment` after it reached something without properties. -/
  | notAnObject (path segment : String) (found : ValueSort)
  /-- A computed property cannot be assigned. -/
  | readOnly (key : String)
  | unknownMethod (name : String)
  | targetNotFound (selector : String)
  | rootNotObject (found : ValueSort)
  /-- The view-model is gone. -/
  | detached
  /-- A script failed on purpose. -/
  | raised (message : String)
  /-- A script named something that is not there. -/
  | noSuch (what : Handle)
  deriving DecidableEq, Inhabited

def Fault.message : Fault → String
  | unknownDirective name => "unknown directive `" ++ name ++ "`"
  | missingArgument d =>
    "directive `" ++ d.name ++ "` requires an argument, e.g. `" ++ d.name ++ ":click`"
  | invalidPath text => "invalid property path `" ++ text ++ "`"
  | notAnObject path segment found =>
    "cannot read `" ++ segment ++ "` of " ++ found.name ++ " while resolving `" ++ path ++ "`"
  | readOnly key => "property `" ++ key ++ "` is computed and cannot be assigned"
  | unknownMethod name => "unknown method `" ++ name ++ "`"
  | targetNotFound selector => "mount target `" ++ selector ++ "` not found"
  | rootNotObject found => "data root must be an object, found " ++ found.name
  | detached => "view model has been dropped"
  | raised message => message
  | noSuch what => "no such " ++ what.word

end ViewBinding
