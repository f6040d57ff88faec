/-! The directives that an attribute can name. -/

namespace ViewBinding

inductive Directive
  /-- Binds the value of a node both ways. -/
  | model
  /-- Shows a value as markup. -/
  | html
  /-- Shows a value as text. -/
  | text
  /-- Calls a method on an event. -/
  | on
  deriving DecidableEq, Inhabited

namespace Directive

def name : Directive → String
  | model => "model"
  | html => "html"
  | text => "text"
  | on => "on"

def ofName? (name : String) : Option Directive :=
  [model, html, text, on].find? (·.name == name)

theorem ofName?_eq_some_iff (s : String) (d : Directive) : ofName? s = some d ↔ s = d.name := by
  constructor
  · intro h
    exact (by simpa using List.find?_some h : d.name = s).symm
  · rintro rfl
    cases d <;> decide

end Directive

end ViewBinding
