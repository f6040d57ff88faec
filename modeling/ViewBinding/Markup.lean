/-! View trees as they are written down. -/

namespace ViewBinding

inductive Markup
  | text (text : String)
  | comment (text : String)
  | element (tag : String) (attrs : List (String × String)) (children : List Markup)
  deriving Inhabited

end ViewBinding
