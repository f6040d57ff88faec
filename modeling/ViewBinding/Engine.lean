import ViewBinding.Reading

/-! What a script is called with, and the means to run scripts. -/

namespace ViewBinding

/-- What a script was called with: the view-model it belongs to, and what happened. -/
structure Frame where
  model : Option (Ref .model) := none
  change : Option Change := none
  event : Option Event := none
  deriving Inhabited

/-- How scripts run: the value of a computed property, and the steps of a callback or method. -/
structure Engine where
  compute : Computed → Reading Value
  call : Frame → List Step → Action Unit

end ViewBinding
