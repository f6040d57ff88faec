/-! The sorts of value and their names. -/

namespace ViewBinding

inductive ValueSort
  | null | boolean | number | string | array | object
  deriving DecidableEq, Inhabited

def ValueSort.name : ValueSort → String
  | null => "null"
  | boolean => "boolean"
  | number => "number"
  | string => "string"
  | array => "array"
  | object => "object"

end ViewBinding
