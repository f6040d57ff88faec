import ViewBinding.Decimal.Text
import ViewBinding.Store
import ViewBinding.Value.Sort

/-! The values that data is made of, and their text. -/

namespace ViewBinding

/-- A value in the data. Objects have properties that change; an array is replaced as a whole, and
has an identity of its own. -/
inductive Value
  | null
  | bool (b : Bool)
  | number (x : Float)
  | string (s : String)
  | array (identity : Ref .array) (items : List Value)
  | object (o : Ref .object)
  deriving Inhabited

namespace Value

/-- Whether writing one value over the other changes nothing. Arrays and objects are the same only
if they are one; a number that is not a number is not the same as itself. -/
def same : Value → Value → Bool
  | null, null => true
  | bool a, bool b => a == b
  | number x, number y => x == y
  | string s, string t => s == t
  | array a _, array b _ => a == b
  | object a, object b => a == b
  | _, _ => false

def sort : Value → ValueSort
  | null => .null
  | bool _ => .boolean
  | number _ => .number
  | string _ => .string
  | array _ _ => .array
  | object _ => .object

def object? : Value → Option (Ref .object)
  | object o => some o
  | _ => none

def string? : Value → Option String
  | string s => some s
  | _ => none

def number? : Value → Option Float
  | number x => some x
  | _ => none

/-- The number a value counts as in arithmetic. -/
def toNumber (v : Value) : Float := v.number?.getD 0

mutual

/-- The text that shows a value: nothing for null, the items of an array with commas between them,
and a fixed text for every object. -/
def text : Value → String
  | null => ""
  | bool b => if b then "true" else "false"
  | number x => Decimal.text "Infinity" x
  | string s => s
  | array _ items => ",".intercalate (texts items)
  | object _ => "[object Object]"
termination_by structural v => v

def texts : List Value → List String
  | [] => []
  | v :: vs => v.text :: texts vs
termination_by structural vs => vs

end

theorem texts_eq_map (vs : List Value) : texts vs = vs.map text := by
  induction vs with
  | nil => rfl
  | cons v vs ih => simp [texts, ih]

end Value

end ViewBinding
