import ViewBinding.Decimal.Text

/-! Plain data: what goes in and comes out as a document, without identities. -/

namespace ViewBinding

/-- A number as a document writes it. -/
inductive Numeral
  | integer (n : Int)
  | real (x : Float)
  deriving DecidableEq, Inhabited

inductive Document
  | null
  | bool (b : Bool)
  | number (n : Numeral)
  | string (s : String)
  | array (items : List Document)
  /-- Of two fields with one name the later counts. -/
  | object (fields : List (String × Document))
  deriving Inhabited

def Numeral.toFloat : Numeral → Float
  | integer n => Float.ofInt n
  | real x => x

/-- How a number is exported: as an integer where every integer up to it is exact, and not at all
if it is infinite or not a number. -/
def Document.ofFloat (x : Float) : Document :=
  match Decimal.toInt? x with
  | some n => if n.natAbs < Nat.pow 2 53 then .number (.integer n) else .number (.real x)
  | none => if x.isFinite then .number (.real x) else .null

end ViewBinding
