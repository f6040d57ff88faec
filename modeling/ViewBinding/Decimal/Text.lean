import ViewBinding.Decimal.Shortest

/-! Floating-point numbers as decimal text without an exponent, and decimal text as numbers. -/

namespace ViewBinding.Decimal

/-- The digits of a magnitude around the point; a whole number has no point. -/
def Scaled.digits (s : Scaled) : List Char :=
  let ds := Nat.toDigits 10 s.significand
  if 0 ≤ s.exponent then ds ++ List.replicate s.exponent.toNat '0'
  else
    let places := (-s.exponent).toNat
    let padded := List.replicate (places + 1 - ds.length) '0' ++ ds
    padded.take (padded.length - places) ++ '.' :: padded.drop (padded.length - places)

def signed (negative : Bool) (text : String) : String := if negative then "-" ++ text else text

/-- The text of a number: the fewest digits that read back, never an exponent, with `infinity` as
the word for an infinite one. -/
def text (infinity : String) (x : Float) : String :=
  match x.toModel.unpack with
  | .notANumber => "NaN"
  | .infinity s => signed (s matches .negative) infinity
  | .zero s => signed (s matches .negative) "0"
  | .finite s m q _ => signed (s matches .negative) (String.ofList (shortest m q).digits)

def toInt? (x : Float) : Option Int :=
  match x.toModel.unpack with
  | .notANumber => none
  | .infinity _ => none
  | .zero _ => some 0
  | .finite s m q _ =>
    let magnitude := m * Nat.pow 2 q.toNat
    let denominator := Nat.pow 2 (-q).toNat
    if magnitude % denominator = 0 then
      let n : Int := magnitude / denominator
      some (if s matches .negative then -n else n)
    else none

def digitsValue (cs : List Char) : Nat := cs.foldl (fun n c => 10 * n + (c.toNat - '0'.toNat)) 0

def takeSign : List Char → Bool × List Char
  | '-' :: cs => (true, cs)
  | '+' :: cs => (false, cs)
  | cs => (false, cs)

/-- Reads `e` or `E` and an integer; nothing stands for the exponent zero. -/
def readExponent? (cs : List Char) : Option Int :=
  match cs with
  | [] => some 0
  | e :: cs =>
    let (negative, ds) := takeSign cs
    if (e = 'e' ∨ e = 'E') ∧ !ds.isEmpty ∧ ds.all Char.isDigit then
      some (if negative then -(digitsValue ds : Int) else digitsValue ds)
    else none

/-- Reads digits with an optional point among them and an optional exponent, and rounds to the
nearest number. -/
def readUnsigned? (cs : List Char) : Option Float :=
  let whole := cs.takeWhile Char.isDigit
  let afterWhole := cs.dropWhile Char.isDigit
  let afterPoint := if afterWhole.head? = some '.' then afterWhole.tail else []
  let fraction := afterPoint.takeWhile Char.isDigit
  let rest := if afterWhole.head? = some '.' then afterPoint.dropWhile Char.isDigit else afterWhole
  if whole.isEmpty && fraction.isEmpty then none
  else (readExponent? rest).map fun e =>
    let exponent := e - (fraction.length : Int)
    Float.ofScientific (digitsValue (whole ++ fraction)) (exponent < 0) exponent.natAbs

/-- Reads a number: a decimal, or a word for infinity or for what is not a number in any case of
letters, with an optional sign in front. -/
def read? (text : String) : Option Float :=
  let (negative, cs) := takeSign text.toList
  let word := String.ofList (cs.map Char.toLower)
  let magnitude :=
    if word = "inf" ∨ word = "infinity" then some (1 / 0)
    else if word = "nan" then some (0 / 0)
    else readUnsigned? cs
  magnitude.map fun x => if negative then -x else x

end ViewBinding.Decimal
