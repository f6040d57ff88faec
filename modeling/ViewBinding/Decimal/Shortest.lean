/-! The shortest decimal that reads back as a given floating-point number. -/

namespace ViewBinding.Decimal

/-- The magnitude `significand * 10 ^ exponent`. -/
structure Scaled where
  significand : Nat
  exponent : Int
  deriving DecidableEq, Inhabited

/-- A positive rational and the interval around it that rounds to the same number, all three over
one denominator. The ends belong to the interval if it is `closed`. -/
structure Target where
  value : Nat
  low : Nat
  high : Nat
  denominator : Nat
  closed : Bool
  deriving DecidableEq, Inhabited

/-- The target of the number `m * 2 ^ q`. Its neighbours lie `2 ^ q` away, or half of that below
the smallest significand of a binade that has one below it. -/
def Target.ofBinary (m : Nat) (q : Int) : Target :=
  let up := Nat.pow 2 (q - 2).toNat
  { value := 4 * m * up
    low := (if m = Nat.pow 2 52 ∧ -1074 < q then 4 * m - 1 else 4 * m - 2) * up
    high := (4 * m + 2) * up
    denominator := Nat.pow 2 (2 - q).toNat
    closed := m % 2 == 0 }

def Target.admits (t : Target) (n : Nat) : Bool :=
  if t.closed then t.low ≤ n && n ≤ t.high else t.low < n && n < t.high

/-- The target over `denominator * 10 ^ j`, or with all numbers multiplied by `10 ^ -j`: a multiple
of the new denominator is a multiple of `10 ^ j`. -/
def Target.onGrid (t : Target) (j : Int) : Target :=
  let scale := Nat.pow 10 (-j).toNat
  { t with
    value := t.value * scale
    low := t.low * scale
    high := t.high * scale
    denominator := t.denominator * Nat.pow 10 j.toNat }

/-- The multiple of `10 ^ j` in the interval that is nearest to the value, the upper one of two that
are equally near. -/
def Target.nearest? (t : Target) (j : Int) : Option Nat :=
  let g := t.onGrid j
  let d := g.value / g.denominator
  let below := d * g.denominator
  let above := (d + 1) * g.denominator
  match g.admits below, g.admits above with
  | true, true => some (if g.value - below < above - g.value then d else d + 1)
  | true, false => some d
  | false, true => some (d + 1)
  | false, false => none

/-- How many decimal digits the whole part of `value / denominator` has; if it is zero, minus the
number of zeros after the point, as far as `steps` of them. -/
def magnitude (value denominator : Nat) : Nat → Int
  | 0 => 0
  | steps + 1 =>
    if denominator ≤ value then ((Nat.toDigits 10 (value / denominator)).length : Int)
    else magnitude (10 * value) denominator steps - 1

/-- The shortest decimal for the positive number `m * 2 ^ q`: the coarsest grid of powers of ten
with a point in the interval of the number gives it. Seventeen digits always suffice. -/
def shortest (m : Nat) (q : Int) : Scaled :=
  let t := Target.ofBinary m q
  let top := magnitude t.value t.denominator 400
  let found := (List.range 20).findSome? fun (k : Nat) =>
    let j := top - (k : Int)
    (t.nearest? j).map (Scaled.mk · j)
  found.getD ⟨0, 0⟩

end ViewBinding.Decimal
