import ViewBinding.Reading

/-! Reading data: cells, properties, and what paths lead to. A read registers the subscriber of its
evaluation with everything on the way. -/

namespace ViewBinding

def Cell.read (c : Ref .cell) : Reading Value := do
  Reading.register (.cell c)
  return ((← getThe World).cells.get c).value

/-- Reads a property. One that is not there reads as null, and its reader waits for it. -/
def Object.read (compute : Computed → Reading Value) (o : Ref .object) (key : String) :
    Reading Value := do
  match (← getThe World).slot? o key with
  | some (.cell c) => Cell.read c
  | some (.computed p) => compute p
  | none =>
    Reading.register (.waiting o key)
    return .null

namespace Path

/-- The object that a value is, for reading or writing a segment of the path there. -/
def owner (p : Path) (v : Value) (segment : String) : Except Fault (Ref .object) :=
  match v with
  | .object o => .ok o
  | _ => .error (.notAnObject p.text segment v.sort)

def follow (compute : Computed → Reading Value) (p : Path) : List String → Value → Reading Value
  | [], v => return v
  | segment :: rest, v => do
    let o ← MonadExcept.ofExcept (p.owner v segment)
    follow compute p rest (← Object.read compute o segment)

def resolve (compute : Computed → Reading Value) (p : Path) (root : Ref .object) : Reading Value :=
  p.follow compute p.segments (.object root)

end Path

def ViewModel.read (compute : Computed → Reading Value) (m : Ref .model) (path : String) :
    Reading Value := do
  let p ← MonadExcept.ofExcept (Path.parse path)
  p.resolve compute ((← getThe World).models.get m).data

end ViewBinding
