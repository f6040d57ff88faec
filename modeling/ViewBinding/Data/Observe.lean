import ViewBinding.World

/-! Plain documents as data: each object of a document becomes an object of its own with a cell
for every field. -/

namespace ViewBinding.World

mutual

def observe : Document → World → Value × World
  | .null, w => (.null, w)
  | .bool b, w => (.bool b, w)
  | .number n, w => (.number n.toFloat, w)
  | .string s, w => (.string s, w)
  | .array items, w =>
    let (vs, w) := observeItems items w
    w.addArray vs
  | .object fields, w =>
    let (slots, w) := observeFields fields ∅ w
    let (o, w) := w.addObject { slots }
    (.object o, w)
termination_by structural d => d

def observeItems : List Document → World → List Value × World
  | [], w => ([], w)
  | d :: ds, w =>
    let (v, w) := observe d w
    let (vs, w) := observeItems ds w
    (v :: vs, w)
termination_by structural ds => ds

def observeFields : List (String × Document) → Keyed Slot → World → Keyed Slot × World
  | [], slots, w => (slots, w)
  | (key, d) :: fields, slots, w =>
    let (v, w) := observe d w
    let (c, w) := w.addCell v
    observeFields fields (slots.insert key (.cell c)) w
termination_by structural fields => fields

end

end ViewBinding.World
