import ViewBinding.World

/-! Data as plain documents: the values of cells, without identities and without computed
properties. -/

namespace ViewBinding

mutual

def Value.exportWith (objects : Ref .object → Option Document) : Value → Option Document
  | .null => some .null
  | .bool b => some (.bool b)
  | .number x => some (.ofFloat x)
  | .string s => some (.string s)
  | .array _ items => (exportItemsWith objects items).map .array
  | .object o => objects o
termination_by structural v => v

def Value.exportItemsWith (objects : Ref .object → Option Document) :
    List Value → Option (List Document)
  | [] => some []
  | v :: vs => do
    let d ← v.exportWith objects
    let ds ← exportItemsWith objects vs
    return d :: ds
termination_by structural vs => vs

end

namespace World

def fields (w : World) (o : Ref .object) : List (String × Value) :=
  (w.objects.get o).slots.toList.filterMap fun (key, slot) =>
    match slot with
    | .cell c => some (key, (w.cells.get c).value)
    | .computed _ => none

def exportWithin (w : World) : Nat → Ref .object → Option Document
  | 0, _ => none
  | depth + 1, o =>
    let entry (key : String) (v : Value) : Option (String × Document) :=
      (v.exportWith (w.exportWithin depth)).map (key, ·)
    ((w.fields o).mapM fun (key, v) => entry key v).map .object

/-- The document of an object; there is none for data that contains itself. -/
def export? (w : World) (o : Ref .object) : Option Document := w.exportWithin w.objects.size o

def exportValue? (w : World) (v : Value) : Option Document := v.exportWith w.export?

end World

end ViewBinding
