import ViewBinding.Text.Quoted
import ViewBinding.World

/-! Data as text that shows its structure. -/

namespace ViewBinding

mutual

def Value.describeWith (objects : Ref .object → Option String) : Value → Option String
  | .null => some "Null"
  | .bool b => some (if b then "Bool(true)" else "Bool(false)")
  | .number x => some ("Number(" ++ Decimal.text "inf" x ++ ")")
  | .string s => some ("String(" ++ Text.quoted s ++ ")")
  | .array _ items =>
    (describeItemsWith objects items).map fun ds => "[" ++ ", ".intercalate ds ++ "]"
  | .object o => objects o
termination_by structural v => v

def Value.describeItemsWith (objects : Ref .object → Option String) :
    List Value → Option (List String)
  | [] => some []
  | v :: vs => do
    let d ← v.describeWith objects
    let ds ← describeItemsWith objects vs
    return d :: ds
termination_by structural vs => vs

end

namespace World

def describeWithin (w : World) : Nat → Ref .object → Option String
  | 0, _ => none
  | depth + 1, o =>
    let entry (key : String) (slot : Slot) : Option String :=
      (match slot with
      | .cell c => (w.cells.get c).value.describeWith (w.describeWithin depth)
      | .computed _ => some "<computed>").map ((Text.quoted key ++ ": ") ++ ·)
    ((w.objects.get o).slots.toList.mapM fun (key, slot) => entry key slot).map fun ds =>
      "\x7b" ++ ", ".intercalate ds ++ "\x7d"

/-- The description of a value; there is none for data that contains itself. -/
def describe? (w : World) (v : Value) : Option String :=
  v.describeWith (w.describeWithin w.objects.size)

def describeWatcher? (w : World) (r : Ref .watcher) : Option String :=
  let watcher := w.watchers.get r
  (w.describe? watcher.value).map fun value =>
    "Watcher \x7b path: " ++ Text.quoted watcher.path.text ++ ", value: " ++ value ++ " \x7d"

def describeModel? (w : World) (m : Ref .model) : Option String :=
  let model := w.models.get m
  (w.describe? (.object model.data)).map fun data =>
    "ViewModel \x7b data: " ++ data ++ ", methods: [" ++
      ", ".intercalate (model.methods.keys.map Text.quoted) ++ "] \x7d"

end World

end ViewBinding
