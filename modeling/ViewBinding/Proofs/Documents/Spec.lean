import ViewBinding.Data.Export
import ViewBinding.Proofs.Look

/-! Plain documents on their own: what a path leads to in one, and the document with something else
there. -/

namespace ViewBinding.Document

/-- The last field with a name, which is the one that counts. -/
def field? : List (String × Document) → String → Option Document
  | [], _ => none
  | (name, d) :: rest, key => (field? rest key).or (if name = key then some d else none)

def sort : Document → ValueSort
  | null => .null
  | bool _ => .boolean
  | number _ => .number
  | string _ => .string
  | array _ => .array
  | object _ => .object

def same : Document → Document → Bool
  | null, null => true
  | bool a, bool b => a == b
  | number m, number n => m.toFloat == n.toFloat
  | string s, string t => s == t
  | _, _ => false

mutual

/-- A document as it is exported: with numbers as they are exported, and with every field once and
in order. -/
def snapshot : Document → Document
  | null => null
  | bool b => bool b
  | number n => ofFloat n.toFloat
  | string s => string s
  | array items => array (snapshots items)
  | object fields => object (snapshotFields fields ∅).toList
termination_by structural d => d

def snapshots : List Document → List Document
  | [] => []
  | d :: ds => d.snapshot :: snapshots ds
termination_by structural ds => ds

def snapshotFields : List (String × Document) → Keyed Document → Keyed Document
  | [], table => table
  | (name, d) :: rest, table => snapshotFields rest (table.insert name d.snapshot)
termination_by structural fields => fields

end

/-- What some segments of a path lead to. What is missing reads as null. -/
def follow (p : Path) : List String → Document → Except Fault Document
  | [], d => .ok d
  | segment :: rest, object fields => follow p rest ((field? fields segment).getD null)
  | segment :: _, d => .error (.notAnObject p.text segment d.sort)

def replace : List String → Document → Document → Document
  | [], _, new => new
  | segment :: rest, object fields, new =>
    object (fields ++ [(segment, replace rest ((field? fields segment).getD null) new)])
  | _ :: _, d, _ => d

/-- The document with another value for a property, unless the property is that scalar already. -/
def put? (fields : List (String × Document)) (key : String) (new : Document) : Option Document :=
  if (field? fields key).any (·.same new) then none else some (object (fields ++ [(key, new)]))

def get (d : Document) (path : String) : Except Fault Document := do
  let p ← Path.parse path
  d.follow p p.segments

/-- Writes a property path. There is a new document if that changes anything. -/
def set (d : Document) (path : String) (new : Document) : Except Fault (Option Document) := do
  let p ← Path.parse path
  match ← d.follow p p.parents with
  | object fields => return (put? fields p.last new).map (d.replace p.parents)
  | other => throw (.notAnObject p.text p.last other.sort)

def written (d : Document) (path : String) (new : Document) : Document :=
  match d.set path new with
  | .ok (some d') => d'
  | _ => d

theorem set_of_parse {path : String} {p : Path} (hp : Path.parse path = .ok p) (d new : Document) :
    d.set path new = match d.follow p p.parents with
      | .error f => .error f
      | .ok (object fields) => .ok ((put? fields p.last new).map (d.replace p.parents))
      | .ok other => .error (.notAnObject p.text p.last other.sort) := by
  rw [set, hp]
  show (d.follow p p.parents >>= _) = _
  cases d.follow p p.parents with
  | error f => rfl
  | ok owner => cases owner <;> rfl

theorem field?_concat (fields : List (String × Document)) (name key : String) (d : Document) :
    field? (fields ++ [(name, d)]) key = if name = key then some d else field? fields key := by
  induction fields with
  | nil => exact Option.none_or
  | cons field rest ih =>
    obtain ⟨name', d'⟩ := field
    rw [List.cons_append, field?, ih, field?]
    split
    · exact Option.some_or
    · rfl

theorem getElem?_snapshotFields (fields : List (String × Document)) (table : Keyed Document)
    (key : String) : (snapshotFields fields table)[key]? =
      ((field? fields key).map snapshot).or table[key]? := by
  induction fields generalizing table with
  | nil => rw [snapshotFields, field?, Option.map_none, Option.none_or]
  | cons field rest ih =>
    obtain ⟨name, d⟩ := field
    rw [snapshotFields, ih, Std.ExtTreeMap.getElem?_insert, field?, Option.map_or, Option.or_assoc]
    congr 1
    by_cases e : name = key
    · subst e
      rw [if_pos rfl, if_pos (Std.ReflCmp.compare_self), Option.map_some, Option.some_or]
    · have hne : compare name key ≠ .eq := fun h => e (Std.LawfulEqCmp.eq_of_compare h)
      rw [if_neg e, if_neg hne, Option.map_none, Option.none_or]

end ViewBinding.Document
