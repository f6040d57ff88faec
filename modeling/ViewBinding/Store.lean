import Std.Data.ExtTreeMap

/-! Things with an identity or a name, and the stores and tables that keep them. -/

namespace ViewBinding

inductive Kind
  | object | cell | array | registry | watcher | reaction | model | node
  deriving DecidableEq, Inhabited

/-- An identity of one kind; two things of a kind are the same if their indices are. -/
structure Ref (k : Kind) where
  index : Nat
  deriving DecidableEq, Inhabited

/-- What is known of every thing of one kind, by identity. Identities are given out in order and
never again, so a thing that is no longer used keeps its entry. -/
structure Store (k : Kind) (α : Type) where
  entries : Array α := #[]
  deriving Inhabited

/-- A table by name, in the order of code points. -/
abbrev Keyed (α : Type) := Std.ExtTreeMap String α

namespace Store

variable {k : Kind} {α : Type}

def size (s : Store k α) : Nat := s.entries.size

def get? (s : Store k α) (r : Ref k) : Option α := s.entries[r.index]?

def get [Inhabited α] (s : Store k α) (r : Ref k) : α := (s.get? r).getD default

def modify (s : Store k α) (r : Ref k) (f : α → α) : Store k α := ⟨s.entries.modify r.index f⟩

def fresh (s : Store k α) : Ref k := ⟨s.entries.size⟩

def add (s : Store k α) (a : α) : Store k α := ⟨s.entries.push a⟩

theorem get?_modify (s : Store k α) (r r' : Ref k) (f : α → α) :
    (s.modify r f).get? r' = if r = r' then (s.get? r').map f else s.get? r' := by
  cases r; cases r'
  simp [modify, get?, Array.getElem?_modify]

theorem get?_add (s : Store k α) (a : α) (r : Ref k) :
    (s.add a).get? r = if r = s.fresh then some a else s.get? r := by
  cases r
  simp [add, get?, fresh, Array.getElem?_push]

theorem get_modify [Inhabited α] (s : Store k α) (r r' : Ref k) (f : α → α)
    (h : r.index < s.size) : (s.modify r f).get r' = if r = r' then f (s.get r) else s.get r' := by
  cases r; cases r'
  simp only [get, get?_modify]
  split
  · rename_i e
    simp_all [get?, size]
  · rfl

theorem size_modify (s : Store k α) (r : Ref k) (f : α → α) : (s.modify r f).size = s.size := by
  simp [modify, size]

theorem size_add (s : Store k α) (a : α) : (s.add a).size = s.size + 1 := by
  simp [add, size]

end Store

end ViewBinding
