import ViewBinding.Value

/-! The names that scripts give to things. -/

namespace ViewBinding

/-- Names that keep what they stand for alive. What a name stood for last is remembered. -/
structure Holder (k : Kind) where
  held : Keyed (Ref k) := ∅
  last : Keyed (Ref k) := ∅
  deriving Inhabited

namespace Holder

variable {k : Kind}

def bind (h : Holder k) (name : String) (r : Ref k) : Holder k :=
  { held := h.held.insert name r, last := h.last.insert name r }

def drop (h : Holder k) (name : String) : Holder k := { h with held := h.held.erase name }

def holds (h : Holder k) (r : Ref k) : Bool := h.held.values.contains r

end Holder

structure Names where
  models : Holder .model := {}
  watchers : Holder .watcher := {}
  reactions : Holder .reaction := {}
  cells : Keyed (Ref .cell) := ∅
  registries : Keyed (Ref .registry) := ∅
  values : Keyed Value := ∅
  deriving Inhabited

end ViewBinding
