import ViewBinding.Fault
import ViewBinding.Text.Blank

/-! Dotted property paths such as `user.address.city`. -/

namespace ViewBinding

/-- The names to follow from a root, first to last. There is always one. -/
structure Path where
  segments : List String
  nonempty : segments ≠ []
  deriving DecidableEq

namespace Path

instance : Inhabited Path := ⟨[""], by simp⟩

/-- The pieces of a text between its dots, without the blanks around each. -/
def pieces (text : String) : List String :=
  (text.toList.splitOn '.').map fun piece => String.ofList (Text.trim piece)

theorem pieces_ne_nil (text : String) : pieces text ≠ [] := by
  simp [pieces, List.splitOn_ne_nil]

/-- Reads a dotted path. A piece that is blank makes it invalid. -/
def parse (text : String) : Except Fault Path :=
  if "" ∈ pieces text then .error (.invalidPath text)
  else .ok ⟨pieces text, pieces_ne_nil text⟩

def text (p : Path) : String := ".".intercalate p.segments

/-- The names that lead to the owner of the last property. -/
def parents (p : Path) : List String := p.segments.dropLast

def last (p : Path) : String := p.segments.getLast p.nonempty

theorem parents_append_last (p : Path) : p.parents ++ [p.last] = p.segments :=
  List.dropLast_concat_getLast p.nonempty

end Path

end ViewBinding
