import ViewBinding.Text.After
import ViewBinding.Text.Blank

/-! Text with interpolated paths between delimiters, such as `hello {{ name }}`. -/

namespace ViewBinding

/-- The texts that open and close an interpolation. Either may be empty. -/
structure Delimiters where
  opening : String := "\x7b\x7b"
  closing : String := "\x7d\x7d"
  deriving DecidableEq, Inhabited

inductive Segment
  | literal (text : String)
  | path (text : String)
  deriving DecidableEq, Inhabited

structure Template where
  segments : List Segment
  deriving DecidableEq, Inhabited

namespace Template

/-- The shortest content that the closing text ends, and what follows it. Content has at least one
character and stays on one line. -/
def content? (closing : List Char) : List Char → Option (List Char × List Char)
  | [] => none
  | c :: cs =>
    if c = '\n' then none
    else match Text.after? closing cs with
      | some rest => some ([c], rest)
      | none => (content? closing cs).map fun (content, rest) => (c :: content, rest)

/-- The content of the interpolation that starts here, and what follows it. -/
def spanAt? (opening closing cs : List Char) : Option (List Char × List Char) :=
  (Text.after? opening cs).bind (content? closing)

/-- Everything before the first interpolation, its content, and everything after it. -/
def firstSpan? (opening closing : List Char) :
    List Char → Option (List Char × List Char × List Char)
  | [] => none
  | c :: cs =>
    match spanAt? opening closing (c :: cs) with
    | some (content, rest) => some ([], content, rest)
    | none => (firstSpan? opening closing cs).map fun (before, span) => (c :: before, span)

theorem content?_length_lt {closing cs content rest : List Char}
    (h : content? closing cs = some (content, rest)) : rest.length < cs.length := by
  induction cs generalizing content with
  | nil => simp [content?] at h
  | cons c cs ih =>
    rw [content?] at h
    split at h
    · simp at h
    · split at h
      · rename_i rest' hr
        obtain ⟨rfl, rfl⟩ : [c] = content ∧ rest' = rest := by simpa using h
        exact Nat.lt_succ_of_le (Text.after?_length_le hr)
      · simp only [Option.map_eq_some_iff, Prod.mk.injEq, Prod.exists] at h
        obtain ⟨content', rest', hc, -, rfl⟩ := h
        exact Nat.lt_succ_of_lt (ih hc)

theorem spanAt?_length_lt {opening closing cs content rest : List Char}
    (h : spanAt? opening closing cs = some (content, rest)) : rest.length < cs.length := by
  obtain ⟨mid, ho, hc⟩ := Option.bind_eq_some_iff.1 h
  exact Nat.lt_of_lt_of_le (content?_length_lt hc) (Text.after?_length_le ho)

theorem firstSpan?_length_lt {opening closing cs before content rest : List Char}
    (h : firstSpan? opening closing cs = some (before, content, rest)) :
    rest.length < cs.length := by
  induction cs generalizing before with
  | nil => simp [firstSpan?] at h
  | cons c cs ih =>
    rw [firstSpan?] at h
    split at h
    · rename_i content' rest' hs
      obtain ⟨-, -, rfl⟩ : [] = before ∧ content' = content ∧ rest' = rest := by simpa using h
      exact spanAt?_length_lt hs
    · simp only [Option.map_eq_some_iff, Prod.mk.injEq, Prod.exists] at h
      obtain ⟨before', content', rest', hs, -, rfl, rfl⟩ := h
      exact Nat.lt_succ_of_lt (ih hs)

/-- A run of plain text; an empty one is left out. -/
def gap (cs : List Char) : List Segment :=
  if cs.isEmpty then [] else [.literal (String.ofList cs)]

/-- Splits at the interpolations, each looked for from the end of the one before. -/
def split (opening closing cs : List Char) : List Segment :=
  match _ : firstSpan? opening closing cs with
  | none => gap cs
  | some (before, content, rest) =>
    gap before ++ .path (String.ofList (Text.trim content)) :: split opening closing rest
termination_by cs.length
decreasing_by exact firstSpan?_length_lt ‹_›

/-- Reads a text as a template, unless it holds no interpolation. -/
def parse (d : Delimiters) (text : String) : Option Template :=
  (firstSpan? d.opening.toList d.closing.toList text.toList).map fun _ =>
    ⟨split d.opening.toList d.closing.toList text.toList⟩

def paths (t : Template) : List String :=
  t.segments.filterMap fun
    | .path text => some text
    | .literal _ => none

/-- The text that a list of segments is written as. -/
def source (d : Delimiters) (segments : List Segment) : String :=
  String.join <| segments.map fun
    | .literal text => text
    | .path text => d.opening ++ text ++ d.closing

end Template

end ViewBinding
