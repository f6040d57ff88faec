import ViewBinding.Proofs.Spans
import ViewBinding.Proofs.Texts.Trimming

/-! A template that is written out reads back: none of the borders between a literal, a delimiter
and a path makes an interpolation that starts or ends too early. -/

namespace ViewBinding

/-- Whether a segment can be told from what is around it once it is written out. A literal has
nothing in common with the opening text, and a path has nothing in common with the closing text,
stays on one line and has no blank at an end. -/
def Segment.Legible (d : Delimiters) : Segment → Prop
  | .literal text => text ≠ "" ∧ ∀ c ∈ text.toList, c ∉ d.opening.toList
  | .path text => text ≠ "" ∧ Text.Trimmed text.toList ∧ '\n' ∉ text.toList ∧
      ∀ c ∈ text.toList, c ∉ d.closing.toList

instance (d : Delimiters) : DecidablePred (Segment.Legible d)
  | .literal _ => @instDecidableAnd _ _ inferInstance (List.decidableBAll _ _)
  | .path _ => @instDecidableAnd _ _ inferInstance <| @instDecidableAnd _ _ inferInstance <|
      @instDecidableAnd _ _ inferInstance (List.decidableBAll _ _)

namespace Template

variable {d : Delimiters} {cs before content rest : List Char}

theorem length_le_of_notMem {a b x y : List Char} {mark : Char}
    (h : a ++ x = b ++ (mark :: y)) (hmark : mark ∉ a) : a.length ≤ b.length := by
  rcases List.append_eq_append_iff.1 h with ⟨more, rfl, -⟩ | ⟨more, rfl, hy⟩
  · simp
  · rcases more with _ | ⟨c, more⟩
    · simp
    · -- The mark would stand inside the text that lacks it.
      obtain ⟨rfl, -⟩ := List.cons.inj hy
      exact absurd (by simp) hmark

theorem toList_ne_nil {text : String} (h : text ≠ "") : text.toList ≠ [] := by
  rwa [ne_eq, String.toList_eq_nil_iff]

/-- An interpolation is the first one if nothing before it has a character of the opening text, and
its content is the shortest one if it has no character of the closing text. -/
theorem first_of_disjoint (hopen : d.opening ≠ "") (hclose : d.closing ≠ "")
    (hbefore : ∀ c ∈ before, c ∉ d.opening.toList) (hne : content ≠ []) (hnl : '\n' ∉ content)
    (hcontent : ∀ c ∈ content, c ∉ d.closing.toList) :
    First d (before ++ (d.opening.toList ++ (content ++ (d.closing.toList ++ rest))))
      before content rest := by
  obtain ⟨o, os, ho⟩ := List.exists_cons_of_ne_nil (toList_ne_nil hopen)
  obtain ⟨c, cs, hc⟩ := List.exists_cons_of_ne_nil (toList_ne_nil hclose)
  have ho' : o ∉ before := fun hm => hbefore o hm (by simp [ho])
  have hc' : c ∉ content := fun hm => hcontent c hm (by simp [hc])
  refine ⟨⟨rfl, hne, hnl⟩, fun {before' content' rest'} h' => ?_, fun {content' rest'} h' => ?_⟩
  · have he := h'.1
    conv_rhs at he => rw [ho, List.cons_append]
    exact length_le_of_notMem he ho'
  · have he := List.append_cancel_left (List.append_cancel_left h'.1)
    conv_rhs at he => rw [hc, List.cons_append]
    exact length_le_of_notMem he hc'

theorem not_holds_of_disjoint (hopen : d.opening ≠ "") (hcs : ∀ c ∈ cs, c ∉ d.opening.toList) :
    ¬Holds d cs before content rest := by
  rintro ⟨rfl, -⟩
  obtain ⟨o, os, ho⟩ := List.exists_cons_of_ne_nil (toList_ne_nil hopen)
  exact hcs o (by simp [ho]) (by simp [ho])

theorem firstSpan?_of_first (h : First d cs before content rest) :
    firstSpan? d.opening.toList d.closing.toList cs = some (before, content, rest) := by
  obtain ⟨⟨before', content', rest'⟩, hf⟩ :=
    Option.isSome_iff_exists.1 (firstSpan?_of_holds h.holds)
  obtain ⟨rfl, rfl, rfl⟩ := (first_of_firstSpan? hf).unique h
  exact hf

theorem split_of_first (h : First d cs before content rest) :
    split d.opening.toList d.closing.toList cs = gap before ++
      .path (String.ofList (Text.trim content)) ::
        split d.opening.toList d.closing.toList rest := by
  have hf := firstSpan?_of_first h
  rw [split]
  split
  · rename_i hn
    cases hn.symm.trans hf
  · rename_i hs
    cases hs.symm.trans hf
    rfl

theorem split_of_not_holds (h : ∀ before content rest, ¬Holds d cs before content rest) :
    split d.opening.toList d.closing.toList cs = gap cs := by
  have hf := firstSpan?_eq_none_iff.2 h
  rw [split]
  split
  · rfl
  · rename_i hs
    cases hs.symm.trans hf

theorem gap_toList {text : String} (h : text ≠ "") : gap text.toList = [.literal text] := by
  have hne : text.toList.isEmpty = false := by simpa using h
  rw [gap, hne, String.ofList_toList]
  rfl

@[simp] theorem source_nil (d : Delimiters) : source d [] = "" := rfl

theorem toList_source_literal (d : Delimiters) (text : String) (segments : List Segment) :
    (source d (.literal text :: segments)).toList =
      text.toList ++ (source d segments).toList := by
  simp [source]

theorem toList_source_path (d : Delimiters) (text : String) (segments : List Segment) :
    (source d (.path text :: segments)).toList = d.opening.toList ++
      (text.toList ++ (d.closing.toList ++ (source d segments).toList)) := by
  simp [source]

/-- A written path, with a text before it that has nothing in common with the opening text, is split
off as it was. -/
theorem split_path (hopen : d.opening ≠ "") (hclose : d.closing ≠ "")
    (hbefore : ∀ c ∈ before, c ∉ d.opening.toList) {text : String}
    (htext : Segment.Legible d (.path text)) (segments : List Segment) :
    split d.opening.toList d.closing.toList
        (before ++ (source d (.path text :: segments)).toList) =
      gap before ++ .path text ::
        split d.opening.toList d.closing.toList (source d segments).toList := by
  obtain ⟨hne, htrim, hnl, hcontent⟩ := htext
  have hfirst : First d (before ++ (source d (.path text :: segments)).toList)
      before text.toList (source d segments).toList := by
    rw [toList_source_path]
    exact first_of_disjoint hopen hclose hbefore (toList_ne_nil hne) hnl hcontent
  rw [split_of_first hfirst, htrim.trim_eq, String.ofList_toList]

/-- Splitting undoes writing, segment by segment; a literal goes with the path that follows it. -/
theorem split_source (hopen : d.opening ≠ "") (hclose : d.closing ≠ "") :
    ∀ {segments : List Segment}, segments.IsChain Segment.Apart →
      (∀ s ∈ segments, s.Legible d) →
      split d.opening.toList d.closing.toList (source d segments).toList = segments
  | [], _, _ => split_of_not_holds fun _ _ _ => not_holds_nil
  | .path text :: segments, hchain, hlegible => by
    have htext : Segment.Legible d (.path text) := hlegible _ (by simp)
    have hrest : split d.opening.toList d.closing.toList (source d segments).toList = segments :=
      split_source hopen hclose hchain.tail fun s hs => hlegible s (List.mem_cons_of_mem _ hs)
    have hnothing : ∀ c ∈ ([] : List Char), c ∉ d.opening.toList := by simp
    have h := split_path hopen hclose hnothing htext segments
    rw [List.nil_append] at h
    rw [h, hrest]
    rfl
  | [.literal text], _, hlegible => by
    obtain ⟨hne, hdisjoint⟩ : Segment.Legible d (.literal text) := hlegible _ (by simp)
    rw [toList_source_literal, source_nil, String.toList_empty, List.append_nil,
      split_of_not_holds fun _ _ _ => not_holds_of_disjoint hopen hdisjoint, gap_toList hne]
  | .literal text :: .path text' :: segments, hchain, hlegible => by
    obtain ⟨hne, hdisjoint⟩ : Segment.Legible d (.literal text) := hlegible _ (by simp)
    have htext' : Segment.Legible d (.path text') := hlegible _ (by simp)
    have hrest : split d.opening.toList d.closing.toList (source d segments).toList = segments :=
      split_source hopen hclose hchain.tail.tail
        fun s hs => hlegible s (List.mem_cons_of_mem _ (List.mem_cons_of_mem _ hs))
    rw [toList_source_literal, split_path hopen hclose hdisjoint htext' segments, hrest,
      gap_toList hne]
    rfl
  | .literal _ :: .literal _ :: _, hchain, _ => absurd (List.isChain_cons_cons.1 hchain).1 id

theorem path_notMem_gap (cs : List Char) (text : String) : .path text ∉ gap cs := by
  rw [gap]
  split <;> simp

/-- A list of segments with a path, without two literals in a row and with each segment legible
between delimiters that are not empty, is what its written form reads back as. -/
theorem parse_source (hopen : d.opening ≠ "") (hclose : d.closing ≠ "") {segments : List Segment}
    (hpath : ∃ text, .path text ∈ segments) (hchain : segments.IsChain Segment.Apart)
    (hlegible : ∀ s ∈ segments, s.Legible d) :
    parse d (source d segments) = some ⟨segments⟩ := by
  have hsplit := split_source hopen hclose hchain hlegible
  obtain ⟨text, hmem⟩ := hpath
  cases hf : firstSpan? d.opening.toList d.closing.toList (source d segments).toList with
  | none =>
    -- Without an interpolation there would be one literal and no path.
    rw [split_of_not_holds (firstSpan?_eq_none_iff.1 hf)] at hsplit
    rw [← hsplit] at hmem
    exact absurd hmem (path_notMem_gap _ _)
  | some span => rw [parse, hf, Option.map_some, hsplit]

/-- The opening text overlaps with itself and with the paths, the closing text with a literal, and
two paths follow each other. -/
theorem parse_source_overlapping :
    let d : Delimiters := ⟨"((", "))"⟩
    let segments : List Segment :=
      [.path "(a(", .path "a b", .literal "))x)", .path "((", .literal "]"]
    (∀ s ∈ segments, s.Legible d) ∧ source d segments = "(((a())((a b))))x)(((())]" ∧
      parse d (source d segments) = some ⟨segments⟩ := by
  intro d segments
  have hlegible : ∀ s ∈ segments, s.Legible d := by decide
  have hchain : segments.IsChain Segment.Apart := by simp [segments, Segment.Apart]
  exact ⟨hlegible, by decide +kernel,
    parse_source (by decide) (by decide) ⟨"((", by decide⟩ hchain hlegible⟩

end Template

end ViewBinding
