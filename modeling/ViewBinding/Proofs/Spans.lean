import Mathlib.Data.List.Chain
import ViewBinding.Template

/-! The interpolations of a text, found one after the other: each is the first from the end of the
one before, with the shortest content it can have, and nothing of the text is lost. -/

namespace ViewBinding

/-- Of two segments next to each other one is a path. -/
def Segment.Apart : Segment → Segment → Prop
  | .literal _, .literal _ => False
  | _, _ => True

namespace Template

variable {d : Delimiters} {opening closing cs before content rest : List Char}

def Encloses (closing cs content rest : List Char) : Prop :=
  cs = content ++ (closing ++ rest) ∧ content ≠ [] ∧ '\n' ∉ content

/-- Whether a text has an interpolation somewhere, with what is before it, in it and after it. -/
def Holds (d : Delimiters) (cs before content rest : List Char) : Prop :=
  cs = before ++ (d.opening.toList ++ (content ++ (d.closing.toList ++ rest))) ∧
    content ≠ [] ∧ '\n' ∉ content

/-- The interpolation with the smallest start, and of those the one with the shortest content. -/
structure First (d : Delimiters) (cs before content rest : List Char) : Prop where
  holds : Holds d cs before content rest
  leftmost : ∀ {before' content' rest'}, Holds d cs before' content' rest' →
    before.length ≤ before'.length
  shortest : ∀ {content' rest'}, Holds d cs before content' rest' →
    content.length ≤ content'.length

/-- An interpolation, and the text between it and the one before. -/
structure Span where
  before : List Char
  content : List Char

/-- All interpolations of a text, each looked for from the end of the one before, and what is left.
-/
inductive Spans (d : Delimiters) : List Char → List Span → List Char → Prop
  | nil {cs : List Char} : (∀ before content rest, ¬Holds d cs before content rest) →
      Spans d cs [] cs
  | cons {cs before content rest : List Char} {spans : List Span} {tail : List Char} :
      First d cs before content rest → Spans d rest spans tail →
      Spans d cs (⟨before, content⟩ :: spans) tail

/-- The text of interpolations, with what is between them. -/
def Span.raw (d : Delimiters) (spans : List Span) : List Char :=
  spans.flatMap fun s => s.before ++ (d.opening.toList ++ (s.content ++ d.closing.toList))

/-- The paths in order, and the texts around them that are not empty. -/
def Span.segments (spans : List Span) (tail : List Char) : List Segment :=
  let around (s : Span) : List Segment :=
    [.literal (String.ofList s.before), .path (String.ofList (Text.trim s.content))]
  (spans.flatMap around ++ [Segment.literal (String.ofList tail)]).filter
    (· ≠ Segment.literal "")

theorem encloses_cons {c : Char} : Encloses closing (c :: cs) content rest ↔
    c ≠ '\n' ∧ ((content = [c] ∧ Text.after? closing cs = some rest) ∨
      ∃ content', content = c :: content' ∧ Encloses closing cs content' rest) := by
  constructor
  · rintro ⟨he, hne, hnl⟩
    obtain _ | ⟨c', content⟩ := content
    · exact absurd rfl hne
    · obtain ⟨rfl, rfl⟩ := List.cons.inj he
      rw [List.mem_cons, not_or] at hnl
      refine ⟨Ne.symm hnl.1, ?_⟩
      obtain _ | ⟨c', content⟩ := content
      · exact .inl ⟨rfl, (Text.after?_eq_some_iff ..).2 rfl⟩
      · exact .inr ⟨_, rfl, rfl, List.cons_ne_nil _ _, hnl.2⟩
  · rintro ⟨hc, ⟨rfl, ha⟩ | ⟨content', rfl, rfl, hne, hnl⟩⟩
    · rw [(Text.after?_eq_some_iff ..).1 ha]
      exact ⟨rfl, List.cons_ne_nil _ _, by simpa using Ne.symm hc⟩
    · exact ⟨rfl, List.cons_ne_nil _ _, by simpa using ⟨Ne.symm hc, hnl⟩⟩

theorem content?_shortest (h : content? closing cs = some (content, rest)) :
    Encloses closing cs content rest ∧
      ∀ content' rest', Encloses closing cs content' rest' → content.length ≤ content'.length := by
  induction cs generalizing content with
  | nil => cases h
  | cons c cs ih =>
    rw [content?] at h
    split at h
    · cases h
    · rename_i hc
      split at h
      · rename_i rest' ha
        cases h
        refine ⟨encloses_cons.2 ⟨hc, .inl ⟨rfl, ha⟩⟩, fun content' rest' h' => ?_⟩
        exact Nat.one_le_iff_ne_zero.2 fun hz => h'.2.1 (List.length_eq_zero_iff.1 hz)
      · rename_i ha
        obtain ⟨⟨content', rest'⟩, hc', he⟩ := Option.map_eq_some_iff.1 h
        cases he
        obtain ⟨hin, hmin⟩ := ih hc'
        refine ⟨encloses_cons.2 ⟨hc, .inr ⟨content', rfl, hin⟩⟩, fun content'' rest'' h' => ?_⟩
        obtain ⟨-, ⟨-, ha'⟩ | ⟨content₁, rfl, h₁⟩⟩ := encloses_cons.1 h'
        · cases ha.symm.trans ha'
        · exact Nat.succ_le_succ (hmin _ _ h₁)

theorem content?_of_encloses (h : Encloses closing cs content rest) :
    (content? closing cs).isSome := by
  induction cs generalizing content with
  | nil => exact absurd (List.append_eq_nil_iff.1 h.1.symm).1 h.2.1
  | cons c cs ih =>
    obtain ⟨hc, h⟩ := encloses_cons.1 h
    rw [content?, if_neg hc]
    split
    · rfl
    · rename_i ha
      obtain ⟨-, ha'⟩ | ⟨content', -, h'⟩ := h
      · cases ha.symm.trans ha'
      · rw [Option.isSome_map]
        exact ih h'

theorem spanAt?_eq_some_iff : spanAt? opening closing cs = some (content, rest) ↔
    ∃ inner, cs = opening ++ inner ∧ content? closing inner = some (content, rest) := by
  simp only [spanAt?, Option.bind_eq_some_iff, Text.after?_eq_some_iff]

theorem holds_cons {c : Char} : Holds d (c :: cs) before content rest ↔
    (before = [] ∧ Holds d (c :: cs) [] content rest) ∨
      ∃ before', before = c :: before' ∧ Holds d cs before' content rest := by
  obtain _ | ⟨c', before⟩ := before
  · simp
  · constructor
    · rintro ⟨he, h⟩
      rw [List.cons_append] at he
      obtain ⟨rfl, he'⟩ := List.cons.inj he
      exact .inr ⟨before, rfl, he', h⟩
    · rintro (⟨hb, -⟩ | ⟨before', hb, he, h⟩)
      · cases hb
      · cases hb
        exact ⟨congrArg (c :: ·) he, h⟩

theorem holds_nil_iff : Holds d cs [] content rest ↔
    ∃ inner, cs = d.opening.toList ++ inner ∧ Encloses d.closing.toList inner content rest := by
  constructor
  · rintro ⟨he, h⟩
    exact ⟨_, he, rfl, h⟩
  · rintro ⟨inner, rfl, rfl, h⟩
    exact ⟨rfl, h⟩

theorem not_holds_nil : ¬Holds d [] before content rest := by
  rintro ⟨he, hne, -⟩
  simp only [List.nil_eq, List.append_eq_nil_iff] at he
  exact hne he.2.2.1

theorem spanAt?_shortest (h : spanAt? d.opening.toList d.closing.toList cs = some (content, rest)) :
    Holds d cs [] content rest ∧
      ∀ {content' rest'}, Holds d cs [] content' rest' → content.length ≤ content'.length := by
  obtain ⟨inner, rfl, hc⟩ := spanAt?_eq_some_iff.1 h
  obtain ⟨hin, hmin⟩ := content?_shortest hc
  refine ⟨holds_nil_iff.2 ⟨inner, rfl, hin⟩, fun {content' rest'} h' => ?_⟩
  obtain ⟨inner', he, h'⟩ := holds_nil_iff.1 h'
  cases List.append_cancel_left he
  exact hmin _ _ h'

theorem spanAt?_of_holds (h : Holds d cs [] content rest) :
    (spanAt? d.opening.toList d.closing.toList cs).isSome := by
  obtain ⟨inner, rfl, hin⟩ := holds_nil_iff.1 h
  obtain ⟨⟨content', rest'⟩, hc⟩ := Option.isSome_iff_exists.1 (content?_of_encloses hin)
  exact Option.isSome_iff_exists.2 ⟨_, spanAt?_eq_some_iff.2 ⟨inner, rfl, hc⟩⟩

/-- The search goes from left to right, so what it finds has the smallest start. -/
theorem first_of_firstSpan?
    (h : firstSpan? d.opening.toList d.closing.toList cs = some (before, content, rest)) :
    First d cs before content rest := by
  induction cs generalizing before with
  | nil => cases h
  | cons c cs ih =>
    rw [firstSpan?] at h
    split at h
    · rename_i hs
      cases h
      obtain ⟨hh, hmin⟩ := spanAt?_shortest hs
      exact ⟨hh, fun _ => Nat.zero_le _, hmin⟩
    · rename_i hs
      obtain ⟨⟨before', content', rest'⟩, hf, he⟩ := Option.map_eq_some_iff.1 h
      cases he
      obtain ⟨hh, hleft, hmin⟩ := ih hf
      -- Nothing starts here, so every interpolation is one of the rest of the text.
      have hstart {content' rest' : List Char} : ¬Holds d (c :: cs) [] content' rest' := by
        intro h'
        rw [← Option.not_isSome_iff_eq_none] at hs
        exact hs (spanAt?_of_holds h')
      refine ⟨holds_cons.2 (.inr ⟨before', rfl, hh⟩), fun h' => ?_, fun h' => ?_⟩
      · obtain ⟨-, h'⟩ | ⟨before₁, rfl, hin⟩ := holds_cons.1 h'
        · exact absurd h' hstart
        · exact Nat.succ_le_succ (hleft hin)
      · obtain ⟨hb, -⟩ | ⟨before₁, hb, h'⟩ := holds_cons.1 h'
        · cases hb
        · cases hb
          exact hmin h'

theorem firstSpan?_of_holds (h : Holds d cs before content rest) :
    (firstSpan? d.opening.toList d.closing.toList cs).isSome := by
  induction cs generalizing before with
  | nil => exact absurd h not_holds_nil
  | cons c cs ih =>
    rw [firstSpan?]
    split
    · rfl
    · rename_i hs
      obtain ⟨-, h⟩ | ⟨before', -, h⟩ := holds_cons.1 h
      · rw [← Option.not_isSome_iff_eq_none] at hs
        exact absurd (spanAt?_of_holds h) hs
      · rw [Option.isSome_map]
        exact ih h

theorem firstSpan?_eq_none_iff : firstSpan? d.opening.toList d.closing.toList cs = none ↔
    ∀ before content rest, ¬Holds d cs before content rest := by
  constructor
  · intro h before content rest hh
    rw [← Option.not_isSome_iff_eq_none] at h
    exact h (firstSpan?_of_holds hh)
  · intro h
    rw [Option.eq_none_iff_forall_ne_some]
    rintro ⟨before, content, rest⟩ hf
    exact h before content rest (first_of_firstSpan? hf).holds

namespace First

variable {before' content' rest' : List Char}

/-- There is only one interpolation with the smallest start and the shortest content. -/
theorem unique (h : First d cs before content rest) (h' : First d cs before' content' rest') :
    before = before' ∧ content = content' ∧ rest = rest' := by
  have hb : before = before' := List.append_inj_left (h.holds.1.symm.trans h'.holds.1)
    (Nat.le_antisymm (h.leftmost h'.holds) (h'.leftmost h.holds))
  subst hb
  have hinner := List.append_cancel_left (List.append_cancel_left (h.holds.1.symm.trans h'.holds.1))
  obtain ⟨hc, hr⟩ := List.append_inj hinner
    (Nat.le_antisymm (h.shortest h'.holds) (h'.shortest h.holds))
  exact ⟨rfl, hc, List.append_cancel_left hr⟩

theorem before_holds_none (h : First d cs before content rest)
    (before' content' rest' : List Char) :
    ¬Holds d before before' content' rest' := by
  rintro ⟨he, hne, hnl⟩
  have hin : Holds d cs before' content'
      (rest' ++ (d.opening.toList ++ (content ++ (d.closing.toList ++ rest)))) := by
    refine ⟨?_, hne, hnl⟩
    rw [h.holds.1, he]
    simp only [List.append_assoc]
  have hlen := h.leftmost hin
  have hpos := List.length_pos_iff.2 hne
  rw [he] at hlen
  simp only [List.length_append] at hlen
  omega

end First

namespace Spans

variable {spans spans' : List Span} {tail tail' : List Char}

theorem unique (h : Spans d cs spans tail) (h' : Spans d cs spans' tail') :
    spans = spans' ∧ tail = tail' := by
  induction h generalizing spans' with
  | nil hn =>
    cases h' with
    | nil => exact ⟨rfl, rfl⟩
    | cons hf _ => exact absurd hf.holds (hn _ _ _)
  | cons hf _ ih =>
    cases h' with
    | nil hn => exact absurd hf.holds (hn _ _ _)
    | cons hf' hs' =>
      obtain ⟨rfl, rfl, rfl⟩ := hf.unique hf'
      obtain ⟨rfl, rfl⟩ := ih hs'
      exact ⟨rfl, rfl⟩

theorem raw (h : Spans d cs spans tail) : Span.raw d spans ++ tail = cs := by
  induction h with
  | nil => rfl
  | cons hf _ ih =>
    rw [hf.holds.1, ← ih]
    simp only [Span.raw, List.flatMap_cons, List.append_assoc]

theorem eq_nil_iff (h : Spans d cs spans tail) :
    spans = [] ↔ ∀ before content rest, ¬Holds d cs before content rest := by
  cases h with
  | nil hn => exact iff_of_true rfl hn
  | cons hf _ => exact iff_of_false (List.cons_ne_nil _ _) fun hn => hn _ _ _ hf.holds

theorem gap_holds_none (h : Spans d cs spans tail) {gap : List Char}
    (hg : gap = tail ∨ ∃ s ∈ spans, s.before = gap) (before content rest : List Char) :
    ¬Holds d gap before content rest := by
  induction h with
  | nil hn =>
    obtain rfl | ⟨s, hs, -⟩ := hg
    · exact hn before content rest
    · exact absurd hs List.not_mem_nil
  | cons hf _ ih =>
    obtain rfl | ⟨s, hs, rfl⟩ := hg
    · exact ih (.inl rfl)
    · obtain rfl | hs := List.mem_cons.1 hs
      · exact hf.before_holds_none before content rest
      · exact ih (.inr ⟨s, hs, rfl⟩)

end Spans

theorem filter_gap (cs : List Char) :
    [Segment.literal (String.ofList cs)].filter (· ≠ .literal "") = gap cs := by
  cases cs with
  | nil => rfl
  | cons c cs => simp [gap]

theorem segments_nil (tail : List Char) : Span.segments [] tail = gap tail := filter_gap tail

theorem segments_cons (s : Span) (spans : List Span) (tail : List Char) :
    Span.segments (s :: spans) tail =
      gap s.before ++ .path (String.ofList (Text.trim s.content)) :: Span.segments spans tail := by
  rw [← filter_gap, Span.segments, List.flatMap_cons, List.append_assoc,
    show ∀ a b : Segment, [a, b] = [a] ++ [b] from fun _ _ => rfl, List.append_assoc,
    List.filter_append, List.filter_append]
  rfl

theorem split_spans (d : Delimiters) (cs : List Char) : ∃ spans tail, Spans d cs spans tail ∧
    split d.opening.toList d.closing.toList cs = Span.segments spans tail := by
  fun_induction split d.opening.toList d.closing.toList cs with
  | case1 cs hf => exact ⟨[], cs, .nil (firstSpan?_eq_none_iff.1 hf), (segments_nil cs).symm⟩
  | case2 cs before content rest hf ih =>
    obtain ⟨spans, tail, hs, he⟩ := ih
    exact ⟨⟨before, content⟩ :: spans, tail, .cons (first_of_firstSpan? hf) hs,
      by rw [segments_cons, he]⟩

theorem parse_eq_none_iff {text : String} : parse d text = none ↔
    ∀ before content rest, ¬Holds d text.toList before content rest := by
  rw [parse, Option.map_eq_none_iff, firstSpan?_eq_none_iff]

theorem apart_gap (cs : List Char) {segments : List Segment} (h : segments.IsChain Segment.Apart)
    (hp : ∀ text, segments.head? ≠ some (.literal text)) :
    (gap cs ++ segments).IsChain Segment.Apart := by
  rw [gap]
  split
  · exact h
  · cases segments with
    | nil => exact .singleton _
    | cons s segments =>
      cases s with
      | literal text => exact absurd rfl (hp text)
      | path text => exact .cons_cons trivial h

/-- Between two texts around interpolations there is always a path. -/
theorem segments_apart (spans : List Span) (tail : List Char) :
    (Span.segments spans tail).IsChain Segment.Apart := by
  induction spans with
  | nil =>
    rw [segments_nil, ← List.append_nil (gap tail)]
    exact apart_gap tail .nil fun _ h => nomatch h
  | cons s spans ih =>
    rw [segments_cons]
    refine apart_gap s.before ?_ fun _ h => nomatch h
    cases h : Span.segments spans tail with
    | nil => exact .singleton _
    | cons s' segments => exact .cons_cons trivial (h ▸ ih)

theorem mem_segments {spans : List Span} {tail : List Char} {text : String}
    (h : .literal text ∈ Span.segments spans tail) : text ≠ "" ∧
      ∃ gap, text = String.ofList gap ∧ (gap = tail ∨ ∃ s ∈ spans, s.before = gap) := by
  obtain ⟨h, hne⟩ := List.mem_filter.1 h
  refine ⟨fun e => by simp [e] at hne, ?_⟩
  rw [List.mem_append, List.mem_flatMap, List.mem_singleton] at h
  obtain ⟨s, hs, h⟩ | h := h
  · obtain h | h := List.mem_pair.1 h
    · exact ⟨s.before, Segment.literal.inj h, .inr ⟨s, hs, rfl⟩⟩
    · cases h
  · exact ⟨tail, Segment.literal.inj h, .inl rfl⟩

/-- A text has its interpolations in one way only: each starts as far left as it can from the end of
the one before and has the shortest content. If there is none, the text is no template. Otherwise
its segments are the trimmed contents as paths and all that is between them, if there is anything;
nothing of the text is lost, and none of the texts between the paths holds an interpolation. -/
theorem parse_spans (d : Delimiters) (text : String) :
    ∃ spans tail, Spans d text.toList spans tail ∧
      (∀ spans' tail', Spans d text.toList spans' tail' → spans' = spans ∧ tail' = tail) ∧
      (parse d text = none ↔ ∀ before content rest, ¬Holds d text.toList before content rest) ∧
      parse d text = (if spans = [] then none else some ⟨Span.segments spans tail⟩) ∧
      text = String.ofList (Span.raw d spans ++ tail) ∧
      (Span.segments spans tail).IsChain Segment.Apart ∧
      ∀ literal, .literal literal ∈ Span.segments spans tail →
        literal ≠ "" ∧ parse d literal = none := by
  obtain ⟨spans, tail, h, hsplit⟩ := split_spans d text.toList
  refine ⟨spans, tail, h, fun spans' tail' h' => h'.unique h, parse_eq_none_iff, ?_, ?_,
    segments_apart spans tail, fun literal hl => ?_⟩
  · split
    · rename_i hs
      exact parse_eq_none_iff.2 (h.eq_nil_iff.1 hs)
    · rename_i hs
      cases hf : firstSpan? d.opening.toList d.closing.toList text.toList with
      | none => exact absurd (h.eq_nil_iff.2 (firstSpan?_eq_none_iff.1 hf)) hs
      | some p => rw [parse, hf, Option.map_some, hsplit]
  · rw [h.raw, String.ofList_toList]
  · obtain ⟨hne, gap, rfl, hg⟩ := mem_segments hl
    refine ⟨hne, parse_eq_none_iff.2 fun before content rest => ?_⟩
    rw [String.toList_ofList]
    exact h.gap_holds_none hg before content rest

/-- The first interpolation closes as early as it can, though not before its first character, and
one that meets the end of its line is none. -/
example : parse ⟨"((", "))"⟩ "x(((a)))((\n((b))" =
    some ⟨[.literal "x", .path "(a", .literal ")((\n", .path "b"]⟩ := by
  decide +kernel

end Template

end ViewBinding
