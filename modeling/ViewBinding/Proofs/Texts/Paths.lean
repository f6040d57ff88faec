import Mathlib.Data.List.Forall2
import ViewBinding.Path
import ViewBinding.Proofs.Texts.Trimming

/-! Paths in their written form: which texts are paths, what their names are, and that writing and
reading undo each other. -/

namespace ViewBinding.Path

variable {text : String} {raw : List (List Char)}

/-- A text cut at all its dots. -/
structure Cut (text : String) (raw : List (List Char)) : Prop where
  nonempty : raw ≠ []
  dotFree : ∀ piece ∈ raw, '.' ∉ piece
  joined : ['.'].intercalate raw = text.toList

/-- What a path can be made of: something without a dot and without a blank at an end. -/
structure Plain (name : String) : Prop where
  nonempty : name ≠ ""
  dotFree : '.' ∉ name.toList
  trimmed : Text.Trimmed name.toList

theorem notMem_of_mem_splitOn {cs piece : List Char} (h : piece ∈ cs.splitOn '.') :
    '.' ∉ piece := by
  induction cs generalizing piece with
  | nil =>
    rw [List.splitOn_nil, List.mem_singleton] at h
    simp [h]
  | cons c cs ih =>
    rw [List.splitOn_cons_eq_if_modifyHead] at h
    split at h
    · rcases List.mem_cons.1 h with rfl | h
      · simp
      · exact ih h
    · rename_i hc
      obtain ⟨first, more, hs⟩ := List.exists_cons_of_ne_nil (List.splitOn_ne_nil '.' cs)
      rw [hs] at ih h
      rcases List.mem_cons.1 h with rfl | h
      · have hfirst : '.' ∉ first := ih List.mem_cons_self
        rw [List.mem_cons, not_or]
        exact ⟨fun e => hc (by simp [← e]), hfirst⟩
      · exact ih (List.mem_cons_of_mem _ h)

theorem length_splitOn (cs : List Char) : (cs.splitOn '.').length = cs.count '.' + 1 := by
  induction cs with
  | nil => simp
  | cons c cs ih =>
    rw [List.splitOn_cons_eq_if_modifyHead, List.count_cons]
    split <;> simp [ih]

theorem cut_splitOn (text : String) : Cut text (text.toList.splitOn '.') where
  nonempty := List.splitOn_ne_nil _ _
  dotFree _ := notMem_of_mem_splitOn
  joined := List.intercalate_splitOn '.'

namespace Cut

theorem eq_splitOn (h : Cut text raw) : raw = text.toList.splitOn '.' := by
  rw [← h.joined, List.splitOn_intercalate '.' h.dotFree h.nonempty]

theorem pieces_eq (h : Cut text raw) :
    pieces text = raw.map fun piece => String.ofList (Text.trim piece) := by
  rw [pieces, h.eq_splitOn]

theorem length_pieces (h : Cut text raw) : (pieces text).length = text.toList.count '.' + 1 := by
  rw [h.pieces_eq, h.eq_splitOn, List.length_map, length_splitOn]

theorem empty_mem_iff (h : Cut text raw) :
    "" ∈ pieces text ↔ ∃ piece ∈ raw, ∀ c ∈ piece, Text.isBlank c = true := by
  simp only [h.pieces_eq, List.mem_map, String.ofList_eq_empty_iff, Text.trim_eq_nil_iff]

theorem forall₂_pieces (h : Cut text raw) :
    List.Forall₂ (fun piece name => Text.Trims piece name.toList) raw (pieces text) := by
  rw [h.pieces_eq, List.forall₂_map_right_iff, List.forall₂_same]
  intro piece _
  rw [String.toList_ofList]
  exact Text.trims_trim piece

theorem eq_pieces_of_forall₂ (h : Cut text raw) {names : List String}
    (hn : List.Forall₂ (fun piece name => Text.Trims piece name.toList) raw names) :
    names = pieces text := by
  rw [h.pieces_eq]
  clear h
  induction hn with
  | nil => rfl
  | cons ht _ ih => rw [List.map_cons, ht.trim_eq, String.ofList_toList, ih]

theorem plain_of_mem_pieces (h : Cut text raw) (hne : "" ∉ pieces text) {name : String}
    (hname : name ∈ pieces text) : Plain name := by
  refine ⟨fun e => hne (e ▸ hname), ?_, ?_⟩
  all_goals
    rw [h.pieces_eq] at hname
    obtain ⟨piece, hp, rfl⟩ := List.mem_map.1 hname
    rw [String.toList_ofList]
  · exact fun hd => h.dotFree piece hp (Text.mem_of_mem_trim hd)
  · exact Text.trimmed_trim piece

end Cut

theorem parse_eq_error_iff {fault : Fault} :
    parse text = .error fault ↔ "" ∈ pieces text ∧ fault = .invalidPath text := by
  rw [parse]
  split <;> rename_i h <;> simp [h, eq_comm]

theorem parse_eq_ok_iff {p : Path} :
    parse text = .ok p ↔ "" ∉ pieces text ∧ p.segments = pieces text := by
  rcases p with ⟨segments, hne⟩
  rw [parse]
  split <;> rename_i h <;> simp [h, eq_comm]

theorem cut_intercalate {names : List String} (hne : names ≠ []) (hp : ∀ n ∈ names, Plain n) :
    Cut (".".intercalate names) (names.map String.toList) where
  nonempty := by simpa using hne
  dotFree := by
    intro piece hpiece
    obtain ⟨name, hname, rfl⟩ := List.mem_map.1 hpiece
    exact (hp name hname).dotFree
  joined := by
    rw [String.toList_intercalate]
    rfl

theorem pieces_intercalate {names : List String} (hne : names ≠ [])
    (hp : ∀ n ∈ names, Plain n) : pieces (".".intercalate names) = names := by
  rw [(cut_intercalate hne hp).pieces_eq, List.map_map]
  conv_rhs => rw [← List.map_id names]
  apply List.map_congr_left
  intro name hname
  simp [(hp name hname).trimmed.trim_eq]

theorem parse_intercalate {names : List String} (hne : names ≠ [])
    (hp : ∀ n ∈ names, Plain n) : parse (".".intercalate names) = .ok ⟨names, hne⟩ := by
  rw [parse_eq_ok_iff, pieces_intercalate hne hp]
  exact ⟨fun hmem => (hp "" hmem).nonempty rfl, rfl⟩

/-- A text is cut at its dots in one way. It is no path, and is named in the fault, exactly if one
of the pieces is blank; otherwise its names are the trimmed pieces, in order, one more than the
dots, and the written form of the path reads back as the same path. Every list of plain names is
what its joined form reads back as. -/
theorem parse_grammar :
    (∀ text, ∃ raw, Cut text raw ∧ (∀ raw', Cut text raw' → raw' = raw) ∧
      (∀ fault, parse text = .error fault ↔
        (∃ piece ∈ raw, ∀ c ∈ piece, Text.isBlank c = true) ∧ fault = .invalidPath text) ∧
      (∀ p : Path, parse text = .ok p ↔ (∀ piece ∈ raw, ∃ c ∈ piece, Text.isBlank c = false) ∧
        List.Forall₂ (fun piece name => Text.Trims piece name.toList) raw p.segments) ∧
      ∀ p : Path, parse text = .ok p → (∀ name ∈ p.segments, Plain name) ∧
        p.segments.length = text.toList.count '.' + 1 ∧ parse p.text = .ok p) ∧
    ∀ names : List String, ∀ hne : names ≠ [], (∀ name ∈ names, Plain name) →
      parse (".".intercalate names) = .ok ⟨names, hne⟩ := by
  refine ⟨fun text => ?_, fun names hne hp => parse_intercalate hne hp⟩
  have hcut := cut_splitOn text
  refine ⟨_, hcut, fun raw' h' => h'.eq_splitOn, fun fault => ?_, fun p => ?_, fun p hok => ?_⟩
  · rw [parse_eq_error_iff, hcut.empty_mem_iff]
  · have hnone : "" ∉ pieces text ↔
        ∀ piece ∈ text.toList.splitOn '.', ∃ c ∈ piece, Text.isBlank c = false := by
      rw [hcut.empty_mem_iff]
      simp
    rw [parse_eq_ok_iff, hnone]
    refine and_congr_right fun _ => ⟨fun he => ?_, hcut.eq_pieces_of_forall₂⟩
    rw [he]
    exact hcut.forall₂_pieces
  · obtain ⟨hne, he⟩ := parse_eq_ok_iff.1 hok
    have hplain : ∀ name ∈ p.segments, Plain name := by
      intro name hname
      rw [he] at hname
      exact hcut.plain_of_mem_pieces hne hname
    refine ⟨hplain, by rw [he, hcut.length_pieces], ?_⟩
    exact parse_intercalate p.nonempty hplain

/-- Blanks around a name are no part of it, and blanks inside are. -/
example : (parse "\u00a0a b\t.c ").map Path.segments = .ok ["a b", "c"] := by decide +kernel

end ViewBinding.Path
