import Mathlib.Data.List.TakeWhile
import ViewBinding.Text.Blank

/-! A text without its blanks: what `trim` leaves is the only middle that has blanks around it and
no blank at an end. -/

namespace ViewBinding.Text

variable {cs before mid after : List Char}

/-- Whether a text has no blank at either end. The empty text has none. -/
def Trimmed (cs : List Char) : Prop :=
  (∀ c ∈ cs.head?, isBlank c = false) ∧ ∀ c ∈ cs.getLast?, isBlank c = false

instance (cs : List Char) : Decidable (Trimmed cs) :=
  @instDecidableAnd _ _ (Option.decidableForallMem _) (Option.decidableForallMem _)

/-- Whether a text is a trimmed one with blanks around it. -/
def Trims (cs mid : List Char) : Prop :=
  ∃ before after, (∀ c ∈ before, isBlank c = true) ∧ (∀ c ∈ after, isBlank c = true) ∧
    cs = before ++ (mid ++ after) ∧ Trimmed mid

theorem head?_append_right (hm : mid ≠ []) (after : List Char) :
    (mid ++ after).head? = mid.head? := by
  obtain ⟨c, mid, rfl⟩ := List.exists_cons_of_ne_nil hm
  rfl

theorem dropWhile_blanks (hb : ∀ c ∈ before, isBlank c = true) (hm : mid ≠ [])
    (ht : ∀ c ∈ mid.head?, isBlank c = false) :
    (before ++ mid).dropWhile isBlank = mid := by
  rw [List.dropWhile_append_of_pos hb]
  obtain ⟨c, mid, rfl⟩ := List.exists_cons_of_ne_nil hm
  have hc : isBlank c = false := ht c rfl
  simp [hc]

theorem trimEnd_blanks (ha : ∀ c ∈ after, isBlank c = true) (hm : mid ≠ [])
    (ht : ∀ c ∈ mid.getLast?, isBlank c = false) : trimEnd (mid ++ after) = mid := by
  have hrev : (after.reverse ++ mid.reverse).dropWhile isBlank = mid.reverse := by
    apply dropWhile_blanks
    · simpa using ha
    · simpa using hm
    · simpa using ht
  rw [trimEnd, List.reverse_append, hrev, List.reverse_reverse]

theorem head?_dropWhile_blanks (cs : List Char) :
    ∀ c ∈ (cs.dropWhile isBlank).head?, isBlank c = false := by
  intro c hc
  have h := List.head?_dropWhile_not isBlank cs
  rw [Option.mem_def] at hc
  simpa [hc] using h

theorem trimEnd_split (cs : List Char) : ∃ after, (∀ c ∈ after, isBlank c = true) ∧
    cs = trimEnd cs ++ after ∧ ∀ c ∈ (trimEnd cs).getLast?, isBlank c = false := by
  refine ⟨(cs.reverse.takeWhile isBlank).reverse, fun c hc => ?_, ?_, fun c hc => ?_⟩
  · rw [List.mem_reverse] at hc
    exact List.mem_takeWhile_imp hc
  · rw [trimEnd, ← List.reverse_append, List.takeWhile_append_dropWhile, List.reverse_reverse]
  · rw [trimEnd, List.getLast?_reverse] at hc
    exact head?_dropWhile_blanks _ c hc

theorem trims_trim (cs : List Char) : Trims cs (trim cs) := by
  obtain ⟨after, ha, he, hlast⟩ := trimEnd_split (cs.dropWhile isBlank)
  refine ⟨cs.takeWhile isBlank, after, fun c hc => List.mem_takeWhile_imp hc, ha, ?_, ?_, hlast⟩
  · rw [trim, ← he, List.takeWhile_append_dropWhile]
  · -- The front of what is left is the front of the text it was cut off from.
    intro c hc
    have hne : trimEnd (cs.dropWhile isBlank) ≠ [] := by
      intro e
      rw [trim, e] at hc
      cases hc
    apply head?_dropWhile_blanks cs
    rw [he, head?_append_right hne]
    exact hc

theorem trim_eq_nil (h : ∀ c ∈ cs, isBlank c = true) : trim cs = [] := by
  have hd : cs.dropWhile isBlank = [] := List.dropWhile_eq_nil_iff.2 h
  rw [trim, hd]
  rfl

/-- A text can be trimmed in one way only. -/
theorem Trims.trim_eq (h : Trims cs mid) : trim cs = mid := by
  obtain ⟨before, after, hb, ha, rfl, ht⟩ := h
  rcases eq_or_ne mid [] with rfl | hm
  · apply trim_eq_nil
    simp only [List.nil_append, List.mem_append]
    rintro c (hc | hc)
    · exact hb c hc
    · exact ha c hc
  · have hhead : ∀ c ∈ (mid ++ after).head?, isBlank c = false := by
      rw [head?_append_right hm]
      exact ht.1
    rw [trim, dropWhile_blanks hb (by simp [hm]) hhead]
    exact trimEnd_blanks ha hm ht.2

theorem Trimmed.trim_eq (h : Trimmed cs) : trim cs = cs :=
  Trims.trim_eq ⟨[], [], by simp, by simp, by simp, h⟩

theorem trimmed_trim (cs : List Char) : Trimmed (trim cs) := by
  obtain ⟨_, _, _, _, _, ht⟩ := trims_trim cs
  exact ht

theorem trim_eq_nil_iff : trim cs = [] ↔ ∀ c ∈ cs, isBlank c = true := by
  constructor
  · intro h
    obtain ⟨before, after, hb, ha, he, -⟩ := trims_trim cs
    rw [h, List.nil_append] at he
    rw [he]
    intro c hc
    rcases List.mem_append.1 hc with hc | hc
    · exact hb c hc
    · exact ha c hc
  · exact trim_eq_nil

theorem mem_of_mem_trim {c : Char} (h : c ∈ trim cs) : c ∈ cs := by
  obtain ⟨before, after, -, -, he, -⟩ := trims_trim cs
  rw [he]
  simp [h]

end ViewBinding.Text
