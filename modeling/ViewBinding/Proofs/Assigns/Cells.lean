import ViewBinding.Proofs.Course.Run
import ViewBinding.Proofs.Documents.Writes

/-! Every property has a cell of its own. Objects are shared and may contain themselves, cells are
not: whatever a run does, no two properties ever have the same cell. -/

namespace ViewBinding

variable {w w' w'' : World} {P : Step → Prop} {hs : List Happening}

namespace World

/-- Whether every property with a value has a cell that was made, and no other property has that. -/
structure OwnsCells (w : World) : Prop where
  made : ∀ {o key c}, w.slot? o key = some (.cell c) → c.index < w.cells.size
  own : ∀ {o o' key key' c}, w.slot? o key = some (.cell c) → w.slot? o' key' = some (.cell c) →
    o' = o ∧ key' = key

namespace OwnsCells

theorem mono (h : w.OwnsCells)
    (hs : ∀ o key c, w'.slot? o key = some (.cell c) → w.slot? o key = some (.cell c))
    (hc : w.cells.size ≤ w'.cells.size) : w'.OwnsCells where
  made hslot := Nat.lt_of_lt_of_le (h.made (hs _ _ _ hslot)) hc
  own hslot hslot' := h.own (hs _ _ _ hslot) (hs _ _ _ hslot')

theorem of_eq (h : w.OwnsCells) (ho : w'.objects = w.objects) (hc : w'.cells = w.cells) :
    w'.OwnsCells :=
  h.mono (fun o key c hs => by rwa [slot?, ho] at hs) (Nat.le_of_eq (by rw [hc]))

theorem setRegistry (h : w.OwnsCells) (source : Source) (registry : Registry) :
    (w.setRegistry source registry).OwnsCells :=
  h.mono (fun o key c hs => by rwa [slot?_setRegistry] at hs)
    (setRegistry_leaves w source registry ∅).cells

theorem store (h : w.OwnsCells) (c : Ref .cell) (v : Value) : (w.store c v).OwnsCells :=
  h.mono (fun _ _ _ hs => hs) (store_leaves w c v (Set.notMem_empty _)).cells

theorem addCell (h : w.OwnsCells) (v : Value) : (w.addCell v).2.OwnsCells :=
  h.mono (fun _ _ _ hs => hs) (addCell_leaves w v fun _ hl => absurd hl (Set.notMem_empty _)).cells

theorem setComputed (h : w.OwnsCells) (o : Ref .object) (key : String) (p : Computed) :
    (w.setSlot o key (.computed p)).OwnsCells := by
  refine h.mono (fun o' key' c hs => ?_) (Nat.le_refl _)
  obtain e | ⟨-, -, e⟩ := w.slot?_setSlot_cases o o' key key' (.computed p)
  · rwa [e] at hs
  · cases e.symm.trans hs

theorem inserted (h : w.OwnsCells) (o : Ref .object) (key : String) (v : Value) :
    (w.inserted o key v).OwnsCells := by
  have hsize := (size_inserted w o key v).2
  have hcases {o' : Ref .object} {key' : String} {c : Ref .cell}
      (hs : (w.inserted o key v).slot? o' key' = some (.cell c)) :
      w.slot? o' key' = some (.cell c) ∧ c ≠ w.cells.fresh ∨
        o' = o ∧ key' = key ∧ c = w.cells.fresh := by
    rw [slot?_inserted] at hs
    obtain e | ⟨rfl, rfl, e⟩ := w.slot?_insertCell_cases o key v o' key'
    · rw [e] at hs
      exact .inl ⟨hs, fun hc => Nat.lt_irrefl _ (hc ▸ h.made hs)⟩
    · cases e.symm.trans hs
      exact .inr ⟨rfl, rfl, rfl⟩
  constructor
  · intro o' key' c hs
    rw [hsize]
    obtain ⟨hs, -⟩ | ⟨-, -, rfl⟩ := hcases hs
    · exact Nat.lt_succ_of_lt (h.made hs)
    · exact Nat.lt_succ_self _
  · intro o₁ o₂ key₁ key₂ c h₁ h₂
    obtain ⟨h₁, hne⟩ | ⟨rfl, rfl, hc⟩ := hcases h₁ <;>
      obtain ⟨h₂, hne'⟩ | ⟨rfl, rfl, hc'⟩ := hcases h₂
    · exact h.own h₁ h₂
    · exact absurd hc' hne
    · exact absurd hc hne'
    · exact ⟨rfl, rfl⟩

end OwnsCells

/-- What becomes of a world in which new data is made: properties that were not there before have
cells that were not there before. -/
structure Furnished (w w' : World) : Prop where
  owns : w'.OwnsCells
  cells : w.cells.size ≤ w'.cells.size
  slot : ∀ {o key c}, w'.slot? o key = some (.cell c) →
    w.slot? o key = some (.cell c) ∨ w.cells.size ≤ c.index

namespace Furnished

theorem refl (h : w.OwnsCells) : w.Furnished w := ⟨h, Nat.le_refl _, .inl⟩

theorem trans (h : w.Furnished w') (h' : w'.Furnished w'') : w.Furnished w'' where
  owns := h'.owns
  cells := Nat.le_trans h.cells h'.cells
  slot hs := (h'.slot hs).elim h.slot fun hc => .inr (Nat.le_trans h.cells hc)

theorem addCell (h : w.OwnsCells) (v : Value) : w.Furnished (w.addCell v).2 where
  owns := h.addCell v
  cells := (addCell_leaves w v fun _ hl => absurd hl (Set.notMem_empty _)).cells
  slot := .inl

end Furnished

/-- Properties that wait for the object they will belong to: each has a cell of its own that nothing
else has, from some number on. -/
structure Spare (w : World) (b : Nat) (slots : Keyed Slot) : Prop where
  above : ∀ {key : String} {c}, slots[key]? = some (.cell c) → b ≤ c.index
  made : ∀ {key : String} {c}, slots[key]? = some (.cell c) → c.index < w.cells.size
  free : ∀ {key : String} {c}, slots[key]? = some (.cell c) →
    ∀ o key', w.slot? o key' ≠ some (.cell c)
  own : ∀ {key key' : String} {c}, slots[key]? = some (.cell c) → slots[key']? = some (.cell c) →
    key' = key

namespace Spare

variable {b : Nat} {slots : Keyed Slot}

theorem empty (w : World) (b : Nat) : w.Spare b ∅ := by
  constructor <;> intros <;> simp_all

theorem furnished (h : w.Spare b slots) (hw : w.Furnished w') : w'.Spare b slots where
  above := h.above
  made hs := Nat.lt_of_lt_of_le (h.made hs) hw.cells
  free hs o key' hs' := (hw.slot hs').elim (h.free hs o key') (Nat.not_le.2 (h.made hs))
  own := h.own

theorem insert (h : w.Spare b slots) (hw : w.OwnsCells) (hb : b ≤ w.cells.size) (key : String)
    (v : Value) : (w.addCell v).2.Spare b (slots.insert key (.cell w.cells.fresh)) := by
  have hsize : (w.addCell v).2.cells.size = w.cells.size + 1 := Store.size_add ..
  have hcases {key' : String} {c : Ref .cell}
      (hs : (slots.insert key (.cell w.cells.fresh))[key']? = some (.cell c)) :
      slots[key']? = some (.cell c) ∨ key' = key ∧ c = w.cells.fresh := by
    rw [Std.ExtTreeMap.getElem?_insert] at hs
    split at hs
    · cases hs
      exact .inr ⟨(Std.LawfulEqCmp.eq_of_compare ‹_›).symm, rfl⟩
    · exact .inl hs
  have hnew {key' : String} (hs : slots[key']? = some (.cell w.cells.fresh)) : False :=
    Nat.lt_irrefl _ (h.made hs)
  constructor
  · intro key' c hs
    obtain hs | ⟨-, rfl⟩ := hcases hs
    · exact h.above hs
    · exact hb
  · intro key' c hs
    rw [hsize]
    obtain hs | ⟨-, rfl⟩ := hcases hs
    · exact Nat.lt_succ_of_lt (h.made hs)
    · exact Nat.lt_succ_self _
  · intro key' c hs o key₁ hs'
    obtain hs | ⟨-, rfl⟩ := hcases hs
    · exact h.free hs o key₁ hs'
    · exact Nat.lt_irrefl _ (hw.made hs')
  · intro key₁ key₂ c h₁ h₂
    obtain hold₁ | ⟨rfl, hc₁⟩ := hcases h₁ <;> obtain hold₂ | ⟨rfl, hc₂⟩ := hcases h₂
    · exact h.own hold₁ hold₂
    · exact (hnew (hc₂ ▸ hold₁)).elim
    · exact (hnew (hc₁ ▸ hold₂)).elim
    · rfl

theorem addObject {w₀ : World} (h : w.Spare w₀.cells.size slots) (hw : w₀.Furnished w) :
    w₀.Furnished (w.addObject { slots }).2 := by
  have hcases {o : Ref .object} {key : String} {c : Ref .cell}
      (hs : (w.addObject { slots }).2.slot? o key = some (.cell c)) :
      w.slot? o key = some (.cell c) ∨ o = w.objects.fresh ∧ slots[key]? = some (.cell c) := by
    simp only [slot?, World.addObject, Store.get_add] at hs
    split at hs
    · exact .inr ⟨‹_›, hs⟩
    · exact .inl hs
  refine ⟨⟨fun hs => ?_, fun h₁ h₂ => ?_⟩, hw.cells, fun hs => ?_⟩
  · obtain hs | ⟨-, hs⟩ := hcases hs
    · exact hw.owns.made hs
    · exact h.made hs
  · obtain hold₁ | ⟨ho₁, hnew₁⟩ := hcases h₁ <;> obtain hold₂ | ⟨ho₂, hnew₂⟩ := hcases h₂
    · exact hw.owns.own hold₁ hold₂
    · exact absurd hold₁ (h.free hnew₂ _ _)
    · exact absurd hold₂ (h.free hnew₁ _ _)
    · exact ⟨ho₂.trans ho₁.symm, h.own hnew₁ hnew₂⟩
  · obtain hs | ⟨-, hs⟩ := hcases hs
    · exact hw.slot hs
    · exact .inr (h.above hs)

end Spare

mutual

theorem observe_furnished : ∀ (d : Document) {w : World}, w.OwnsCells →
    w.Furnished (observe d w).2
  | .null, _, h => .refl h
  | .bool _, _, h => .refl h
  | .number _, _, h => .refl h
  | .string _, _, h => .refl h
  | .array items, w, h => by
    obtain ⟨howns, hcells, hslot⟩ := observeItems_furnished items h
    exact ⟨howns.of_eq rfl rfl, hcells, hslot⟩
  | .object fields, w, h => by
    obtain ⟨hw, hs⟩ := observeFields_furnished fields h (.empty w w.cells.size) (Nat.le_refl _)
    exact hs.addObject hw

theorem observeItems_furnished : ∀ (ds : List Document) {w : World}, w.OwnsCells →
    w.Furnished (observeItems ds w).2
  | [], _, h => .refl h
  | d :: ds, _, h =>
    have hw := observe_furnished d h
    hw.trans (observeItems_furnished ds hw.owns)

theorem observeFields_furnished : ∀ (fields : List (String × Document)) {slots : Keyed Slot}
    {w : World} {b : Nat}, w.OwnsCells → w.Spare b slots → b ≤ w.cells.size →
      w.Furnished (observeFields fields slots w).2 ∧
        (observeFields fields slots w).2.Spare b (observeFields fields slots w).1
  | [], _, _, _, h, hs, _ => ⟨.refl h, hs⟩
  | (key, d) :: fields, slots, w, b, h, hs, hb => by
    have hw := observe_furnished d h
    have hcell : w.Furnished ((observe d w).2.addCell (observe d w).1).2 :=
      hw.trans (.addCell hw.owns _)
    have hspare := (hs.furnished hw).insert hw.owns (Nat.le_trans hb hw.cells) key (observe d w).1
    obtain ⟨hw', hs'⟩ :=
      observeFields_furnished fields hcell.owns hspare (Nat.le_trans hb hcell.cells)
    exact ⟨hcell.trans hw', hs'⟩

end

theorem Glance.ownsCells (h : w.Glance hs w') (hw : w.OwnsCells) : w'.OwnsCells := by
  cases h with
  | register => exact hw.setRegistry _ _
  | observe d => exact (observe_furnished d hw).owns
  | array => exact hw.of_eq rfl rfl
  | computed => exact hw.of_eq rfl rfl

theorem Glances.ownsCells (h : w.Glances hs w') (hw : w.OwnsCells) : w'.OwnsCells :=
  Along.keeps (I := fun _ w => w.OwnsCells) (fun _ _ _ _ => Glance.ownsCells) [] h hw

theorem Makes.ownsCells {watcher : Watcher} {n : Nat} {v : Value} (h : w.Makes watcher n hs v w')
    (hw : w.OwnsCells) : w'.OwnsCells := by
  cases h with
  | intro h _ => exact (Glances.ownsCells h (hw.of_eq rfl rfl)).of_eq rfl rfl

theorem Move.ownsCells (h : w.Move P hs w') (hw : w.OwnsCells) : w'.OwnsCells := by
  cases h with
  | glance h => exact h.ownsCells hw
  | watch _ h => exact (h.ownsCells hw).of_eq rfl rfl
  | hold _ _ h => exact (h.ownsCells hw).of_eq rfl rfl
  | @call w₀ _ r _ new =>
    obtain ⟨ho, hc, -⟩ := startCallback_data (w.remember r new) r (w.watchers.get r).model
      { new, old := (w.watchers.get r).value } (w.watchers.get r).callback
    exact hw.of_eq ho hc
  | store => exact hw.store _ _
  | insert => exact hw.inserted _ _ _
  | define => exact (hw.setComputed _ _ _).of_eq rfl rfl
  | prune => exact hw.setRegistry _ _
  | addCell => exact hw.addCell _
  | _ => exact hw.of_eq rfl rfl

theorem empty_ownsCells : ({} : World).OwnsCells := by
  have hs (o : Ref .object) (key : String) : ({} : World).slot? o key = none := by
    simp [slot?, show ({} : Store .object Object).get o = {} from
      Store.get_of_size_le _ (Nat.zero_le _)]
  exact ⟨fun h => by simp [hs] at h, fun h => by simp [hs] at h⟩

theorem Course.ownsCells (h : w.Course P hs w') (hw : w.OwnsCells) : w'.OwnsCells :=
  Along.keeps (I := fun _ w => w.OwnsCells) (fun _ _ _ _ => Move.ownsCells) [] h hw

/-- In every world that a run reaches, each property has a cell of its own. -/
theorem Past.ownsCells (h : w.Past) : w.OwnsCells := Course.ownsCells h empty_ownsCells

end World

end ViewBinding
