import Mathlib.Data.Finset.Card
import Mathlib.Data.Finset.Range
import ViewBinding.Proofs.Documents.Holds

/-! Data that holds a document is exported as its snapshot. No object is below itself, so the data
is not deeper than there are objects. -/

namespace ViewBinding.World

variable {w : World} {S : Set Location}

theorem mapM_cells (properties : List (String × Slot)) (doc : String → Document)
    (entry : String → Value → Option (String × Document))
    (h : ∀ p ∈ properties, ∃ c, p.2 = .cell c ∧
      entry p.1 (w.cells.get c).value = some (p.1, doc p.1)) :
    ((properties.filterMap fun (key, slot) =>
        match slot with
        | .cell c => some (key, (w.cells.get c).value)
        | .computed _ => none).mapM fun (key, v) => entry key v) =
      some (properties.map fun p => (p.1, doc p.1)) := by
  induction properties with
  | nil => rfl
  | cons p rest ih =>
    obtain ⟨key, slot⟩ := p
    obtain ⟨c, hslot, hentry⟩ := h _ List.mem_cons_self
    have hslot : slot = .cell c := hslot
    subst hslot
    have ih := ih fun p hp => h p (List.mem_cons_of_mem _ hp)
    simp only [List.filterMap_cons, List.mapM_cons, List.map_cons, ih, hentry]
    rfl

theorem snapshotFields_eq {l : Layout} {slots : Keyed Slot} {fields : List (String × Document)}
    (h : l.Fits (fun key => slots[key]?) fields S) : Document.snapshotFields fields ∅ =
      slots.map fun key _ => ((Document.field? fields key).getD .null).snapshot := by
  refine Std.ExtTreeMap.ext_getElem? fun key => ?_
  rw [Document.getElem?_snapshotFields, Std.ExtTreeMap.getElem?_empty, Option.or_none,
    Std.ExtTreeMap.getElem?_map]
  cases hk : Document.field? fields key with
  | none =>
    have hslot : slots[key]? = none := h.missing key hk
    rw [hslot, Option.map_none, Option.map_none]
  | some d =>
    have hslot : slots[key]? = some (.cell (l.cell key)) := h.cell key d hk
    rw [hslot, Option.map_some, Option.map_some, Option.getD_some]

/-- An object that is not above itself may come to those above what is in it, which is one level
further down. -/
theorem level_below {above : Finset Nat} {depth size i : Nat} (hrange : above ⊆ Finset.range size)
    (hcard : above.card + depth = size) (hi : i < size) (hnew : i ∉ above) :
    ∃ depth', depth = depth' + 1 ∧ insert i above ⊆ Finset.range size ∧
      (insert i above).card + depth' = size := by
  cases depth with
  | zero =>
    -- Every object there is would be above this one.
    have hall : above = Finset.range size := by
      refine Finset.eq_of_subset_of_card_le hrange ?_
      rw [Finset.card_range]
      exact Nat.le_of_eq hcard.symm
    rw [hall, Finset.mem_range] at hnew
    exact absurd hi hnew
  | succ depth =>
    refine ⟨depth, rfl, Finset.insert_subset (Finset.mem_range.2 hi) hrange, ?_⟩
    rw [Finset.card_insert_of_notMem hnew, Nat.add_right_comm]
    exact hcard

mutual

/-- `above` are the objects above a value. With each level there is one more of them, and one level
less to go. -/
theorem Holds.exportWith : ∀ {v : Value} {d : Document} {S : Set Location}, w.Holds v d S →
    ∀ (above : Finset Nat) (depth : Nat), above ⊆ Finset.range w.objects.size →
      (∀ o, .object o ∈ S → o.index ∉ above) → above.card + depth = w.objects.size →
        v.exportWith (w.exportWithin depth) = some d.snapshot
  | _, _, _, .null, _, _, _, _, _ => rfl
  | _, _, _, .bool _, _, _, _, _, _ => rfl
  | _, _, _, .number _, _, _, _, _, _ => rfl
  | _, _, _, .string _, _, _, _, _, _ => rfl
  | _, _, _, .array _ h, above, depth, hrange, habove, hcard => by
    rw [Value.exportWith, h.exportItemsWith above depth hrange habove hcard]
    rfl
  | _, _, _, @World.Holds.object _ S T o fields l ho hm hT hn hf hc, above, depth, hrange, habove,
      hcard => by
    have hnew := habove o hm
    obtain ⟨depth, rfl, hrange', habove'⟩ := level_below hrange hcard ho hnew
    have hfield (key : String) (d : Document) (hk : Document.field? fields key = some d) :
        (w.cells.get (l.cell key)).value.exportWith (w.exportWithin depth) = some d.snapshot := by
      have hbelow : l.below key ⊆ T := (Set.subset_insert _ _).trans (hf.sub key d hk)
      refine (hc key d hk).exportWith (insert o.index above) depth hrange' (fun o' ho' => ?_)
        habove'
      rw [Finset.mem_insert, not_or]
      refine ⟨fun e => ?_, habove o' (hT (hbelow ho'))⟩
      obtain rfl : o' = o := congrArg Ref.mk e
      exact hn (hbelow ho')
    have hcells : ∀ p ∈ (w.objects.get o).slots.toList, ∃ c, p.2 = .cell c ∧
        ((w.cells.get c).value.exportWith (w.exportWithin depth)).map (p.1, ·) =
          some (p.1, ((Document.field? fields p.1).getD .null).snapshot) := by
      rintro ⟨key, slot⟩ hp
      have hslot : w.slot? o key = some slot :=
        Std.ExtTreeMap.mem_toList_iff_getElem?_eq_some.1 hp
      cases hk : Document.field? fields key with
      | none => exact nomatch hslot.symm.trans (hf.missing key hk)
      | some d =>
        refine ⟨l.cell key, Option.some.inj (hslot.symm.trans (hf.cell key d hk)), ?_⟩
        rw [hfield key d hk]
        rfl
    have hmap := mapM_cells (w.objects.get o).slots.toList
      (fun key => ((Document.field? fields key).getD .null).snapshot)
      (fun key v => (v.exportWith (w.exportWithin depth)).map (key, ·)) hcells
    rw [Document.snapshot, snapshotFields_eq hf, Std.ExtTreeMap.toList_map]
    exact congrArg (Option.map Document.object) hmap

theorem HoldsAll.exportItemsWith : ∀ {vs : List Value} {ds : List Document} {S : Set Location},
    w.HoldsAll vs ds S → ∀ (above : Finset Nat) (depth : Nat),
      above ⊆ Finset.range w.objects.size → (∀ o, .object o ∈ S → o.index ∉ above) →
        above.card + depth = w.objects.size →
          Value.exportItemsWith (w.exportWithin depth) vs = some (Document.snapshots ds)
  | _, _, _, .nil, _, _, _, _, _ => rfl
  | _, _, _, .cons h hs, above, depth, hrange, habove, hcard => by
    rw [Value.exportItemsWith, h.exportWith above depth hrange habove hcard]
    have hrest := hs.exportItemsWith above depth hrange habove hcard
    rw [hrest]
    rfl

end

theorem Holds.exportValue? {v : Value} {d : Document} (h : w.Holds v d S) :
    w.exportValue? v = some d.snapshot :=
  h.exportWith ∅ w.objects.size (Finset.empty_subset _) (fun _ _ => Finset.notMem_empty _)
    (by rw [Finset.card_empty, Nat.zero_add])

end ViewBinding.World
