import ViewBinding.Proofs.Documents.Holds

/-! The data of a document holds it, all in new places. -/

namespace ViewBinding.World

variable {w w' w'' : World}

theorem Leaves.of_grown (h : w.Grown w') (ha : w.nextArray.index ≤ w'.nextArray.index)
    {S : Set Location} (hS : ∀ l ∈ S, l.Within w) : w.Leaves w' S := by
  refine ⟨h.objects, h.cells, ha, fun l hl => ?_⟩
  have hw := hS l hl
  cases l with
  | object o =>
    intro key
    rw [slot?, slot?, h.object o hw]
  | cell c => exact congrArg Cell.value (h.cell c hw)
  | array a => trivial

theorem fresh_mono {S S' : Set Location} (h : w.Leaves w' S) (h' : w'.Leaves w'' S') :
    Location.fresh w w' ∪ Location.fresh w' w'' ⊆ Location.fresh w w'' := by
  rintro l (⟨hn, hl⟩ | ⟨hn, hl⟩)
  · exact ⟨hn, h'.within hl⟩
  · exact ⟨fun hl' => hn (h.within hl'), hl⟩

theorem addCell_leaves (w : World) (v : Value) {S : Set Location} (hS : ∀ l ∈ S, l.Within w) :
    w.Leaves (w.addCell v).2 S := by
  refine ⟨Nat.le_refl _, ?_, Nat.le_refl _, fun l hl => ?_⟩
  · rw [addCell, Store.size_add]
    exact Nat.le_succ _
  · have hw := hS l hl
    cases l with
    | object o => exact fun key => rfl
    | cell c => exact congrArg Cell.value (w.cells.get_add_of_lt _ hw)
    | array a => trivial

theorem addObject_leaves (w : World) (o : Object) {S : Set Location}
    (hS : ∀ l ∈ S, l.Within w) : w.Leaves (w.addObject o).2 S := by
  refine ⟨?_, Nat.le_refl _, Nat.le_refl _, fun l hl => ?_⟩
  · rw [addObject, Store.size_add]
    exact Nat.le_succ _
  · have hw := hS l hl
    cases l with
    | object o' =>
      intro key
      rw [slot?, slot?, addObject, Store.get_add_of_lt _ _ hw]
    | cell c => rfl
    | array a => trivial

theorem fresh_cell (w : World) (v : Value) :
    .cell w.cells.fresh ∈ Location.fresh w (w.addCell v).2 := by
  refine ⟨Nat.lt_irrefl _, ?_⟩
  show _ < (w.cells.add _).size
  rw [Store.size_add]
  exact Nat.lt_succ_self _

theorem value_fresh_cell (w : World) (v : Value) :
    ((w.addCell v).2.cells.get w.cells.fresh).value = v := by
  rw [addCell, Store.get_add, if_pos rfl]

mutual

theorem observe_arrays : ∀ (d : Document) (w : World),
    w.nextArray.index ≤ (observe d w).2.nextArray.index
  | .null, _ => Nat.le_refl _
  | .bool _, _ => Nat.le_refl _
  | .number _, _ => Nat.le_refl _
  | .string _, _ => Nat.le_refl _
  | .array items, w => Nat.le_succ_of_le (observeItems_arrays items w)
  | .object fields, w => observeFields_arrays fields ∅ w

theorem observeItems_arrays : ∀ (ds : List Document) (w : World),
    w.nextArray.index ≤ (observeItems ds w).2.nextArray.index
  | [], _ => Nat.le_refl _
  | d :: ds, w => Nat.le_trans (observe_arrays d w) (observeItems_arrays ds _)

theorem observeFields_arrays : ∀ (fields : List (String × Document)) (slots : Keyed Slot)
    (w : World), w.nextArray.index ≤ (observeFields fields slots w).2.nextArray.index
  | [], _, _ => Nat.le_refl _
  | (key, d) :: fields, slots, w =>
    Nat.le_trans (observe_arrays d w) (observeFields_arrays fields
      (slots.insert key (.cell (observe d w).2.cells.fresh))
      ((observe d w).2.addCell (observe d w).1).2)

end

theorem observe_leaves (d : Document) (w : World) {S : Set Location} (hS : ∀ l ∈ S, l.Within w) :
    w.Leaves (observe d w).2 S := .of_grown (observe_grown d w).1 (observe_arrays d w) hS

theorem observeItems_leaves (ds : List Document) (w : World) {S : Set Location}
    (hS : ∀ l ∈ S, l.Within w) : w.Leaves (observeItems ds w).2 S :=
  .of_grown (observeItems_grown ds w) (observeItems_arrays ds w) hS

structure Gathers (w : World) (slots : Keyed Slot) (done : List (String × Document)) (l : Layout)
    (S : Set Location) : Prop where
  within : ∀ x ∈ S, Location.Within w x
  fits : l.Fits (fun key => slots[key]?) done S
  holds : ∀ key d, Document.field? done key = some d →
    w.Holds (w.cells.get (l.cell key)).value d (l.below key)

theorem Gathers.nil (w : World) (l : Layout) : w.Gathers ∅ [] l ∅ where
  within _ h := absurd h (Set.notMem_empty _)
  fits := ⟨fun _ _ => Std.ExtTreeMap.getElem?_empty, fun _ _ h => (nomatch h),
    fun _ _ h => (nomatch h), fun _ _ h => (nomatch h), fun _ _ _ _ h => (nomatch h)⟩
  holds _ _ h := nomatch h

theorem Gathers.put {slots : Keyed Slot} {done : List (String × Document)} {l : Layout}
    {S : Set Location} (h : w.Gathers slots done l S) (key : String) {d : Document} {v : Value}
    (hw : w.Leaves w' S) (hv : w'.Holds v d (Location.fresh w w')) :
    (w'.addCell v).2.Gathers (slots.insert key (.cell w'.cells.fresh)) (done ++ [(key, d)])
      (l.put key w'.cells.fresh (Location.fresh w w'))
      (S ∪ Location.fresh w (w'.addCell v).2) := by
  have hcell : w'.Leaves (w'.addCell v).2 (Location.fresh w w') :=
    addCell_leaves w' v fun x hx => hx.2
  -- The fields gathered before are older than the cell of this one.
  have hold : w.Leaves (w'.addCell v).2 S :=
    hw.trans (addCell_leaves w' v fun x hx => hw.within (h.within x hx))
  have hnew : insert (.cell w'.cells.fresh) (Location.fresh w w') ⊆
      Location.fresh w (w'.addCell v).2 := by
    have hsub := fresh_mono hw hcell
    intro x hx
    rcases Set.mem_insert_iff.1 hx with rfl | hx
    · exact hsub (.inr (fresh_cell w' v))
    · exact hsub (.inl hx)
  have hplace (key' : String) (d' : Document) (hk : Document.field? done key' = some d') :
      l.place key' ⊆ S := h.fits.sub key' d' hk
  refine ⟨?_, ?_, ?_⟩
  · rintro x (hx | hx)
    · exact hold.within (h.within x hx)
    · exact hx.2
  · refine h.fits.put d (fun hc => Nat.lt_irrefl _ hc.2) (hnew.trans Set.subset_union_right)
      Set.subset_union_left (fun key' d' _ hk => ?_) ?_ fun key' hne => ?_
    · -- All that was made before is within the first world, and none of the new places is.
      rw [Set.disjoint_left]
      intro x hx hx'
      exact (hnew hx).1 (h.within x (hplace key' d' hk hx'))
    · exact Std.ExtTreeMap.getElem?_insert_self
    · rw [Std.ExtTreeMap.getElem?_insert, if_neg]
      exact fun e => hne (Std.LawfulEqCmp.eq_of_compare e).symm
  · refine holds_put (fun key' d' _ hk => ?_) ?_
    · exact (h.holds key' d' hk).frame_cell (hold.mono (hplace key' d' hk))
    · rw [value_fresh_cell]
      exact hv.frame hcell

mutual

/-- The data of a document holds it. -/
theorem observe_holds : ∀ (d : Document) (w : World),
    (observe d w).2.Holds (observe d w).1 d (Location.fresh w (observe d w).2)
  | .null, _ => .null
  | .bool b, _ => .bool b
  | .number n, _ => .number n
  | .string s, _ => .string s
  | .array items, w => by
    have hitems := observeItems_holds items w
    have hw : (observeItems items w).2.Leaves (observe (.array items) w).2
        (Location.fresh w (observeItems items w).2) :=
      .of_eq rfl rfl (Nat.le_succ _)
    have ha : .array (observeItems items w).2.nextArray ∈
        Location.fresh w (observe (.array items) w).2 :=
      ⟨Nat.not_lt.2 (observeItems_arrays items w), Nat.lt_succ_self _⟩
    refine .array ha ((hitems.frame hw).mono fun l hl => ⟨hl.1, hw.within hl.2⟩)
  | .object fields, w => by
    obtain ⟨l, T, hT, hw, hg⟩ :=
      observeFields_gathers fields w (.nil w ⟨fun _ => default, fun _ => ∅⟩)
    let w' := (observeFields fields ∅ w).2
    let o : Object := { slots := (observeFields fields ∅ w).1 }
    have hadd : w'.Leaves (w'.addObject o).2 T := addObject_leaves w' o hg.within
    have hfresh : Location.fresh w w' ∪ Location.fresh w' (w'.addObject o).2 ⊆
      Location.fresh w (w'.addObject o).2 := fresh_mono hw hadd
    have hsize : w'.objects.fresh.index < (w'.addObject o).2.objects.size := by
      rw [addObject, Store.size_add]
      exact Nat.lt_succ_self _
    have ho : .object w'.objects.fresh ∈ Location.fresh w (w'.addObject o).2 :=
      hfresh (.inr ⟨Nat.lt_irrefl _, hsize⟩)
    have hslots : (w'.addObject o).2.slot? w'.objects.fresh = fun key => o.slots[key]? := by
      funext key
      rw [slot?, addObject, Store.get_add, if_pos rfl]
    refine .object l hsize ho ?_ (fun h => Nat.lt_irrefl _ (hg.within _ h)) (hslots ▸ hg.fits)
      fun key d hk => ?_
    · rw [Set.empty_union] at hT
      exact hT.trans (Set.subset_union_left.trans hfresh)
    · exact (hg.holds key d hk).frame_cell (hadd.mono (hg.fits.sub key d hk))

theorem observeItems_holds : ∀ (ds : List Document) (w : World),
    (observeItems ds w).2.HoldsAll (observeItems ds w).1 ds
      (Location.fresh w (observeItems ds w).2)
  | [], _ => .nil
  | d :: ds, w => by
    have hw : w.Leaves (observe d w).2 ∅ :=
      observe_leaves d w fun _ h => absurd h (Set.notMem_empty _)
    have hw' : (observe d w).2.Leaves (observeItems ds (observe d w).2).2
        (Location.fresh w (observe d w).2) := observeItems_leaves ds _ fun l hl => hl.2
    have hsub := fresh_mono hw hw'
    refine .cons (Holds.mono ((observe_holds d w).frame hw') ?_)
      ((observeItems_holds ds (observe d w).2).mono ?_)
    · exact Set.subset_union_left.trans hsub
    · exact Set.subset_union_right.trans hsub

theorem observeFields_gathers : ∀ (fields : List (String × Document)) {slots : Keyed Slot}
    (w : World) {done : List (String × Document)} {l : Layout} {S : Set Location},
    w.Gathers slots done l S → ∃ l' T, T ⊆ S ∪ Location.fresh w (observeFields fields slots w).2 ∧
      w.Leaves (observeFields fields slots w).2 S ∧
      (observeFields fields slots w).2.Gathers (observeFields fields slots w).1
        (done ++ fields) l' T
  | [], slots, w, done, l, S, h =>
    ⟨l, S, Set.subset_union_left, .refl w S, by rwa [List.append_nil]⟩
  | (key, d) :: fields, slots, w, done, l, S, h => by
    have hw := observe_leaves d w h.within
    -- What was gathered so far is untouched by the next field, which is made in new places.
    have hput := h.put key hw (observe_holds d w)
    obtain ⟨l', T, hT, hw', hg⟩ := observeFields_gathers fields _ hput
    have hcell : (observe d w).2.Leaves ((observe d w).2.addCell (observe d w).1).2 S :=
      addCell_leaves _ _ fun x hx => hw.within (h.within x hx)
    have hsub := fresh_mono (hw.trans hcell) hw'
    refine ⟨l', T, ?_, (hw.trans hcell).trans (hw'.mono Set.subset_union_left), ?_⟩
    · rw [Set.union_assoc] at hT
      exact hT.trans (Set.union_subset_union_right S hsub)
    · rw [List.append_assoc] at hg
      exact hg

end

end ViewBinding.World
