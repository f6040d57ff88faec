import ViewBinding.Proofs.Documents.Exports
import ViewBinding.Proofs.Documents.Paths
import ViewBinding.Proofs.Snapshots.Renumbered

/-! Data as the document that it unfolds to. An object that is in several places is unfolded in each
of them, so the data may share what the document has copies of. -/

namespace ViewBinding

mutual

inductive World.Depicts (w : World) : Value → Document → Prop
  | null : Depicts w .null .null
  | bool (b : Bool) : Depicts w (.bool b) (.bool b)
  | number {x : Float} {n : Numeral} :
      Document.ofFloat x = .number n → Depicts w (.number x) (.number n)
  | string (s : String) : Depicts w (.string s) (.string s)
  | array (a : Ref .array) {vs : List Value} {ds : List Document} :
      DepictsAll w vs ds → Depicts w (.array a vs) (.array ds)
  | object {o : Ref .object} (cell : String → Ref .cell) (doc : String → Document) :
      o.index < w.objects.size →
      (∀ key slot, w.slot? o key = some slot →
        slot = .cell (cell key) ∧ (cell key).index < w.cells.size) →
      (∀ key slot, w.slot? o key = some slot →
        Depicts w (w.cells.get (cell key)).value (doc key)) →
      Depicts w (.object o) (.object ((w.objects.get o).slots.map fun key _ => doc key).toList)

inductive World.DepictsAll (w : World) : List Value → List Document → Prop
  | nil : DepictsAll w [] []
  | cons {v : Value} {d : Document} {vs : List Value} {ds : List Document} :
      Depicts w v d → DepictsAll w vs ds → DepictsAll w (v :: vs) (d :: ds)

end

namespace World

variable {w w' : World} {v : Value} {d d' : Document} {o : Ref .object}

mutual

theorem Depicts.unique : ∀ {v : Value} {d d' : Document}, w.Depicts v d → w.Depicts v d' → d = d'
  | _, _, _, .null, .null => rfl
  | _, _, _, .bool _, .bool _ => rfl
  | _, _, _, .number h, .number h' => h.symm.trans h'
  | _, _, _, .string _, .string _ => rfl
  | _, _, _, .array _ h, .array _ h' => congrArg Document.array (h.unique h')
  | _, _, _, @Depicts.object _ o cell doc _ hs hd, @Depicts.object _ _ cell' doc' _ hs' hd' => by
    have hdoc (key : String) (slot : Slot) (hk : w.slot? o key = some slot) :
        doc key = doc' key := by
      have hc := (hs key slot hk).1.symm.trans (hs' key slot hk).1
      have hvalue := hd' key slot hk
      rw [← Slot.cell.inj hc] at hvalue
      exact (hd key slot hk).unique hvalue
    have htable : (w.objects.get o).slots.map (fun key _ => doc key) =
        (w.objects.get o).slots.map fun key _ => doc' key := by
      refine Std.ExtTreeMap.ext_getElem? fun key => ?_
      rw [Std.ExtTreeMap.getElem?_map, Std.ExtTreeMap.getElem?_map]
      cases hk : (w.objects.get o).slots[key]? with
      | none => rfl
      | some slot => rw [Option.map_some, Option.map_some, hdoc key slot hk]
    rw [htable]

theorem DepictsAll.unique : ∀ {vs : List Value} {ds ds' : List Document},
    w.DepictsAll vs ds → w.DepictsAll vs ds' → ds = ds'
  | _, _, _, .nil, .nil => rfl
  | _, _, _, .cons h hs, .cons h' hs' => by rw [h.unique h', hs.unique hs']

end

mutual

theorem Depicts.snapshot : ∀ {v : Value} {d : Document}, w.Depicts v d → d.snapshot = d
  | _, _, .null => rfl
  | _, _, .bool _ => rfl
  | _, _, .number h => Document.ofFloat_exported h
  | _, _, .string _ => rfl
  | _, _, .array _ h => congrArg Document.array h.snapshots
  | _, _, @Depicts.object _ o cell doc _ hs hd => by
    have hdoc := fun key slot hk => (hd key slot hk).snapshot
    have htable : ∀ (key : String) (d : Document),
        ((w.objects.get o).slots.map fun key _ => doc key)[key]? = some d → d.snapshot = d := by
      intro key d hk
      rw [Std.ExtTreeMap.getElem?_map, Option.map_eq_some_iff] at hk
      obtain ⟨slot, hslot, rfl⟩ := hk
      exact hdoc key slot hslot
    rw [Document.snapshot, Document.snapshotFields_toList htable]

theorem DepictsAll.snapshots : ∀ {vs : List Value} {ds : List Document},
    w.DepictsAll vs ds → Document.snapshots ds = ds
  | _, _, .nil => rfl
  | _, _, .cons h hs => by rw [Document.snapshots, h.snapshot, hs.snapshots]

end

mutual

theorem Depicts.frame (ho : w.objects.size ≤ w'.objects.size)
    (hobject : ∀ o, o.index < w.objects.size → w'.objects.get o = w.objects.get o)
    (hc : w.cells.size ≤ w'.cells.size)
    (hcell : ∀ c, c.index < w.cells.size → (w'.cells.get c).value = (w.cells.get c).value) :
    ∀ {v : Value} {d : Document}, w.Depicts v d → w'.Depicts v d
  | _, _, .null => .null
  | _, _, .bool b => .bool b
  | _, _, .number h => .number h
  | _, _, .string s => .string s
  | _, _, .array a h => .array a (h.frame ho hobject hc hcell)
  | _, _, @Depicts.object _ o cell doc hm hs hd => by
    have hdoc := fun key slot hk => (hd key slot hk).frame ho hobject hc hcell
    have hsame := hobject o hm
    rw [← hsame]
    have hslots : w'.slot? o = w.slot? o := by
      funext key
      rw [slot?, slot?, hsame]
    refine .object cell doc (Nat.lt_of_lt_of_le hm ho) (fun key slot hk => ?_)
      fun key slot hk => ?_
    · rw [hslots] at hk
      obtain ⟨he, hlt⟩ := hs key slot hk
      exact ⟨he, Nat.lt_of_lt_of_le hlt hc⟩
    · rw [hslots] at hk
      rw [hcell _ (hs key slot hk).2]
      exact hdoc key slot hk

theorem DepictsAll.frame (ho : w.objects.size ≤ w'.objects.size)
    (hobject : ∀ o, o.index < w.objects.size → w'.objects.get o = w.objects.get o)
    (hc : w.cells.size ≤ w'.cells.size)
    (hcell : ∀ c, c.index < w.cells.size → (w'.cells.get c).value = (w.cells.get c).value) :
    ∀ {vs : List Value} {ds : List Document}, w.DepictsAll vs ds → w'.DepictsAll vs ds
  | _, _, .nil => .nil
  | _, _, .cons h hs =>
    .cons (h.frame ho hobject hc hcell) (hs.frame ho hobject hc hcell)

end

theorem field?_depicts (o : Ref .object) (doc : String → Document) (key : String) :
    Document.field? ((w.objects.get o).slots.map fun key _ => doc key).toList key =
      (w.slot? o key).map fun _ => doc key := by
  rw [Document.field?_toList, Std.ExtTreeMap.getElem?_map, slot?]

theorem sizeOf_field {fields : List (String × Document)} {key : String}
    (h : Document.field? fields key = some d) : sizeOf d < sizeOf (Document.object fields) := by
  have hmem := List.sizeOf_lt_of_mem (Document.mem_of_field? h)
  simp only [Prod.mk.sizeOf_spec, Document.object.sizeOf_spec] at hmem ⊢
  omega

mutual

theorem Depicts.exportWith : ∀ {v : Value} {d : Document}, w.Depicts v d →
    ∀ (above : Finset Nat) (depth : Nat), above ⊆ Finset.range w.objects.size →
      (∀ o : Ref .object, o.index ∈ above → ∃ d', w.Depicts (.object o) d' ∧ sizeOf d < sizeOf d') →
      above.card + depth = w.objects.size → v.exportWith (w.exportWithin depth) = some d
  | _, _, .null, _, _, _, _, _ => rfl
  | _, _, .bool _, _, _, _, _, _ => rfl
  | _, _, .number h, _, _, _, _, _ => congrArg some h
  | _, _, .string _, _, _, _, _, _ => rfl
  | _, _, .array _ h, above, depth, hrange, habove, hcard => by
    rw [Value.exportWith, h.exportItemsWith above depth hrange (fun o ho => ?_) hcard]
    · rfl
    · obtain ⟨d', hd', hlt⟩ := habove o ho
      refine ⟨d', hd', Nat.le_of_lt (Nat.lt_of_le_of_lt ?_ hlt)⟩
      simp only [Document.array.sizeOf_spec]
      omega
  | _, _, @Depicts.object _ o cell doc ho hs hd, above, depth, hrange, habove, hcard => by
    have hself : w.Depicts (.object o) _ := .object cell doc ho hs hd
    have hnew : o.index ∉ above := by
      intro hmem
      obtain ⟨d', hd', hlt⟩ := habove o hmem
      rw [hself.unique hd'] at hlt
      exact Nat.lt_irrefl _ hlt
    obtain ⟨depth, rfl, hrange', hcard'⟩ := level_below hrange hcard ho hnew
    have hfield (key : String) (slot : Slot) (hk : w.slot? o key = some slot) :
        (w.cells.get (cell key)).value.exportWith (w.exportWithin depth) = some (doc key) := by
      have hsize : sizeOf (doc key) < sizeOf
          (Document.object ((w.objects.get o).slots.map fun key _ => doc key).toList) := by
        apply sizeOf_field
        rw [field?_depicts, hk, Option.map_some]
      refine (hd key slot hk).exportWith (insert o.index above) depth hrange' (fun o' ho' => ?_)
        hcard'
      rcases Finset.mem_insert.1 ho' with he | hmem
      · obtain rfl : o' = o := congrArg Ref.mk he
        exact ⟨_, hself, hsize⟩
      · obtain ⟨d', hd', hlt⟩ := habove o' hmem
        exact ⟨d', hd', Nat.lt_trans hsize hlt⟩
    have hcells : ∀ p ∈ (w.objects.get o).slots.toList, ∃ c, p.2 = .cell c ∧
        ((w.cells.get c).value.exportWith (w.exportWithin depth)).map (p.1, ·) =
          some (p.1, doc p.1) := by
      rintro ⟨key, slot⟩ hp
      have hslot : w.slot? o key = some slot :=
        Std.ExtTreeMap.mem_toList_iff_getElem?_eq_some.1 hp
      refine ⟨cell key, (hs key slot hslot).1, ?_⟩
      rw [hfield key slot hslot]
      rfl
    have hmap := mapM_cells (w.objects.get o).slots.toList doc
      (fun key v => (v.exportWith (w.exportWithin depth)).map (key, ·)) hcells
    rw [Std.ExtTreeMap.toList_map]
    exact congrArg (Option.map Document.object) hmap

theorem DepictsAll.exportItemsWith : ∀ {vs : List Value} {ds : List Document},
    w.DepictsAll vs ds → ∀ (above : Finset Nat) (depth : Nat),
      above ⊆ Finset.range w.objects.size →
      (∀ o : Ref .object, o.index ∈ above →
        ∃ d', w.Depicts (.object o) d' ∧ sizeOf ds ≤ sizeOf d') →
      above.card + depth = w.objects.size →
        Value.exportItemsWith (w.exportWithin depth) vs = some ds
  | _, _, .nil, _, _, _, _, _ => rfl
  | _, _, .cons h hs, above, depth, hrange, habove, hcard => by
    have hfirst := h.exportWith above depth hrange (fun o ho => by
      obtain ⟨d', hd', hle⟩ := habove o ho
      refine ⟨d', hd', Nat.lt_of_lt_of_le ?_ hle⟩
      simp only [List.cons.sizeOf_spec]
      omega) hcard
    have hrest := hs.exportItemsWith above depth hrange (fun o ho => by
      obtain ⟨d', hd', hle⟩ := habove o ho
      refine ⟨d', hd', Nat.le_trans ?_ hle⟩
      simp only [List.cons.sizeOf_spec]
      omega) hcard
    rw [Value.exportItemsWith, hfirst, hrest]
    rfl

end

theorem Depicts.exportValue? (h : w.Depicts v d) : w.exportValue? v = some d :=
  h.exportWith ∅ w.objects.size (Finset.empty_subset _)
    (fun _ hmem => absurd hmem (Finset.notMem_empty _)) (by rw [Finset.card_empty, Nat.zero_add])

theorem Depicts.sort (h : w.Depicts v d) : v.sort = d.sort := by
  cases h <;> rfl

theorem plainOn_depicts (w : World) : w.sight.PlainOn fun o => ∃ d, w.Depicts (.object o) d := by
  rintro o ⟨d, h⟩ key
  cases h with
  | object cell doc _ hs hd =>
    cases hk : w.slot? o key with
    | none => exact .inl hk
    | some slot =>
      obtain ⟨rfl, -⟩ := hs key slot hk
      exact .inr ⟨cell key, hk, fun o' ho' => ⟨doc key, ho' ▸ hd key _ hk⟩⟩

/-- What a path leads to in data and in the document that it unfolds to: the same fault, or a value
that unfolds to what there is in the document. -/
inductive Leads (w : World) : Except Fault Value → Except Fault Document → Prop
  | error (f : Fault) : Leads w (.error f) (.error f)
  | ok {v : Value} {d : Document} : w.Depicts v d → Leads w (.ok v) (.ok d)

theorem Depicts.follow (h : w.Depicts v d) (p : Path) (segments : List String) :
    w.Leads (w.sight.follow p segments v) (d.follow p segments) := by
  induction segments generalizing v d with
  | nil => exact .ok h
  | cons segment rest ih =>
    cases hv : v.object? with
    | none =>
      have hd : d.follow p (segment :: rest) = .error (.notAnObject p.text segment d.sort) := by
        cases h <;> first | rfl | cases hv
      rw [hd, Sight.follow, p.owner_of_object?_eq_none segment hv, h.sort]
      exact .error _
    | some o =>
      obtain rfl := Value.eq_object hv
      cases h with
      | object cell doc _ hs hd =>
        -- A property that is not there is null in the data and in the document.
        have hfield : w.Depicts (w.sight.field o segment) ((Document.field?
            ((w.objects.get o).slots.map fun key _ => doc key).toList segment).getD .null) := by
          rw [field?_depicts]
          cases hk : w.slot? o segment with
          | none =>
            rw [Sight.field, show w.sight.slot? o segment = none from hk]
            exact .null
          | some slot =>
            have hvalue := hd segment slot hk
            obtain ⟨rfl, -⟩ := hs segment slot hk
            rw [Sight.field, show w.sight.slot? o segment = some (.cell (cell segment)) from hk]
            exact hvalue
        exact ih hfield

end World

end ViewBinding
