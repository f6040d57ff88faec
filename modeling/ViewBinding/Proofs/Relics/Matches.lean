import ViewBinding.Proofs.Relics.Spared

/-! Two worlds that are alike, but for computed properties of view-models that are gone, and for
what else was made at a time that nobody has come upon since. -/

namespace ViewBinding

variable {b d v u : World} {relics : Prop} {source : Source} {s : Subscriber}

def Value.Apart (b d : World) (v : Value) : Prop :=
  ∀ o, v.object? = some o → ¬o.Between b.objects.size d.objects.size

theorem Value.apart_of_object? {x : Value} (h : x.object? = none) : x.Apart b d :=
  fun _ ho => by simp [h] at ho

theorem Value.Within.apart {x : Value} (h : x.Within b.objects.size) : x.Apart b d :=
  fun o ho => Ref.not_between_of_lt (h o ho)

def Slot.AllApart (b d : World) (slots : Keyed Slot) : Prop :=
  ∀ (key : String) c, slots[key]? = some (.cell c) → ¬c.Between b.cells.size d.cells.size

/-- Whether two worlds that come from one moment `b` are alike, if in the first of them something
was made until another moment `d` for which the second has only kept the identities free. If there
are relics, the first may have computed properties of view-models that are gone. -/
structure World.Matches (b d : World) (relics : Prop) (v u : World) : Prop where
  objects : v.objects.size = u.objects.size ∧ d.objects.size ≤ u.objects.size
  cells : v.cells.size = u.cells.size ∧ d.cells.size ≤ u.cells.size
  registries : v.registries.size = u.registries.size
  nextArray : v.nextArray = u.nextArray
  names : v.names = b.names ∧ u.names = b.names
  modelsInUse : v.modelsInUse = b.modelsInUse ∧ u.modelsInUse = b.modelsInUse
  root : ∀ m, m.index < b.models.size →
    (v.models.get m).data = (b.models.get m).data ∧ (u.models.get m).data = (b.models.get m).data
  slot : ∀ o key, ¬o.Between b.objects.size d.objects.size → v.slot? o key = u.slot? o key ∨
    relics ∧ ∃ p, v.slot? o key = some (.computed p) ∧ b.modelAlive p.model = false
  value : ∀ c, ¬c.Between b.cells.size d.cells.size →
    (v.cells.get c).value = (u.cells.get c).value
  slotApart : ∀ o key c, ¬o.Between b.objects.size d.objects.size →
    u.slot? o key = some (.cell c) → ¬c.Between b.cells.size d.cells.size
  valueApart : ∀ c, ¬c.Between b.cells.size d.cells.size → (u.cells.get c).value.Apart b d
  members : ∀ (source : Source) s, ¬s.Between b d →
    (s ∈ (v.registry source).members ↔ s ∈ (u.registry source).members)
  order : ∀ source, (v.registry source).order.filter (¬·.Between b d) =
    (u.registry source).order.filter (¬·.Between b d)
  alive : ∀ s, v.alive s = u.alive s ∧ (s.Between b d → u.alive s = false)

namespace World.Matches

theorem modelAlive (h : b.Matches d relics v u) (m : Ref .model) :
    v.modelAlive m = b.modelAlive m ∧ u.modelAlive m = b.modelAlive m := by
  simp only [World.modelAlive, h.names.1, h.names.2, h.modelsInUse.1, h.modelsInUse.2, and_self]

theorem tell (h : b.Matches d relics v u) (x : Happening) :
    b.Matches d relics (v.tell x) (u.tell x) :=
  { h with }

theorem addArray (h : b.Matches d relics v u) (items : List Value) :
    (v.addArray items).1 = (u.addArray items).1 ∧
      b.Matches d relics (v.addArray items).2 (u.addArray items).2 :=
  ⟨congrArg (Value.array · items) h.nextArray,
    { h with nextArray := congrArg (fun r : Ref .array => Ref.mk (r.index + 1)) h.nextArray }⟩

theorem addCell (h : b.Matches d relics v u) {x : Value} (hx : x.Apart b d) :
    (v.addCell x).1 = (u.addCell x).1 ∧ b.Matches d relics (v.addCell x).2 (u.addCell x).2 := by
  have hfresh : v.cells.fresh = u.cells.fresh := congrArg Ref.mk h.cells.1
  refine ⟨hfresh, { h with
    cells := ?_, value := fun c hc => ?_, valueApart := fun c hc => ?_
    members := fun source s hs => ?_, order := fun source => ?_ }⟩
  · simp only [World.addCell, Store.size_add]
    exact ⟨congrArg (· + 1) h.cells.1, Nat.le_succ_of_le h.cells.2⟩
  · simp only [World.addCell, Store.get_add, hfresh]
    split
    · rfl
    · exact h.value c hc
  · simp only [World.addCell, Store.get_add]
    split
    · exact hx
    · exact h.valueApart c hc
  · rw [registry_addCell, registry_addCell]
    exact h.members source s hs
  · rw [registry_addCell, registry_addCell]
    exact h.order source

theorem addObject (h : b.Matches d relics v u) {slots : Keyed Slot} (hs : Slot.AllApart b d slots) :
    (v.addObject { slots }).1 = (u.addObject { slots }).1 ∧
      b.Matches d relics (v.addObject { slots }).2 (u.addObject { slots }).2 := by
  have hfresh : v.objects.fresh = u.objects.fresh := congrArg Ref.mk h.objects.1
  refine ⟨hfresh, { h with
    objects := ?_, slot := fun o key ho => ?_, slotApart := fun o key c ho hc => ?_
    members := fun source s hs => ?_, order := fun source => ?_ }⟩
  · simp only [World.addObject, Store.size_add]
    exact ⟨congrArg (· + 1) h.objects.1, Nat.le_succ_of_le h.objects.2⟩
  · simp only [World.slot?, World.addObject, Store.get_add, hfresh]
    split
    · exact .inl rfl
    · exact h.slot o key ho
  · simp only [World.slot?, World.addObject, Store.get_add] at hc
    split at hc
    · exact hs key c hc
    · exact h.slotApart o key c ho hc
  · rw [registry_addObject, registry_addObject]
    exact h.members source s hs
  · rw [registry_addObject, registry_addObject]
    exact h.order source

mutual

theorem observe : ∀ (doc : Document) {v u : World}, b.Matches d relics v u →
    (World.observe doc v).1 = (World.observe doc u).1 ∧
      b.Matches d relics (World.observe doc v).2 (World.observe doc u).2 ∧
      (World.observe doc u).1.Apart b d
  | .null, _, _, h => ⟨rfl, h, Value.apart_of_object? rfl⟩
  | .bool _, _, _, h => ⟨rfl, h, Value.apart_of_object? rfl⟩
  | .number _, _, _, h => ⟨rfl, h, Value.apart_of_object? rfl⟩
  | .string _, _, _, h => ⟨rfl, h, Value.apart_of_object? rfl⟩
  | .array items, _, _, h => by
    obtain ⟨hitems, h'⟩ := observeItems items h
    simp only [World.observe, hitems]
    exact ⟨(h'.addArray _).1, (h'.addArray _).2, Value.apart_of_object? rfl⟩
  | .object fields, _, _, h => by
    have hnone : Slot.AllApart b d ∅ := fun key c hc => by simp at hc
    obtain ⟨hslots, h', hs⟩ := observeFields fields hnone h
    simp only [World.observe, hslots]
    obtain ⟨ho, h''⟩ := h'.addObject hs
    refine ⟨congrArg Value.object ho, h'', fun o ho => ?_⟩
    cases ho
    exact Ref.not_between_of_le h'.objects.2

theorem observeItems : ∀ (docs : List Document) {v u : World}, b.Matches d relics v u →
    (World.observeItems docs v).1 = (World.observeItems docs u).1 ∧
      b.Matches d relics (World.observeItems docs v).2 (World.observeItems docs u).2
  | [], _, _, h => ⟨rfl, h⟩
  | doc :: docs, _, _, h => by
    obtain ⟨hx, h', -⟩ := observe doc h
    obtain ⟨hxs, h''⟩ := observeItems docs h'
    simp only [World.observeItems, hx, hxs]
    exact ⟨trivial, h''⟩

theorem observeFields : ∀ (fields : List (String × Document)) {slots : Keyed Slot},
    Slot.AllApart b d slots → ∀ {v u : World}, b.Matches d relics v u →
      (World.observeFields fields slots v).1 = (World.observeFields fields slots u).1 ∧
      b.Matches d relics (World.observeFields fields slots v).2
        (World.observeFields fields slots u).2 ∧
      Slot.AllApart b d (World.observeFields fields slots u).1
  | [], _, hs, _, _, h => ⟨rfl, h, hs⟩
  | (key, doc) :: fields, _, hs, _, _, h => by
    obtain ⟨hx, h', hapart⟩ := observe doc h
    obtain ⟨hc, h''⟩ := h'.addCell hapart
    simp only [World.observeFields, hx, hc]
    refine observeFields fields (fun key' c hc' => ?_) h''
    rw [Std.ExtTreeMap.getElem?_insert] at hc'
    split at hc'
    · cases hc'
      exact Ref.not_between_of_le h'.cells.2
    · exact hs key' c hc'

end

theorem within_iff (h : b.Matches d relics v u) (source : Source) :
    source.Within v ↔ source.Within u := by
  cases source <;> simp only [Source.Within, h.objects.1, h.cells.1, h.registries]

theorem registry_setRegistry (h : b.Matches d relics v u) (source source' : Source)
    (r r' : Registry) :
    source = source' ∧ (v.setRegistry source r).registry source' = r ∧
        (u.setRegistry source r').registry source' = r' ∨
      (v.setRegistry source r).registry source' = v.registry source' ∧
        (u.setRegistry source r').registry source' = u.registry source' := by
  obtain hv | ⟨he, hw, hv⟩ := registry_setRegistry_cases (w := v) source source' r <;>
    obtain hu | ⟨he', hw', hu⟩ := registry_setRegistry_cases (w := u) source source' r'
  · exact .inr ⟨hv, hu⟩
  · subst he'
    exact .inl ⟨rfl, registry_setRegistry_self ((h.within_iff source).2 hw') r, hu⟩
  · subst he
    exact .inl ⟨rfl, hv, registry_setRegistry_self ((h.within_iff source).1 hw) r'⟩
  · exact .inl ⟨he, hv, hu⟩

theorem setRegistry (h : b.Matches d relics v u) {r r' : Registry}
    (hr : (v.registry source).add? s = some r) (hr' : (u.registry source).add? s = some r') :
    b.Matches d relics (v.setRegistry source r) (u.setRegistry source r') := by
  have hv := SameFrame.setRegistry v source r
  have hu := SameFrame.setRegistry u source r'
  have hvalue (w : World) (r : Registry) (c : Ref .cell) :
      ((w.setRegistry source r).cells.get c).value = (w.cells.get c).value :=
    congrFun (congrArg Sight.value (w.sight_setRegistry source r)) c
  refine
    { objects := ?_, cells := ?_, registries := ?_, nextArray := ?_
      names := ⟨hv.names.trans h.names.1, hu.names.trans h.names.2⟩
      modelsInUse :=
        ⟨hv.modelsInUse.trans h.modelsInUse.1, hu.modelsInUse.trans h.modelsInUse.2⟩
      root := ?_, slot := ?_, value := ?_, slotApart := ?_, valueApart := ?_
      members := fun source' t ht => ?_, order := fun source' => ?_, alive := ?_ }
  · cases source <;> simpa only [World.setRegistry, Store.size_modify] using h.objects
  · cases source <;> simpa only [World.setRegistry, Store.size_modify] using h.cells
  · cases source <;> simpa only [World.setRegistry, Store.size_modify] using h.registries
  · cases source <;> exact h.nextArray
  · simpa only [hv.models, hu.models] using h.root
  · simpa only [slot?_setRegistry] using h.slot
  · simpa only [hvalue] using h.value
  · simpa only [slot?_setRegistry] using h.slotApart
  · simpa only [hvalue] using h.valueApart
  · obtain ⟨rfl, hv, hu⟩ | ⟨hv, hu⟩ := h.registry_setRegistry source source' r r' <;> rw [hv, hu]
    · rw [Registry.mem_members_add? hr, Registry.mem_members_add? hr', h.members source t ht]
    · exact h.members source' t ht
  · obtain ⟨rfl, hv, hu⟩ | ⟨hv, hu⟩ := h.registry_setRegistry source source' r r' <;> rw [hv, hu]
    · rw [Registry.order_add? hr, Registry.order_add? hr', List.filter_append, List.filter_append,
        h.order source]
    · exact h.order source'
  · simpa only [alive_setRegistry] using h.alive

theorem add? (h : b.Matches d relics v u) (hs : ¬s.Between b d) (source : Source) :
    ((v.registry source).add? s = none ∧ (u.registry source).add? s = none) ∨
      ∃ r r', (v.registry source).add? s = some r ∧ (u.registry source).add? s = some r' ∧
        b.Matches d relics (v.setRegistry source r) (u.setRegistry source r') := by
  cases hv : (v.registry source).add? s with
  | none =>
    rw [Registry.add?_eq_none_iff, h.members source s hs] at hv
    exact .inl ⟨rfl, (Registry.add?_eq_none_iff _ s).2 hv⟩
  | some r =>
    cases hu : (u.registry source).add? s with
    | none =>
      rw [Registry.add?_eq_none_iff, ← h.members source s hs] at hu
      cases hv.symm.trans ((Registry.add?_eq_none_iff _ s).2 hu)
    | some r' =>
      exact .inr ⟨r, r', rfl, rfl, h.setRegistry hv hu⟩

theorem due (h : b.Matches d relics v u) (source : Source) : v.due source = u.due source := by
  have living {w : World} (hw : ∀ s, s.Between b d → w.alive s = false) :
      w.due source = ((w.registry source).order.filter (¬·.Between b d)).filter w.alive := by
    rw [World.due, Registry.live, List.filter_filter]
    refine List.filter_congr fun s _ => ?_
    by_cases hs : s.Between b d
    · simp [hs, hw s hs]
    · simp [hs]
  have halive : v.alive = u.alive := funext fun s => (h.alive s).1
  have hu (s : Subscriber) (hs : s.Between b d) : u.alive s = false := (h.alive s).2 hs
  rw [living hu, living (halive ▸ hu), h.order source, halive]

end World.Matches

end ViewBinding
