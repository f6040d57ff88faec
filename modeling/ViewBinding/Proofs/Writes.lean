import ViewBinding.Proofs.Passes

/-! What each change of the data keeps. A write makes those due who are registered where it writes.
-/

namespace ViewBinding.World

variable {L P : List Subscriber} {w : World}

theorem Current.mono {due due' : List Subscriber} (hd : ∀ s ∈ due, s ∈ due')
    (h : w.Current due) : w.Current due' :=
  fun r hr hm => (h r hr hm).imp_left (hd _)

theorem onward_prune (hw : w.Valid) (source : Source) :
    w.Onward (w.setRegistry source ((w.registry source).prune w.alive)) := by
  have hl : w.Relisted (w.setRegistry source ((w.registry source).prune w.alive)) :=
    .setRegistry fun hs => hs.prune w.alive
  refine ⟨hl.passes hw fun source' s hs ha => .inl ?_, hl.modelsInUse⟩
  obtain e | ⟨rfl, -, e⟩ := registry_setRegistry_cases (w := w) source source' _
  · rwa [e]
  · rw [e]
    exact List.mem_filter.2 ⟨hs, ha⟩

theorem onward_addRegistry (hw : w.Valid) :
    w.Onward { w with registries := w.registries.add {} } where
  used := rfl
  toPasses := by
    have hr (source : Source) : World.registry { w with registries := w.registries.add {} } source =
        w.registry source := by
      cases source with
      | registry r =>
        simp only [registry, Store.get_add]
        split
        · rename_i e
          rw [Store.get_of_size_le _ (Nat.le_of_eq (congrArg Ref.index e).symm)]
          rfl
        · rfl
      | _ => rfl
    have hs : w.Shift [] { w with registries := w.registries.add {} } :=
      { slot := fun _ _ _ h => h
        cell := fun _ _ => .inl rfl
        missing := fun _ _ _ h => .inl h
        order := fun source s h _ => .inl (by rwa [hr])
        model := fun _ _ => rfl
        path := fun _ _ => rfl
        value := fun _ _ => .inl rfl
        root := fun _ _ => rfl
        modelAlive := fun _ h => .inl h }
    refine hs.passes hw ?_ (Nat.le_refl _) (Nat.le_refl _) (Nat.le_refl _) fun r h =>
      .inl (alive_of h id id rfl id id)
    exact { hw with sound := fun source => by rw [hr]; exact hw.sound source }

def store (w : World) (c : Ref .cell) (v : Value) : World :=
  { w with cells := w.cells.modify c fun cell => { cell with value := v } }

theorem store_cases (w : World) (c c' : Ref .cell) (v : Value) :
    (w.store c v).cells.get c' = w.cells.get c' ∨
      c = c' ∧ (w.store c v).cells.get c' = { w.cells.get c' with value := v } :=
  (w.cells.get_modify_cases c c' fun cell => { cell with value := v }).imp_right
    fun ⟨hc, _, e⟩ => ⟨hc, e⟩

theorem registry_store (w : World) (c : Ref .cell) (v : Value) (source : Source) :
    (w.store c v).registry source = w.registry source := by
  cases source with
  | cell c' =>
    simp only [registry]
    obtain e | ⟨-, e⟩ := w.store_cases c c' v <;> rw [e]
  | _ => rfl

theorem shift_store {c : Ref .cell} (v : Value)
    (hL : ∀ s ∈ (w.registry (.cell c)).order, w.alive s → s ∈ L) : w.Shift L (w.store c v) where
  slot _ _ _ h := h
  cell c' _ := by
    obtain e | ⟨rfl, -⟩ := w.store_cases c c' v
    · exact .inl (by rw [e])
    · exact .inr fun s hs ha => hL s hs ha
  missing _ _ _ h := .inl h
  order source s h _ := .inl (by rwa [registry_store])
  model _ _ := rfl
  path _ _ := rfl
  value _ _ := .inl rfl
  root _ _ := rfl
  modelAlive _ h := .inl h

/-- Storing a value makes those due who are registered with the cell. -/
theorem passes_store (hw : w.Valid) {c : Ref .cell} {v : Value} (hv : v.Within w.objects.size)
    (hL : ∀ s ∈ (w.registry (.cell c)).order, w.alive s → s ∈ L) : w.Passes [] L (w.store c v) := by
  have hsz : (w.store c v).cells.size = w.cells.size := Store.size_modify ..
  refine (shift_store v hL).passes hw ?_ (Nat.le_refl _) (Nat.le_refl _) (Nat.le_refl _) fun r h =>
    .inl (alive_of h id id rfl id id)
  refine { hw with
    cell := fun o key c' h => Nat.lt_of_lt_of_eq (hw.cell o key c' h) hsz.symm
    value := fun c' => ?_, sound := fun source => by rw [registry_store]; exact hw.sound source }
  obtain e | ⟨-, e⟩ := w.store_cases c c' v <;> rw [e]
  · exact hw.value c'
  · exact hv

theorem slot?_of_size_le {o : Ref .object} (h : w.objects.size ≤ o.index) (key : String) :
    w.slot? o key = none := by
  have he : (default : Object).slots = ∅ := rfl
  simp [slot?, w.objects.get_of_size_le h, he]

theorem slot?_setSlot_cases (w : World) (o o' : Ref .object) (key key' : String) (slot : Slot) :
    (w.setSlot o key slot).slot? o' key' = w.slot? o' key' ∨
      o = o' ∧ key = key' ∧ (w.setSlot o key slot).slot? o' key' = some slot := by
  simp only [slot?, setSlot]
  obtain e | ⟨rfl, -, e⟩ := w.objects.get_modify_cases o o' fun object =>
    { object with slots := object.slots.insert key slot }
  · exact .inl (by rw [e])
  · rw [e, Std.ExtTreeMap.getElem?_insert]
    split
    · rename_i hk
      exact .inr ⟨rfl, Std.LawfulEqCmp.eq_of_compare hk, rfl⟩
    · exact .inl rfl

theorem slot?_setSlot_self {o : Ref .object} (h : o.index < w.objects.size) (key : String)
    (slot : Slot) : (w.setSlot o key slot).slot? o key = some slot := by
  have hm := w.objects.get_modify_self
    (fun object => { object with slots := object.slots.insert key slot }) h
  rw [slot?, setSlot, hm, Std.ExtTreeMap.getElem?_insert_self]

theorem waiting_setSlot (w : World) (o o' : Ref .object) (key : String) (slot : Slot) :
    ((w.setSlot o key slot).objects.get o').waiting = (w.objects.get o').waiting := by
  simp only [setSlot]
  obtain e | ⟨-, -, e⟩ := w.objects.get_modify_cases o o' fun object =>
    { object with slots := object.slots.insert key slot } <;> rw [e]

theorem registry_setSlot (w : World) (o : Ref .object) (key : String) (slot : Slot)
    (source : Source) : (w.setSlot o key slot).registry source = w.registry source := by
  cases source with
  | waiting o' key' =>
    exact congrArg (fun waiting : Keyed Registry => (waiting[key']?).getD {})
      (waiting_setSlot w o o' key slot)
  | _ => rfl

section InsertCell

variable (w) (o : Ref .object) (key : String) (v : Value)

theorem slot?_insertCell_cases (o' : Ref .object) (key' : String) :
    (w.insertCell o key v).slot? o' key' = w.slot? o' key' ∨
      o = o' ∧ key = key' ∧ (w.insertCell o key v).slot? o' key' = some (.cell w.cells.fresh) :=
  slot?_setSlot_cases (w.addCell v).2 o o' key key' (.cell w.cells.fresh)

theorem get_insertCell_cases (c : Ref .cell) :
    (w.insertCell o key v).cells.get c = w.cells.get c ∨
      c = w.cells.fresh ∧ (w.insertCell o key v).cells.get c = { value := v } := by
  simp only [insertCell, addCell, setSlot, Store.get_add]
  split
  · exact .inr ⟨‹_›, rfl⟩
  · exact .inl rfl

theorem registry_insertCell (source : Source) :
    (w.insertCell o key v).registry source = w.registry source := by
  cases source with
  | cell c =>
    simp only [registry]
    obtain e | ⟨rfl, e⟩ := w.get_insertCell_cases o key v c
    · rw [e]
    · have hd : w.cells.get w.cells.fresh = default := w.cells.get_of_size_le (Nat.le_refl _)
      rw [e, hd]
      rfl
  | waiting o' key' =>
    have h := waiting_setSlot (w.addCell v).2 o o' key (.cell w.cells.fresh)
    exact congrArg (fun waiting : Keyed Registry => (waiting[key']?).getD {}) h
  | registry r => rfl

variable {w o key}

theorem shift_insertCell (hn : w.slot? o key = none)
    (hL : ∀ s ∈ (w.registry (.waiting o key)).order, w.alive s → s ∈ L) :
    w.Shift L (w.insertCell o key v) where
  slot o' key' slot h := by
    obtain e | ⟨rfl, rfl, -⟩ := w.slot?_insertCell_cases o key v o' key'
    · rwa [e]
    · rw [hn] at h
      cases h
  cell c h := .inl (congrArg Cell.value (w.cells.get_add_of_lt _ h))
  missing o' key' _ h := by
    obtain e | ⟨rfl, rfl, -⟩ := w.slot?_insertCell_cases o key v o' key'
    · exact .inl (e.trans h)
    · exact .inr hL
  order source s h _ := .inl (by rwa [registry_insertCell])
  model _ _ := rfl
  path _ _ := rfl
  value _ _ := .inl rfl
  root _ _ := rfl
  modelAlive _ h := .inl h

variable {v}

theorem passes_insertCell (hw : w.Valid) (hn : w.slot? o key = none) (hv : v.Within w.objects.size)
    (hL : ∀ s ∈ (w.registry (.waiting o key)).order, w.alive s → s ∈ L) :
    w.Passes [] L (w.insertCell o key v) := by
  have hcs : (w.insertCell o key v).cells.size = w.cells.size + 1 := Store.size_add ..
  have hos : (w.insertCell o key v).objects.size = w.objects.size := Store.size_modify ..
  refine (shift_insertCell v hn hL).passes hw ?_ (Nat.le_of_eq hos.symm) (Nat.le_refl _)
    (Nat.le_refl _) fun r h => .inl (alive_of h id id rfl id id)
  refine { hw with
    cell := fun o' key' c h => ?_, computed := fun o' key' p h => ?_, value := fun c => ?_
    root := fun m h => Nat.lt_of_lt_of_eq (hw.root m h) hos.symm
    seen := fun r => by rw [hos]; exact hw.seen r
    saved := fun name v h => by rw [hos]; exact hw.saved name v h
    sound := fun source => by rw [registry_insertCell]; exact hw.sound source }
  · rw [hcs]
    obtain e | ⟨-, -, e⟩ := w.slot?_insertCell_cases o key v o' key' <;> rw [e] at h
    · exact Nat.lt_succ_of_lt (hw.cell o' key' c h)
    · cases h
      exact Nat.lt_succ_self _
  · obtain e | ⟨-, -, e⟩ := w.slot?_insertCell_cases o key v o' key' <;> rw [e] at h
    · exact hw.computed o' key' p h
    · cases h
  · rw [hos]
    obtain e | ⟨-, e⟩ := w.get_insertCell_cases o key v c <;> rw [e]
    · exact hw.value c
    · exact hv

end InsertCell

theorem registry_takeWaiting_cases (w : World) (o : Ref .object) (key : String) (source : Source) :
    (w.takeWaiting o key).2.registry source = w.registry source ∨
      source = .waiting o key ∧ (w.takeWaiting o key).2.registry source = {} := by
  cases source with
  | waiting o' key' =>
    simp only [registry, takeWaiting]
    obtain e | ⟨rfl, -, e⟩ := w.objects.get_modify_cases o o' fun object =>
      { object with waiting := object.waiting.erase key }
    · exact .inl (by rw [e])
    · rw [e, Std.ExtTreeMap.getElem?_erase]
      split
      · rename_i hk
        exact .inr ⟨by rw [Std.LawfulEqCmp.eq_of_compare hk], rfl⟩
      · exact .inl rfl
  | _ => exact .inl rfl

theorem Relisted.takeWaiting (w : World) (o : Ref .object) (key : String) :
    w.Relisted (w.takeWaiting o key).2 := by
  refine ⟨?_, Store.size_modify .., rfl, rfl, rfl, rfl, rfl, rfl, rfl, rfl, fun hs source => ?_⟩
  · have h := w.slot?_modify_waiting o fun object => object.waiting.erase key
    simp only [World.sight, World.takeWaiting]
    congr 1
    funext o' key'
    exact h o' key'
  · obtain e | ⟨-, e⟩ := w.registry_takeWaiting_cases o key source <;> rw [e]
    · exact hs source
    · exact .empty

theorem passes_takeWaiting (hw : w.Valid) (o : Ref .object) (key : String)
    (hL : ∀ s ∈ (w.registry (.waiting o key)).order, w.alive s → s ∈ L) :
    w.Passes [] L (w.takeWaiting o key).2 := by
  refine (Relisted.takeWaiting w o key).passes hw fun source s hs ha => ?_
  obtain e | ⟨rfl, -⟩ := w.registry_takeWaiting_cases o key source
  · exact .inl (by rwa [e])
  · exact .inr (hL s hs ha)

theorem Passes.again {w' : World} (h : w.Passes [] L w') : w.Passes L L w' where
  valid := h.valid
  objects := h.objects
  watchers := h.watchers
  models := h.models
  current P hc := by
    have hc' : w'.Current (L ++ (L ++ P)) := h.current (L ++ P) hc
    refine hc'.mono fun s hs => ?_
    simpa only [List.mem_append, or_self_left] using hs

end ViewBinding.World
