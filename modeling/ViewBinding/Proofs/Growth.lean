import ViewBinding.Proofs.Changes
import ViewBinding.Proofs.Writes
import ViewBinding.ViewModel

/-! New data and new view-models. What is made from a document is apart from everything there was,
so nobody notices it. -/

namespace ViewBinding.World

variable {w w' w'' : World}

def Sane (w : World) : Slot → Prop
  | .cell c => c.index < w.cells.size
  | .computed p => p.model.index < w.models.size ∧ p.body.Tracked

/-- A change that makes new objects, cells, arrays and view-models, and leaves all others alone. -/
structure Grown (w w' : World) : Prop where
  objects : w.objects.size ≤ w'.objects.size
  cells : w.cells.size ≤ w'.cells.size
  models : w.models.size ≤ w'.models.size
  object : ∀ o, o.index < w.objects.size → w'.objects.get o = w.objects.get o
  cell : ∀ c, c.index < w.cells.size → w'.cells.get c = w.cells.get c
  model : ∀ m, m.index < w.models.size → w'.models.get m = w.models.get m
  newSlot : ∀ o key slot, w.objects.size ≤ o.index → w'.slot? o key = some slot → w'.Sane slot
  newWaiting : ∀ o (key : String), w.objects.size ≤ o.index →
    (w'.objects.get o).waiting[key]? = none
  newCell : ∀ c, w.cells.size ≤ c.index →
    (w'.cells.get c).value.Within w'.objects.size ∧ (w'.cells.get c).registry = {}
  newRoot : ∀ m, w.models.size ≤ m.index → m.index < w'.models.size →
    (w'.models.get m).data.index < w'.objects.size
  newModel : ∀ m, w.models.size ≤ m.index → (w'.models.get m).watchers = [] ∧
    ∀ (name : String) steps, (w'.models.get m).methods[name]? = some steps → Step.AllPlain steps
  registries : w'.registries = w.registries
  watchers : w'.watchers = w.watchers
  reactions : w'.reactions = w.reactions
  names : w'.names = w.names
  modelsInUse : w'.modelsInUse = w.modelsInUse
  subscribersInUse : w'.subscribersInUse = w.subscribersInUse

theorem Sane.mono {slot : Slot} (h : w.Sane slot) (hc : w.cells.size ≤ w'.cells.size)
    (hm : w.models.size ≤ w'.models.size) : w'.Sane slot := by
  cases slot with
  | cell c => exact Nat.lt_of_lt_of_le h hc
  | computed p => exact ⟨Nat.lt_of_lt_of_le h.1 hm, h.2⟩

namespace Grown

theorem refl (w : World) : w.Grown w where
  objects := Nat.le_refl _
  cells := Nat.le_refl _
  models := Nat.le_refl _
  object _ _ := rfl
  cell _ _ := rfl
  model _ _ := rfl
  newSlot o key slot ho h := by
    have he : (default : Object).slots = ∅ := rfl
    simp [slot?, w.objects.get_of_size_le ho, he] at h
  newWaiting o key ho := by
    have he : (default : Object).waiting = ∅ := rfl
    simp [w.objects.get_of_size_le ho, he]
  newCell c hc := by
    rw [w.cells.get_of_size_le hc]
    refine ⟨fun o (h : none = some o) => ?_, rfl⟩
    cases h
  newRoot m h h' := absurd h' (Nat.not_lt.2 h)
  newModel m h := by
    have he : (default : ViewModel).methods = ∅ := rfl
    rw [w.models.get_of_size_le h, he]
    exact ⟨rfl, fun name steps h => by simp at h⟩
  registries := rfl
  watchers := rfl
  reactions := rfl
  names := rfl
  modelsInUse := rfl
  subscribersInUse := rfl

theorem trans (h : w.Grown w') (h' : w'.Grown w'') : w.Grown w'' where
  objects := Nat.le_trans h.objects h'.objects
  cells := Nat.le_trans h.cells h'.cells
  models := Nat.le_trans h.models h'.models
  object o ho := (h'.object o (Nat.lt_of_lt_of_le ho h.objects)).trans (h.object o ho)
  cell c hc := (h'.cell c (Nat.lt_of_lt_of_le hc h.cells)).trans (h.cell c hc)
  model m hm := (h'.model m (Nat.lt_of_lt_of_le hm h.models)).trans (h.model m hm)
  newSlot o key slot ho hs := by
    obtain hlt | hle := Nat.lt_or_ge o.index w'.objects.size
    · rw [slot?, h'.object o hlt] at hs
      exact (h.newSlot o key slot ho hs).mono h'.cells h'.models
    · exact h'.newSlot o key slot hle hs
  newWaiting o key ho := by
    obtain hlt | hle := Nat.lt_or_ge o.index w'.objects.size
    · rw [h'.object o hlt]
      exact h.newWaiting o key ho
    · exact h'.newWaiting o key hle
  newCell c hc := by
    obtain hlt | hle := Nat.lt_or_ge c.index w'.cells.size
    · rw [h'.cell c hlt]
      exact (h.newCell c hc).imp_left (·.mono h'.objects)
    · exact h'.newCell c hle
  newRoot m hm hm' := by
    obtain hlt | hle := Nat.lt_or_ge m.index w'.models.size
    · rw [h'.model m hlt]
      exact Nat.lt_of_lt_of_le (h.newRoot m hm hlt) h'.objects
    · exact h'.newRoot m hle hm'
  newModel m hm := by
    obtain hlt | hle := Nat.lt_or_ge m.index w'.models.size
    · rw [h'.model m hlt]
      exact h.newModel m hm
    · exact h'.newModel m hle
  registries := h'.registries.trans h.registries
  watchers := h'.watchers.trans h.watchers
  reactions := h'.reactions.trans h.reactions
  names := h'.names.trans h.names
  modelsInUse := h'.modelsInUse.trans h.modelsInUse
  subscribersInUse := h'.subscribersInUse.trans h.subscribersInUse

theorem registry (h : w.Grown w') (source : Source) :
    w'.registry source = w.registry source ∨ ¬source.Within w ∧ w'.registry source = {} := by
  cases source with
  | cell c =>
    obtain hlt | hle := Nat.lt_or_ge c.index w.cells.size
    · exact .inl (congrArg Cell.registry (h.cell c hlt))
    · exact .inr ⟨Nat.not_lt.2 hle, (h.newCell c hle).2⟩
  | waiting o key =>
    obtain hlt | hle := Nat.lt_or_ge o.index w.objects.size
    · left
      simp only [World.registry, h.object o hlt]
    · refine .inr ⟨Nat.not_lt.2 hle, ?_⟩
      simp only [World.registry, h.newWaiting o key hle, Option.getD_none]
  | registry r =>
    left
    simp only [World.registry, h.registries]

theorem registry_eq (h : w.Grown w') (source : Source) :
    w'.registry source = w.registry source := by
  obtain hr | ⟨hs, hr⟩ := h.registry source
  · exact hr
  · rw [hr, registry_of_not_within hs]

theorem sane (h : w.Grown w') (hw : w.Valid) (o : Ref .object) (key : String) (slot : Slot)
    (hs : w'.slot? o key = some slot) : w'.Sane slot := by
  obtain hlt | hle := Nat.lt_or_ge o.index w.objects.size
  · rw [slot?, h.object o hlt] at hs
    refine Sane.mono (w := w) ?_ h.cells h.models
    cases slot with
    | cell c => exact hw.cell o key c hs
    | computed p => exact hw.computed o key p hs
  · exact h.newSlot o key slot hle hs

theorem valid (h : w.Grown w') (hw : w.Valid) : w'.Valid where
  cell o key c hs := h.sane hw o key _ hs
  computed o key p hs := h.sane hw o key _ hs
  value c := by
    obtain hlt | hle := Nat.lt_or_ge c.index w.cells.size
    · rw [h.cell c hlt]
      exact (hw.value c).mono h.objects
    · exact (h.newCell c hle).1
  root m hm := by
    obtain hlt | hle := Nat.lt_or_ge m.index w.models.size
    · rw [h.model m hlt]
      exact Nat.lt_of_lt_of_le (hw.root m hlt) h.objects
    · exact h.newRoot m hle hm
  methods m := by
    obtain hlt | hle := Nat.lt_or_ge m.index w.models.size
    · rw [h.model m hlt]
      exact hw.methods m
    · exact (h.newModel m hle).2
  owned m := by
    obtain hlt | hle := Nat.lt_or_ge m.index w.models.size
    · rw [h.model m hlt, h.watchers]
      exact hw.owned m
    · rw [(h.newModel m hle).1]
      exact fun _ hr => nomatch hr
  model := by
    simp only [h.watchers]
    exact fun r hr => Nat.lt_of_lt_of_le (hw.model r hr) h.models
  seen := by
    simp only [h.watchers]
    exact fun r => (hw.seen r).mono h.objects
  callback := by simpa only [h.watchers] using hw.callback
  reaction := by simpa only [h.reactions] using hw.reaction
  namedModel := by
    simp only [h.names]
    exact fun m hm => Nat.lt_of_lt_of_le (hw.namedModel m hm) h.models
  usedModel := by
    simp only [h.modelsInUse]
    exact fun m hm => Nat.lt_of_lt_of_le (hw.usedModel m hm) h.models
  namedWatcher := by simpa only [h.names, h.watchers] using hw.namedWatcher
  usedWatcher := by simpa only [h.subscribersInUse, h.watchers] using hw.usedWatcher
  saved := by
    simp only [h.names]
    exact fun name v hv => (hw.saved name v hv).mono h.objects
  sound source := by
    obtain e | ⟨-, e⟩ := h.registry source <;> rw [e]
    · exact hw.sound source
    · exact .empty

theorem passes (h : w.Grown w') (hw : w.Valid) (hw' : w''.Valid) (ho : w''.objects = w'.objects)
    (hc : w''.cells = w'.cells) (hr : w''.registries = w'.registries)
    (hwt : w''.watchers = w'.watchers) (hm : w''.models = w'.models)
    (hu : w''.subscribersInUse = w'.subscribersInUse)
    (hn : w''.names.watchers = w'.names.watchers)
    (ha : ∀ m, w''.modelAlive m → w.modelAlive m ∨ w.models.size ≤ m.index) :
    w.Passes [] [] w'' := by
  have hq (source : Source) : w''.registry source = w'.registry source := by
    cases source <;> simp only [World.registry, ho, hc, hr]
  have hs : w.Shift [] w'' :=
    { slot := fun o key slot hs => by
        rw [slot?, ho]
        obtain hlt | hle := Nat.lt_or_ge o.index w.objects.size
        · rwa [h.object o hlt]
        · have he : (default : Object).slots = ∅ := rfl
          simp [slot?, w.objects.get_of_size_le hle, he] at hs
      cell := fun c hlt => .inl (by rw [hc, h.cell c hlt])
      missing := fun o key hlt hs => .inl (by rwa [slot?, ho, h.object o hlt])
      order := fun source s hs _ => by
        obtain e | ⟨hn, -⟩ := h.registry source
        · exact .inl (by rwa [hq, e])
        · exact absurd (within_of_mem_order hs) hn
      model := fun r _ => by rw [hwt, h.watchers]
      path := fun r _ => by rw [hwt, h.watchers]
      value := fun r _ => .inl (by rw [hwt, h.watchers])
      root := fun m hlt => by rw [hm, h.model m hlt]
      modelAlive := ha }
  have hwatchers : w.watchers.size ≤ w''.watchers.size := Nat.le_of_eq (by rw [hwt, h.watchers])
  refine hs.passes hw hw' (by rw [ho]; exact h.objects) hwatchers
    (by rw [hm]; exact h.models) fun r hr => .inl ?_
  -- A new view-model keeps no watchers, so none comes alive with it.
  rw [alive_iff, hu, h.subscribersInUse, hn, h.names, hwt, h.watchers, hm] at hr
  rw [alive_iff]
  refine hr.imp_right (Or.imp_right fun hr => ?_)
  obtain ⟨hr, hmem⟩ := hr
  obtain hlt | hle := Nat.lt_or_ge (w.watchers.get r).model.index w.models.size
  · rw [h.model _ hlt] at hmem
    exact ⟨(ha _ hr).resolve_right (Nat.not_le.2 hlt), hmem⟩
  · rw [(h.newModel _ hle).1] at hmem
    cases hmem

theorem modelAlive (h : w.Grown w') (m : Ref .model) : w'.modelAlive m ↔ w.modelAlive m := by
  rw [modelAlive_iff, modelAlive_iff, h.names, h.modelsInUse]

theorem onward (h : w.Grown w') (hw : w.Valid) : w.Onward w' where
  used := h.modelsInUse
  toPasses := h.passes hw (h.valid hw) rfl rfl rfl rfl rfl rfl rfl fun m hm =>
    .inl ((h.modelAlive m).1 hm)

theorem passes_useModel (h : w.Grown w') (hw : w.Valid) {m : Ref .model}
    (hm : w.models.size ≤ m.index) (hm' : m.index < w'.models.size) :
    w.Passes [] [] (w'.useModel m) := by
  refine h.passes hw ?_ rfl rfl rfl rfl rfl rfl rfl fun m' ha => ?_
  · refine { h.valid hw with usedModel := fun m' h' => ?_ }
    obtain rfl | h' := List.mem_cons.1 h'
    · exact hm'
    · exact (h.valid hw).usedModel m' h'
  · rw [modelAlive_iff, useModel, List.mem_cons, or_left_comm, h.names, h.modelsInUse,
      ← modelAlive_iff] at ha
    obtain rfl | ha := ha
    · exact .inr hm
    · exact .inl ha

theorem onward_bind (h : w.Grown w') (hw : w.Valid) (name : String) {m : Ref .model}
    (hm : w.models.size ≤ m.index) (hm' : m.index < w'.models.size) :
    w.Onward { w' with names := { w'.names with models := w'.names.models.bind name m } } where
  used := h.modelsInUse
  toPasses := by
    refine h.passes hw ?_ rfl rfl rfl rfl rfl rfl rfl fun m' ha => ?_
    · refine { h.valid hw with namedModel := fun m' h' => ?_ }
      obtain rfl | h' := Holder.holds_bind _ name h'
      · exact hm'
      · exact (h.valid hw).namedModel m' h'
    · obtain ha | ha := (modelAlive_iff m').1 ha
      · obtain rfl | ha := Holder.holds_bind _ name ha
        · exact .inr hm
        · exact .inl ((h.modelAlive m').1 ((modelAlive_iff m').2 (.inl ha)))
      · exact .inl ((h.modelAlive m').1 ((modelAlive_iff m').2 (.inr ha)))

theorem addArray (w : World) (items : List Value) : w.Grown (w.addArray items).2 :=
  { refl w with
    newSlot := fun o key slot ho hs => ((refl w).newSlot o key slot ho hs).mono
      (Nat.le_refl _) (Nat.le_refl _) }

theorem addCell (w : World) {v : Value} (hv : v.Within w.objects.size) :
    w.Grown (w.addCell v).2 :=
  { refl w with
    cells := by
      rw [World.addCell, Store.size_add]
      exact Nat.le_succ _
    cell := fun c hc => w.cells.get_add_of_lt _ hc
    newSlot := fun o key slot ho hs => ((refl w).newSlot o key slot ho hs).mono
      (by rw [World.addCell, Store.size_add]; exact Nat.le_succ _) (Nat.le_refl _)
    newCell := fun c hc => by
      simp only [World.addCell, Store.get_add]
      split
      · exact ⟨hv, rfl⟩
      · exact (refl w).newCell c hc }

theorem addObject (w : World) {slots : Keyed Slot}
    (hs : ∀ (key : String) slot, slots[key]? = some slot → w.Sane slot) :
    w.Grown (w.addObject { slots }).2 := by
  have hsz : w.objects.size ≤ (w.objects.add { slots }).size := by
    rw [Store.size_add]
    exact Nat.le_succ _
  refine { refl w with
    objects := hsz
    object := fun o ho => w.objects.get_add_of_lt _ ho
    newSlot := fun o key slot ho h => ?_
    newWaiting := fun o key ho => ?_
    newCell := fun c hc => ((refl w).newCell c hc).imp_left (·.mono hsz)
    newRoot := fun m hm hm' => absurd hm' (Nat.not_lt.2 hm) }
  · refine Sane.mono (w := w) ?_ (Nat.le_refl _) (Nat.le_refl _)
    simp only [slot?, World.addObject, Store.get_add] at h
    split at h
    · exact hs key slot h
    · exact (refl w).newSlot o key slot ho h
  · simp only [World.addObject, Store.get_add]
    split
    · exact Std.ExtTreeMap.getElem?_empty
    · exact (refl w).newWaiting o key ho

theorem addModel (h : w.Grown w') (model : ViewModel) (hd : model.data.index < w'.objects.size)
    (hr : model.watchers = [])
    (hm : ∀ (name : String) steps, model.methods[name]? = some steps → Step.AllPlain steps) :
    w.Grown { w' with models := w'.models.add model } := by
  have hsz : w'.models.size ≤ (w'.models.add model).size := by
    rw [Store.size_add]
    exact Nat.le_succ _
  refine { h with
    models := Nat.le_trans h.models hsz
    model := fun m hm => ?_
    newSlot := fun o key slot ho hs => (h.newSlot o key slot ho hs).mono (Nat.le_refl _) hsz
    newRoot := fun m hm hm' => ?_, newModel := fun m hm' => ?_ }
  · show (w'.models.add model).get m = _
    rw [Store.get_add_of_lt _ _ (Nat.lt_of_lt_of_le hm h.models)]
    exact h.model m hm
  · simp only [Store.get_add]
    split
    · exact hd
    · rename_i hne
      refine h.newRoot m hm (Nat.lt_of_le_of_ne (Nat.le_of_lt_succ ?_) fun e => hne ?_)
      · rwa [Store.size_add] at hm'
      · exact congrArg Ref.mk e
  · simp only [Store.get_add]
    split
    · exact ⟨hr, hm⟩
    · exact h.newModel m hm'

theorem setSlot (h : w.Grown w') {o : Ref .object} (ho : w.objects.size ≤ o.index) (key : String)
    {slot : Slot} (hs : w'.Sane slot) : w.Grown (w'.setSlot o key slot) := by
  have hsz : (w'.setSlot o key slot).objects.size = w'.objects.size := Store.size_modify ..
  refine { h with
    objects := Nat.le_trans h.objects (Nat.le_of_eq hsz.symm)
    object := fun o' ho' => ?_, newSlot := fun o' key' slot' ho' hs' => ?_
    newWaiting := fun o' key' ho' => ?_
    newCell := fun c hc => (h.newCell c hc).imp_left (·.mono (Nat.le_of_eq hsz.symm))
    newRoot := fun m hm hm' => Nat.lt_of_lt_of_eq (h.newRoot m hm hm') hsz.symm }
  · have hne : o ≠ o' := fun e => Nat.not_lt.2 ho (e ▸ ho')
    show (w'.objects.modify o _).get o' = _
    rw [w'.objects.get_modify_of_ne _ hne, h.object o' ho']
  · refine Sane.mono (w := w') ?_ (Nat.le_refl _) (Nat.le_refl _)
    obtain e | ⟨-, -, e⟩ := w'.slot?_setSlot_cases o o' key key' slot <;> rw [e] at hs'
    · exact h.newSlot o' key' slot' ho' hs'
    · cases hs'
      exact hs
  · rw [waiting_setSlot]
    exact h.newWaiting o' key' ho'

end Grown

mutual

theorem observe_grown : ∀ (d : Document) (w : World),
    w.Grown (observe d w).2 ∧ (observe d w).1.Within (observe d w).2.objects.size
  | .null, w => ⟨.refl w, fun o (h : none = some o) => (nomatch h)⟩
  | .bool _, w => ⟨.refl w, fun o (h : none = some o) => (nomatch h)⟩
  | .number _, w => ⟨.refl w, fun o (h : none = some o) => (nomatch h)⟩
  | .string _, w => ⟨.refl w, fun o (h : none = some o) => (nomatch h)⟩
  | .array items, w =>
    ⟨(observeItems_grown items w).trans (.addArray _ _), fun o (h : none = some o) => (nomatch h)⟩
  | .object fields, w => by
    obtain ⟨hg, hs⟩ := observeFields_grown fields ∅ w fun key slot h => by simp at h
    refine ⟨hg.trans (.addObject _ hs), fun o h => ?_⟩
    obtain rfl := Option.some.inj h
    show _ < (Store.add _ _).size
    rw [Store.size_add]
    exact Nat.lt_succ_self _

theorem observeItems_grown : ∀ (ds : List Document) (w : World), w.Grown (observeItems ds w).2
  | [], w => .refl w
  | d :: ds, w => (observe_grown d w).1.trans (observeItems_grown ds _)

theorem observeFields_grown :
    ∀ (fields : List (String × Document)) (slots : Keyed Slot) (w : World),
    (∀ (key : String) slot, slots[key]? = some slot → w.Sane slot) →
    w.Grown (observeFields fields slots w).2 ∧
      ∀ (key : String) slot, (observeFields fields slots w).1[key]? = some slot →
        (observeFields fields slots w).2.Sane slot
  | [], slots, w, hs => ⟨.refl w, hs⟩
  | (key, d) :: fields, slots, w, hs => by
    obtain ⟨hg, hv⟩ := observe_grown d w
    have hc := hg.trans (Grown.addCell _ hv)
    obtain ⟨hg', hs'⟩ := observeFields_grown fields
      (slots.insert key (.cell (observe d w).2.cells.fresh)) ((observe d w).2.addCell _).2
      fun key' slot h => by
        rw [Std.ExtTreeMap.getElem?_insert] at h
        split at h
        · obtain rfl := Option.some.inj h
          show _ < (Store.add _ _).size
          rw [Store.size_add]
          exact Nat.lt_succ_self _
        · exact (hs key' slot h).mono hc.cells hc.models
    exact ⟨hc.trans hg', hs'⟩

end

theorem observe_fresh {d : Document} {o : Ref .object} (h : (observe d w).1.object? = some o) :
    w.objects.size ≤ o.index := by
  cases d with
  | object fields =>
    obtain rfl := Option.some.inj h
    exact (observeFields_grown fields ∅ w fun key slot h => by simp at h).1.objects
  | _ => cases h

def define (data : Ref .object) (m : Ref .model) (computed : List (String × Expr)) (w : World) :
    World :=
  computed.foldl (fun w c => w.setComputed data { name := c.1, body := c.2, model := m }) w

theorem models_define (data : Ref .object) (m : Ref .model) (computed : List (String × Expr))
    (w : World) : (w.define data m computed).models = w.models := by
  induction computed generalizing w with
  | nil => rfl
  | cons c computed ih =>
    exact ih (w.setComputed data { name := c.1, body := c.2, model := m })

theorem define_models (data : Ref .object) (m : Ref .model) (computed : List (String × Expr))
    (w : World) (models : Store .model ViewModel) :
    { w.define data m computed with models } = World.define data m computed { w with models } := by
  induction computed generalizing w with
  | nil => rfl
  | cons c computed ih =>
    exact ih (w.setComputed data { name := c.1, body := c.2, model := m })

theorem Grown.define (h : w.Grown w') {data : Ref .object} (hd : w.objects.size ≤ data.index)
    {m : Ref .model} (hm : m.index < w'.models.size) {computed : List (String × Expr)}
    (hc : ∀ c ∈ computed, c.2.Tracked) : w.Grown (w'.define data m computed) := by
  induction computed generalizing w' with
  | nil => exact h
  | cons c computed ih =>
    have hslot : w'.Sane (.computed { name := c.1, body := c.2, model := m }) :=
      ⟨hm, hc c List.mem_cons_self⟩
    exact ih { h.setSlot hd c.1 hslot with } hm fun c' hc' => hc c' (List.mem_cons_of_mem c hc')

end ViewBinding.World
