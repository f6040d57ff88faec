import ViewBinding.Proofs.Guests.Births

/-! What it takes for readings to go parallel in two runs: the data they find is the same up to a
pairing, and stays so by whatever readings do. -/

namespace ViewBinding

section

variable (heeds : Prop) (p : Pairing)

/-- The same property in two worlds. Unless readers heed their evaluation in the same way in both,
computed properties must not. -/
def Slot.SameData : Slot → Slot → Prop
  | .cell c, .cell c' => p.pair c c'
  | .computed f, .computed f' => f = f' ∧ (heeds ∨ f.body.Heedless)
  | _, _ => False

def Slot.Cells : Slot → Slot → Prop
  | .cell c, .cell c' => p.pair c c'
  | _, _ => False

def Object.SameData (o o' : Object) : Prop :=
  ∀ key : String, Option.Rel (Slot.SameData heeds p) o.slots[key]? o'.slots[key]?

def Cell.SameData (c c' : Cell) : Prop := c.value.Twin p c'.value

def ViewModel.SameData (m m' : ViewModel) : Prop := p.pair m.data m'.data

structure World.SameData (w w' : World) : Prop where
  fits : p.Fits w.count w'.count
  objects : Store.Twin p (Object.SameData heeds p) w.objects w'.objects
  cells : Store.Twin p (Cell.SameData p) w.cells w'.cells
  models : Store.Twin p (ViewModel.SameData p) w.models w'.models
  named : ∀ name : String, Option.Rel p.pair w.names.models.held[name]? w'.names.models.held[name]?
  alive : ∀ m, w.modelAlive m = w'.modelAlive m
  living : ∀ m, w.modelAlive m → p.pair m m
  saved : ∀ name : String, Option.Rel (Value.Twin p) w.names.values[name]? w'.names.values[name]?

end

variable {heeds : Prop} {G : List String} {p q : Pairing} {w w' : World}

theorem Slot.SameData.mono (hq : p ≤ q) {s s' : Slot} (h : s.SameData heeds p s') :
    s.SameData heeds q s' := by
  cases s <;> cases s' <;> first | exact hq.pair h | exact h

theorem Slot.Cells.mono (hq : p ≤ q) {s s' : Slot} (h : s.Cells p s') : s.Cells q s' := by
  cases s <;> cases s' <;> first | exact hq.pair h | exact h

theorem Slot.Cells.twin {s s' : Slot} (h : s.Cells p s') : s.Twin p s' := by
  cases s <;> cases s' <;> first | exact h | exact False.elim h

theorem Slot.Cells.sameData {s s' : Slot} (h : s.Cells p s') : s.SameData heeds p s' := by
  cases s <;> cases s' <;> first | exact h | exact False.elim h

theorem Slot.Twin.sameData {s s' : Slot} (h : s.Twin p s') : s.SameData True p s' := by
  cases s <;> cases s' <;> first | exact h | exact ⟨h, .inl trivial⟩

theorem Object.SameData.mono (hq : p ≤ q) {o o' : Object} (h : o.SameData heeds p o') :
    o.SameData heeds q o' := fun key => optionRel_mono (fun _ _ => Slot.SameData.mono hq) (h key)

namespace World.SameData

theorem slot? (h : w.SameData heeds p w') {o o' : Ref .object} (ho : p.pair o o') (key : String) :
    Option.Rel (Slot.SameData heeds p) (w.slot? o key) (w'.slot? o' key) := h.objects o o' ho key

theorem grow (h : w.SameData heeds p w') (hq : p ≤ q) {v v' : World} (hv : v.names = w.names)
    (hv' : v'.names = w'.names) (hu : v.modelsInUse = w.modelsInUse)
    (hu' : v'.modelsInUse = w'.modelsInUse) (fits : q.Fits v.count v'.count)
    (objects : Store.Twin q (Object.SameData heeds q) v.objects v'.objects)
    (cells : Store.Twin q (Cell.SameData q) v.cells v'.cells)
    (models : Store.Twin q (ViewModel.SameData q) v.models v'.models) : v.SameData heeds q v' where
  fits := fits
  objects := objects
  cells := cells
  models := models
  named name := by
    rw [hv, hv']
    exact optionRel_mono (fun _ _ => hq.pair) (h.named name)
  alive m := by
    rw [World.modelAlive, World.modelAlive, hv, hv', hu, hu']
    exact h.alive m
  living m hm := by
    rw [World.modelAlive, hv, hu] at hm
    exact hq.pair (h.living m hm)
  saved name := by
    rw [hv, hv']
    exact optionRel_mono (fun _ _ => Value.Twin.mono hq) (h.saved name)

theorem addCell (h : w.SameData heeds p w') {v v' : Value} (hv : v.Twin p v') :
    (w.addCell v).2.SameData heeds (p.join w.cells.fresh w'.cells.fresh) (w'.addCell v').2 := by
  have hq := p.le_join w.cells.fresh w'.cells.fresh
  refine h.grow hq rfl rfl rfl rfl ?_
    (h.objects.other (by decide) fun _ _ => Object.SameData.mono hq)
    ?_ (h.models.other (by decide) fun _ _ => hq.pair)
  · exact h.fits.join (World.count_cells (Store.size_le_add ..))
      (World.count_cells (Store.size_le_add ..)) rfl rfl (Store.fresh_lt_add ..)
      (Store.fresh_lt_add ..) nofun
  · exact h.cells.add (fun _ _ => h.fits.made) (fun _ _ => Pairing.pair_join.1)
      (fun _ _ => Value.Twin.mono hq) (hv.mono hq)

theorem addObject (h : w.SameData heeds p w') {slots slots' : Keyed Slot}
    (hs : ∀ key : String, Option.Rel (Slot.Cells p) slots[key]? slots'[key]?) :
    (w.addObject { slots }).2.SameData heeds (p.join w.objects.fresh w'.objects.fresh)
      (w'.addObject { slots := slots' }).2 := by
  have hq := p.le_join w.objects.fresh w'.objects.fresh
  refine h.grow hq rfl rfl rfl rfl ?_ ?_ (h.cells.other (by decide) fun _ _ => Value.Twin.mono hq)
    (h.models.other (by decide) fun _ _ => hq.pair)
  · exact h.fits.join (World.count_objects (Store.size_le_add ..))
      (World.count_objects (Store.size_le_add ..)) rfl rfl (Store.fresh_lt_add ..)
      (Store.fresh_lt_add ..) nofun
  · exact h.objects.add (fun _ _ => h.fits.made) (fun _ _ => Pairing.pair_join.1)
      (fun _ _ => Object.SameData.mono hq)
      fun key => optionRel_mono (fun _ _ hc => (hc.mono hq).sameData) (hs key)

theorem addArray (h : w.SameData heeds p w') (us vs : List Value) :
    (w.addArray us).2.SameData heeds (p.join w.nextArray w'.nextArray) (w'.addArray vs).2 := by
  have hq := p.le_join w.nextArray w'.nextArray
  refine h.grow hq rfl rfl rfl rfl ?_
    (h.objects.other (by decide) fun _ _ => Object.SameData.mono hq)
    (h.cells.other (by decide) fun _ _ => Value.Twin.mono hq)
    (h.models.other (by decide) fun _ _ => hq.pair)
  exact h.fits.join (World.Twin.count_addArray w us) (World.Twin.count_addArray w' vs) rfl rfl
    (Nat.lt_succ_self _) (Nat.lt_succ_self _) nofun

end World.SameData

theorem World.Twin.sameData (h : w.Twin G p w') : w.SameData True p w' where
  fits := h.fits
  objects := h.objects.mono (fun _ _ => id) fun _ _ ho key =>
    optionRel_mono (fun _ _ => Slot.Twin.sameData) (ho.slots key)
  cells := h.cells.mono (fun _ _ => id) fun _ _ => Cell.Twin.value
  models := h.models.mono (fun _ _ => id) fun _ _ => ViewModel.Twin.data
  named name := by
    rw [← h.names.models]
    cases hm : w.names.models.held[name]? with
    | none => exact .none
    | some m => exact .some (h.names.made name m hm)
  alive := h.modelAlive
  living m := h.pair_of_modelAlive
  saved := h.names.values

/-- A way for worlds and evaluations of two runs to be the same that readings keep up. Evaluations
are the same to those who ask about them only if `heeds`. -/
structure Likeness where
  heeds : Prop
  world : Pairing → World → World → Prop
  evaluation : Pairing → Evaluation → Evaluation → Prop
  sameData : ∀ {p w w'}, world p w w' → w.SameData heeds p w'
  addCell : ∀ {p w w' v v'}, world p w w' → v.Twin p v' →
    world (p.join w.cells.fresh w'.cells.fresh) (w.addCell v).2 (w'.addCell v').2
  addObject : ∀ {p w w'} {slots slots' : Keyed Slot}, world p w w' →
    (∀ key : String, Option.Rel (Slot.Cells p) slots[key]? slots'[key]?) →
    world (p.join w.objects.fresh w'.objects.fresh) (w.addObject { slots }).2
      (w'.addObject { slots := slots' }).2
  addArray : ∀ {p w w'} us vs, world p w w' →
    world (p.join w.nextArray w'.nextArray) (w.addArray us).2 (w'.addArray vs).2
  computed : ∀ {p w w'} c, world p w w' → world p (w.tell (.computed c)) (w'.tell (.computed c))
  nobody : ∀ {p}, evaluation p {} {}
  mono : ∀ {p q e e'}, p ≤ q → evaluation p e e' → evaluation q e e'
  register : ∀ {p w w' e e' source source'}, world p w w' → evaluation p e e' →
    source.Twin p source' →
    world p ((Mark.read source).leave (e, w)).2 ((Mark.read source').leave (e', w')).2 ∧
      evaluation p ((Mark.read source).leave (e, w)).1 ((Mark.read source').leave (e', w')).1
  heeded : ∀ {p e e'}, heeds → evaluation p e e' →
    e.subscriber.isSome = e'.subscriber.isSome ∧ e.registrations = e'.registrations

namespace Likeness

variable (L : Likeness)

mutual

theorem observe : ∀ (d : Document) {p : Pairing} {w w' : World}, L.world p w w' →
    ∃ q, p ≤ q ∧ (World.observe d w).1.Twin q (World.observe d w').1 ∧
      L.world q (World.observe d w).2 (World.observe d w').2
  | .null, p, _, _, h => ⟨p, le_rfl, .null, h⟩
  | .bool b, p, _, _, h => ⟨p, le_rfl, .bool b, h⟩
  | .number n, p, _, _, h => ⟨p, le_rfl, .number _, h⟩
  | .string s, p, _, _, h => ⟨p, le_rfl, .string s, h⟩
  | .array items, p, _, _, h => by
    obtain ⟨q, hq, hvs, hw⟩ := observeItems items h
    refine ⟨_, hq.trans (q.le_join _ _), .array ?_ (hvs.mono (q.le_join _ _)), L.addArray _ _ hw⟩
    exact Pairing.pair_join.2 (.inr ⟨rfl, rfl⟩)
  | .object fields, p, _, _, h => by
    have hnone (key : String) :
        Option.Rel (Slot.Cells p) (∅ : Keyed Slot)[key]? (∅ : Keyed Slot)[key]? := by simp
    obtain ⟨q, hq, hs, hw⟩ := observeFields fields hnone h
    refine ⟨_, hq.trans (q.le_join _ _), .object ?_, L.addObject hw hs⟩
    exact Pairing.pair_join.2 (.inr ⟨rfl, rfl⟩)
termination_by structural d => d

theorem observeItems : ∀ (ds : List Document) {p : Pairing} {w w' : World}, L.world p w w' →
    ∃ q, p ≤ q ∧ Value.Twins q (World.observeItems ds w).1 (World.observeItems ds w').1 ∧
      L.world q (World.observeItems ds w).2 (World.observeItems ds w').2
  | [], p, _, _, h => ⟨p, le_rfl, .nil, h⟩
  | d :: ds, p, _, _, h => by
    obtain ⟨q, hq, hv, hw⟩ := observe d h
    obtain ⟨l, hl, hvs, hw'⟩ := observeItems ds hw
    exact ⟨l, hq.trans hl, .cons (hv.mono hl) hvs, hw'⟩
termination_by structural ds => ds

theorem observeFields : ∀ (fields : List (String × Document)) {p : Pairing} {w w' : World}
    {slots slots' : Keyed Slot},
    (∀ key : String, Option.Rel (Slot.Cells p) slots[key]? slots'[key]?) → L.world p w w' →
    ∃ q, p ≤ q ∧ (∀ key : String, Option.Rel (Slot.Cells q)
        (World.observeFields fields slots w).1[key]?
        (World.observeFields fields slots' w').1[key]?) ∧
      L.world q (World.observeFields fields slots w).2 (World.observeFields fields slots' w').2
  | [], p, _, _, _, _, hs, h => ⟨p, le_rfl, hs, h⟩
  | (key, d) :: fields, p, _, _, _, _, hs, h => by
    obtain ⟨q, hq, hv, hw⟩ := observe d h
    obtain ⟨l, hl, hs', hw'⟩ := observeFields fields (optionRel_insert
      (fun key => optionRel_mono (fun _ _ => Slot.Cells.mono (hq.trans (q.le_join _ _))) (hs key))
      (show Slot.Cells _ (.cell _) (.cell _) from Pairing.pair_join.2 (.inr ⟨rfl, rfl⟩)) key)
      (L.addCell hw hv)
    exact ⟨l, (hq.trans (q.le_join _ _)).trans hl, hs', hw'⟩
termination_by structural fields => fields

end

end Likeness

end ViewBinding
