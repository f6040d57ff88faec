import ViewBinding.Proofs.Course.Updates
import ViewBinding.Proofs.Documents.Observed
import ViewBinding.Proofs.Guests.Exprs

/-! Computed properties may make new data, but all that was there before stays as it was. To those
who do not ask about their evaluation, whatever they read after that is the same but for the
identities of what they make themselves. -/

namespace ViewBinding

structure World.Retains (w w' : World) : Prop where
  count : ∀ k, w.count k ≤ w'.count k
  object : ∀ o, o.index < w.objects.size → (w'.objects.get o).slots = (w.objects.get o).slots
  cell : ∀ c, c.index < w.cells.size → (w'.cells.get c).value = (w.cells.get c).value
  model : ∀ m, m.index < w.models.size → (w'.models.get m).data = (w.models.get m).data
  models : w'.names.models = w.names.models
  values : w'.names.values = w.names.values
  modelsInUse : w'.modelsInUse = w.modelsInUse

section

variable {w w' w'' : World} {hs : List Happening}

namespace World.Retains

theorem refl (w : World) : w.Retains w where
  count _ := Nat.le_refl _
  object _ _ := rfl
  cell _ _ := rfl
  model _ _ := rfl
  models := rfl
  values := rfl
  modelsInUse := rfl

theorem trans (h : w.Retains w') (h' : w'.Retains w'') : w.Retains w'' where
  count k := Nat.le_trans (h.count k) (h'.count k)
  object o ho := (h'.object o (Nat.lt_of_lt_of_le ho (h.count .object))).trans (h.object o ho)
  cell c hc := (h'.cell c (Nat.lt_of_lt_of_le hc (h.count .cell))).trans (h.cell c hc)
  model m hm := (h'.model m (Nat.lt_of_lt_of_le hm (h.count .model))).trans (h.model m hm)
  models := h'.models.trans h.models
  values := h'.values.trans h.values
  modelsInUse := h'.modelsInUse.trans h.modelsInUse

theorem ofGrown (h : w.Grown w') (ha : w.nextArray.index ≤ w'.nextArray.index) : w.Retains w' where
  count k := by
    cases k with
    | object => exact h.objects
    | cell => exact h.cells
    | array => exact ha
    | watcher => exact Nat.le_of_eq (congrArg Store.size h.watchers.symm)
    | model => exact h.models
    | _ => exact Nat.le_refl _
  object o ho := congrArg Object.slots (h.object o ho)
  cell c hc := congrArg Cell.value (h.cell c hc)
  model m hm := congrArg ViewModel.data (h.model m hm)
  models := congrArg Names.models h.names
  values := congrArg Names.values h.names
  modelsInUse := h.modelsInUse

theorem setRegistry (w : World) (source : Source) (registry : Registry) :
    w.Retains (w.setRegistry source registry) where
  count k := Nat.le_of_eq (congrFun (w.count_setRegistry source registry) k).symm
  object o _ := by
    cases source with
    | waiting o' key =>
      obtain e | ⟨-, -, e⟩ := w.objects.get_modify_cases o' o fun object =>
        { object with waiting := object.waiting.insert key registry }
      · exact congrArg Object.slots e
      · exact (congrArg Object.slots e :)
    | _ => rfl
  cell c _ := by
    cases source with
    | cell c' => exact w.value_modify_registry c' (fun _ => registry) c
    | _ => rfl
  model _ _ := by cases source <;> rfl
  models := by cases source <;> rfl
  values := by cases source <;> rfl
  modelsInUse := by cases source <;> rfl

theorem addWatcher (w : World) (watcher : Watcher) : w.Retains (w.addWatcher watcher) :=
  { refl w with count := World.count_watchers (Store.size_le_add ..) }

theorem remember (w : World) (r : Ref .watcher) (v : Value) : w.Retains (w.remember r v) :=
  { refl w with count := World.count_watchers (Store.size_le_modify ..) }

theorem keepWatcher (w : World) (m : Ref .model) (r : Ref .watcher) :
    w.Retains (w.keepWatcher m r) := by
  refine { refl w with
    count := World.count_models (Store.size_le_modify ..)
    model := fun m' _ => ?_ }
  obtain e | ⟨-, -, e⟩ := w.models.get_modify_cases m m' fun model =>
    { model with watchers := model.watchers ++ [r] }
  · exact congrArg ViewModel.data e
  · exact (congrArg ViewModel.data e :)

end World.Retains

theorem World.Glance.retains (h : w.Glance hs w') : w.Retains w' := by
  cases h with
  | register => exact .setRegistry w _ _
  | observe d => exact .ofGrown (observe_grown d w).1 (observe_arrays d w)
  | array items => exact .ofGrown (.addArray w items) (Nat.le_succ _)
  | computed => exact { Retains.refl w with }

theorem World.Glances.retains (h : w.Glances hs w') : w.Retains w' :=
  h.relates (fun _ _ _ => Glance.retains) .refl fun _ _ _ => .trans

end

section

variable {heeds : Prop} {p : Pairing} {w w' v v' : World}

theorem Pairing.Fits.flip {n n' : Kind → Nat} (h : p.Fits n n') : p.flip.Fits n' n where
  oneToOne hab hcd := (h.oneToOne hab hcd).symm
  apart hr := hr.elim
  made hab := (h.made hab).symm
  guest hr := hr.elim
  model hab := (h.model hab).symm

theorem Slot.SameData.flip {s s' : Slot} (h : s.SameData heeds p s') :
    s'.SameData heeds p.flip s := by
  cases s <;> cases s' <;> first | exact False.elim h | skip
  · exact h
  · obtain ⟨rfl, hh⟩ := h
    exact ⟨rfl, hh⟩

namespace World.SameData

theorem flip (h : w.SameData heeds p w') : w'.SameData heeds p.flip w where
  fits := h.fits.flip
  objects o' o ho key := optionRel_flip (fun _ _ => Slot.SameData.flip) (h.objects o o' ho key)
  cells c' c hc := Value.Twin.flip (h.cells c c' hc)
  models m' m hm := h.models m m' hm
  named name := optionRel_flip (fun _ _ => id) (h.named name)
  alive m := (h.alive m).symm
  living m hm := h.living m (h.alive m ▸ hm)
  saved name := optionRel_flip (fun _ _ => Value.Twin.flip) (h.saved name)

theorem later (h : w.SameData heeds p v) (hw : w.Retains w') (hv : v.Retains v') :
    w'.SameData heeds p v' where
  fits := h.fits.grow hw.count hv.count
  objects o o' ho key := by
    rw [hw.object o (h.fits.made ho).1, hv.object o' (h.fits.made ho).2]
    exact h.objects o o' ho key
  cells c c' hc := by
    rw [Cell.SameData, hw.cell c (h.fits.made hc).1, hv.cell c' (h.fits.made hc).2]
    exact h.cells c c' hc
  models m m' hm := by
    rw [ViewModel.SameData, hw.model m (h.fits.made hm).1, hv.model m' (h.fits.made hm).2]
    exact h.models m m' hm
  named name := by
    rw [hw.models, hv.models]
    exact h.named name
  alive m := by
    rw [World.modelAlive, World.modelAlive, hw.models, hv.models, hw.modelsInUse, hv.modelsInUse]
    exact h.alive m
  living m hm := by
    rw [World.modelAlive, hw.models, hw.modelsInUse] at hm
    exact h.living m hm
  saved name := by
    rw [hw.values, hv.values]
    exact h.saved name

end World.SameData

def Likeness.heedless : Likeness where
  heeds := False
  world := World.SameData False
  evaluation _ _ _ := True
  sameData := id
  addCell h hv := h.addCell hv
  addObject h hs := h.addObject hs
  addArray us vs h := h.addArray us vs
  computed c h := h.later { World.Retains.refl _ with } { World.Retains.refl _ with }
  nobody := trivial
  mono _ := id
  register {p w w' e e' source source'} h _ _ := by
    have leave (source : Source) (e : Evaluation) (w : World) :
        w.Retains ((Mark.read source).leave (e, w)).2 := by
      obtain ⟨_ | s, n⟩ := e
      · exact .refl w
      · simp only [Mark.leave]
        cases (w.registry source).add? s with
        | none => exact .refl w
        | some registry => exact .setRegistry w source registry
    exact ⟨h.later (leave ..) (leave ..), trivial⟩
  heeded h := h.elim

end

end ViewBinding
