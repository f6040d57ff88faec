import ViewBinding.Proofs.Guests.Edits

/-! New things, which two runs have in common or the first has alone. -/

namespace ViewBinding

variable {G : List String} {p q : Pairing} {w w' : World}

namespace Pairing.Fits

variable {n n' l l' : Kind → Nat} {k : Kind} {a b : Ref k}

theorem join (h : p.Fits n n') (hn : ∀ k, n k ≤ l k) (hn' : ∀ k, n' k ≤ l' k)
    (ha : a.index = n k) (hb : b.index = n' k) (hal : a.index < l k) (hbl : b.index < l' k)
    (hm : k = .model → a.index = b.index) : (p.join a b).Fits l l' where
  -- A pair from before is of things that were made, and the new pair is of none of those.
  oneToOne := by
    intro j c c' d d' hcd hcd'
    obtain hcd | ⟨rfl, hc, hd⟩ := hcd
    · obtain hcd' | ⟨rfl, hc', hd'⟩ := hcd'
      · exact h.oneToOne hcd hcd'
      · have hlt := h.made hcd
        refine iff_of_false (fun e => ?_) fun e => ?_
        · rw [e, hc', ha] at hlt
          exact Nat.lt_irrefl _ hlt.1
        · rw [e, hd', hb] at hlt
          exact Nat.lt_irrefl _ hlt.2
    · obtain hcd' | ⟨-, hc', hd'⟩ := hcd'
      · have hlt := h.made hcd'
        refine iff_of_false (fun e => ?_) fun e => ?_
        · rw [← e, hc, ha] at hlt
          exact Nat.lt_irrefl _ hlt.1
        · rw [← e, hd, hb] at hlt
          exact Nat.lt_irrefl _ hlt.2
      · have e : c = c' := by cases c; cases c'; simp_all
        have e' : d = d' := by cases d; cases d'; simp_all
        exact iff_of_true e e'
  apart := by
    rintro r r' hr (hp | ⟨rfl, hc, -⟩)
    · exact h.apart hr hp
    · have hlt := h.guest hr
      rw [hc, ha] at hlt
      exact Nat.lt_irrefl _ hlt
  made := by
    rintro j c d (hcd | ⟨rfl, hc, hd⟩)
    · exact ⟨Nat.lt_of_lt_of_le (h.made hcd).1 (hn j), Nat.lt_of_lt_of_le (h.made hcd).2 (hn' j)⟩
    · rw [hc, hd]
      exact ⟨hal, hbl⟩
  guest hr := Nat.lt_of_lt_of_le (h.guest hr) (hn _)
  model := by
    rintro ⟨i⟩ ⟨j⟩ (hp | ⟨rfl, hc, hd⟩)
    · exact h.model hp
    · exact congrArg Ref.mk (hc.trans ((hm rfl).trans hd.symm))

theorem invite {r : Ref .watcher} (h : p.Fits n n') (hn : ∀ k, n k ≤ l k)
    (hr : r.index = n .watcher)
    (hl : r.index < l .watcher) : (p.invite r).Fits l n' where
  oneToOne := h.oneToOne
  apart := by
    rintro s s' (hs | rfl) hp
    · exact h.apart hs hp
    · exact Nat.lt_irrefl _ (hr ▸ (h.made hp).1)
  made hab := ⟨Nat.lt_of_lt_of_le (h.made hab).1 (hn _), (h.made hab).2⟩
  guest := by
    rintro s (hs | rfl)
    · exact Nat.lt_of_lt_of_le (h.guest hs) (hn _)
    · exact hl
  model := h.model

end Pairing.Fits

theorem Store.fresh_lt_add {k : Kind} {α : Type} (s : Store k α) (a : α) :
    s.fresh.index < (s.add a).size := by
  rw [size_add]
  exact Nat.lt_succ_self _

namespace World.Twin

variable {v v' : Value}

theorem addCell (h : w.Twin G p w') (hv : v.Twin p v') :
    (w.addCell v).2.Twin G (p.join w.cells.fresh w'.cells.fresh) (w'.addCell v').2 := by
  have hq := p.le_join w.cells.fresh w'.cells.fresh
  exact { h.toTwinElse.mono hq with
    fits := h.fits.join (World.count_cells (Store.size_le_add ..))
      (World.count_cells (Store.size_le_add ..)) rfl rfl (Store.fresh_lt_add ..)
      (Store.fresh_lt_add ..) nofun
    objects := h.objects.other (by decide) fun _ _ => Object.Twin.mono hq
    cells := h.cells.add (fun _ _ => h.cell_made) (fun _ _ => Pairing.pair_join.1)
      (fun _ _ => Cell.Twin.mono hq) ⟨hv.mono hq, .empty⟩
    watchers := h.watchers.other (by decide) fun _ _ => Watcher.Twin.mono hq
    guests := h.guests
    listed := h.listed.mono (fun _ => id) fun _ _ => hq.pair
    models := h.models.other (by decide) fun _ _ => ViewModel.Twin.mono hq }

theorem addObject (h : w.Twin G p w') {o o' : Object} (ho : o.Twin p o') :
    (w.addObject o).2.Twin G (p.join w.objects.fresh w'.objects.fresh) (w'.addObject o').2 := by
  have hq := p.le_join w.objects.fresh w'.objects.fresh
  exact { h.toTwinElse.mono hq with
    fits := h.fits.join (World.count_objects (Store.size_le_add ..))
      (World.count_objects (Store.size_le_add ..)) rfl rfl (Store.fresh_lt_add ..)
      (Store.fresh_lt_add ..) nofun
    objects := h.objects.add (fun _ _ => h.object_made) (fun _ _ => Pairing.pair_join.1)
      (fun _ _ => Object.Twin.mono hq) (ho.mono hq)
    cells := h.cells.other (by decide) fun _ _ => Cell.Twin.mono hq
    watchers := h.watchers.other (by decide) fun _ _ => Watcher.Twin.mono hq
    guests := h.guests
    listed := h.listed.mono (fun _ => id) fun _ _ => hq.pair
    models := h.models.other (by decide) fun _ _ => ViewModel.Twin.mono hq }

theorem count_addArray (w : World) (items : List Value) (k : Kind) :
    w.count k ≤ (w.addArray items).2.count k := by
  cases k <;> first | exact Nat.le_refl _ | exact Nat.le_succ _

theorem addArray (h : w.Twin G p w') (us vs : List Value) :
    (w.addArray us).2.Twin G (p.join w.nextArray w'.nextArray) (w'.addArray vs).2 := by
  have hq := p.le_join w.nextArray w'.nextArray
  exact { h.toTwinElse.mono hq with
    fits := h.fits.join (count_addArray w us) (count_addArray w' vs) rfl rfl (Nat.lt_succ_self _)
      (Nat.lt_succ_self _) nofun
    objects := h.objects.other (by decide) fun _ _ => Object.Twin.mono hq
    cells := h.cells.other (by decide) fun _ _ => Cell.Twin.mono hq
    watchers := h.watchers.other (by decide) fun _ _ => Watcher.Twin.mono hq
    guests := h.guests
    listed := h.listed.mono (fun _ => id) fun _ _ => hq.pair
    models := h.models.other (by decide) fun _ _ => ViewModel.Twin.mono hq }

theorem addCellLeft (h : w.Twin G p w') (v : Value) : (w.addCell v).2.Twin G p w' :=
  { h with
    fits := h.fits.grow (World.count_cells (Store.size_le_add ..)) fun _ => Nat.le_refl _
    cells := h.cells.addLeft fun _ _ hc => (h.cell_made hc).1 }

theorem addObjectLeft (h : w.Twin G p w') (o : Object) : (w.addObject o).2.Twin G p w' :=
  { h with
    fits := h.fits.grow (World.count_objects (Store.size_le_add ..)) fun _ => Nat.le_refl _
    objects := h.objects.addLeft fun _ _ ho => (h.object_made ho).1 }

theorem addArrayLeft (h : w.Twin G p w') (items : List Value) :
    (w.addArray items).2.Twin G p w' :=
  { h with fits := h.fits.grow (count_addArray w items) fun _ => Nat.le_refl _ }

mutual

theorem observeLeft : ∀ (d : Document) {w : World}, w.Twin G p w' →
    (World.observe d w).2.Twin G p w'
  | .null, _, h => h
  | .bool _, _, h => h
  | .number _, _, h => h
  | .string _, _, h => h
  | .array items, _, h => (observeItemsLeft items h).addArrayLeft _
  | .object fields, _, h => (observeFieldsLeft fields ∅ h).addObjectLeft _
termination_by structural d => d

theorem observeItemsLeft : ∀ (ds : List Document) {w : World}, w.Twin G p w' →
    (World.observeItems ds w).2.Twin G p w'
  | [], _, h => h
  | d :: ds, _, h => observeItemsLeft ds (observeLeft d h)
termination_by structural ds => ds

theorem observeFieldsLeft : ∀ (fields : List (String × Document)) (slots : Keyed Slot) {w : World},
    w.Twin G p w' → (World.observeFields fields slots w).2.Twin G p w'
  | [], _, _, h => h
  | (_, d) :: fields, _, _, h => observeFieldsLeft fields _ ((observeLeft d h).addCellLeft _)
termination_by structural fields => fields

end

/-! Watchers. -/

theorem addWatcher (h : w.Twin G p w') {r r' : Watcher} (hr : r.Twin G p r') :
    World.Twin G (p.join w.watchers.fresh w'.watchers.fresh)
      { w with watchers := w.watchers.add r } { w' with watchers := w'.watchers.add r' } := by
  have hq := p.le_join w.watchers.fresh w'.watchers.fresh
  refine { h.toTwinElse.mono hq with
    fits := h.fits.join (World.count_watchers (Store.size_le_add ..))
      (World.count_watchers (Store.size_le_add ..)) rfl rfl (Store.fresh_lt_add ..)
      (Store.fresh_lt_add ..) nofun
    objects := h.objects.other (by decide) fun _ _ => Object.Twin.mono hq
    cells := h.cells.other (by decide) fun _ _ => Cell.Twin.mono hq
    watchers := h.watchers.add (fun _ _ => h.watcher_made) (fun _ _ => Pairing.pair_join.1)
      (fun _ _ => Watcher.Twin.mono hq) (hr.mono hq)
    guests := fun s hs => ?_
    listed := ?_
    models := h.models.other (by decide) fun _ _ => ViewModel.Twin.mono hq }
  · rw [Store.get_add_of_lt _ _ (h.fits.guest hs)]
    exact h.guests s hs
  · rw [Store.refs_add, Store.refs_add]
    have hlisted := h.listed.mono (fun _ => id) fun _ _ => hq.pair
    exact hlisted.snoc (Pairing.pair_join.2 (.inr ⟨rfl, rfl⟩))

theorem addGuest (h : w.Twin G p w') {r : Watcher} (hr : r.Guest G) :
    World.Twin G (p.invite w.watchers.fresh) { w with watchers := w.watchers.add r } w' := by
  have hq := p.le_invite w.watchers.fresh
  refine { h.toTwinElse.mono hq with
    fits := h.fits.invite (World.count_watchers (Store.size_le_add ..)) rfl (Store.fresh_lt_add ..)
    objects := h.objects.mono (fun _ _ => id) fun _ _ => Object.Twin.mono hq
    cells := h.cells.mono (fun _ _ => id) fun _ _ => Cell.Twin.mono hq
    watchers := (h.watchers.addLeft fun _ _ hs => (h.watcher_made hs).1).mono (fun _ _ => id)
      fun _ _ => Watcher.Twin.mono hq
    guests := fun s hs => ?_
    listed := ?_
    models := h.models.mono (fun _ _ => id) fun _ _ => ViewModel.Twin.mono hq }
  · obtain hs | rfl := hs
    · rw [Store.get_add_of_lt _ _ (h.fits.guest hs)]
      exact h.guests s hs
    · rw [Store.get_add, if_pos rfl]
      exact hr
  · rw [Store.refs_add]
    exact (h.listed.mono (fun _ => hq.guest) fun _ _ => hq.pair).snocExtra (.inr rfl)

theorem setWatcher (h : w.Twin G p w') {r r' : Ref .watcher} (hr : p.pair r r')
    (hv : v.Twin p v') : World.Twin G p
      { w with watchers := w.watchers.modify r fun watcher => { watcher with value := v } }
      { w' with
        watchers := w'.watchers.modify r' fun watcher => { watcher with value := v' } } := by
  obtain ⟨hlt, hlt'⟩ := h.watcher_made hr
  have hw := h.watchers r r' hr
  refine { h with
    fits := h.fits.grow (World.count_watchers (Store.size_le_modify ..))
      (World.count_watchers (Store.size_le_modify ..))
    watchers := h.watchers.modify h.fits.oneToOne hr hlt hlt' { hw with value := hv }
    guests := fun s hs => ?_
    listed := ?_ }
  · have hne : r ≠ s := fun e => h.fits.apart (e ▸ hs) hr
    rw [Store.get_modify_of_ne _ _ hne]
    exact h.guests s hs
  · rw [Store.refs_modify, Store.refs_modify]
    exact h.listed

theorem setGuest (h : w.Twin G p w') {r : Ref .watcher} (hr : p.guest r) (v : Value) :
    World.Twin G p
    { w with watchers := w.watchers.modify r fun watcher => { watcher with value := v } } w' := by
  refine { h with
    fits := h.fits.grow (World.count_watchers (Store.size_le_modify ..)) fun _ => Nat.le_refl _
    watchers := h.watchers.modifyLeft fun r' hr' => absurd hr' (h.fits.apart hr)
    guests := fun s hs => ?_
    listed := ?_ }
  · obtain e | ⟨rfl, -, e⟩ := w.watchers.get_modify_cases r s
      fun watcher => { watcher with value := v }
    · rw [e]
      exact h.guests s hs
    · rw [e]
      exact h.guests r hs
  · rw [Store.refs_modify]
    exact h.listed

/-! View-models, reactions and registries. -/

theorem addModel (h : w.Twin G p w') {m m' : ViewModel} (hm : m.Twin G p m') :
    World.Twin G (p.join w.models.fresh w'.models.fresh)
      { w with models := w.models.add m } { w' with models := w'.models.add m' } := by
  have hq := p.le_join w.models.fresh w'.models.fresh
  have hsize : (w.models.add m).size = (w'.models.add m').size := by
    rw [Store.size_add, Store.size_add, h.modelsSize]
  exact { h.toTwinElse.mono hq with
    fits := h.fits.join (World.count_models (Store.size_le_add ..))
      (World.count_models (Store.size_le_add ..)) rfl rfl (Store.fresh_lt_add ..)
      (Store.fresh_lt_add ..) fun _ => h.modelsSize
    objects := h.objects.other (by decide) fun _ _ => Object.Twin.mono hq
    cells := h.cells.other (by decide) fun _ _ => Cell.Twin.mono hq
    watchers := h.watchers.other (by decide) fun _ _ => Watcher.Twin.mono hq
    guests := h.guests
    listed := h.listed.mono (fun _ => id) fun _ _ => hq.pair
    modelsSize := hsize
    models := h.models.add (fun _ _ => h.fits.made) (fun _ _ => Pairing.pair_join.1)
      (fun _ _ => ViewModel.Twin.mono hq) (hm.mono hq) }

theorem own (h : w.Twin G p w') {m : Ref .model} (hm : p.pair m m) {r r' : Ref .watcher}
    (hr : p.pair r r') : World.Twin G p
      { w with models := w.models.modify m fun model =>
          { model with watchers := model.watchers ++ [r] } }
      { w' with models := w'.models.modify m fun model =>
          { model with watchers := model.watchers ++ [r'] } } := by
  have hmodel := h.models m m hm
  have hsize : (w.models.modify m fun model =>
      { model with watchers := model.watchers ++ [r] }).size = (w'.models.modify m fun model =>
        { model with watchers := model.watchers ++ [r'] }).size := by
    rw [Store.size_modify, Store.size_modify, h.modelsSize]
  exact { h with
    fits := h.fits.grow (World.count_models (Store.size_le_modify ..))
      (World.count_models (Store.size_le_modify ..))
    modelsSize := hsize
    models := h.models.modify h.fits.oneToOne hm (h.fits.made hm).1 (h.fits.made hm).2
      ⟨hmodel.data, hmodel.fair, hmodel.methods, hmodel.watchers.snoc hr⟩ }

theorem ownGuest (h : w.Twin G p w') (m : Ref .model) {r : Ref .watcher} (hr : p.guest r) :
    World.Twin G p
      { w with models := w.models.modify m fun model =>
          { model with watchers := model.watchers ++ [r] } } w' := by
  have hsize : (w.models.modify m fun model =>
      { model with watchers := model.watchers ++ [r] }).size = w'.models.size := by
    rw [Store.size_modify, h.modelsSize]
  exact { h with
    fits := h.fits.grow (World.count_models (Store.size_le_modify ..)) fun _ => Nat.le_refl _
    modelsSize := hsize
    models := h.models.modifyLeft fun _ _ hmodel =>
      ⟨hmodel.data, hmodel.fair, hmodel.methods, hmodel.watchers.snocExtra hr⟩ }

theorem addReaction (h : w.Twin G p w') {r r' : Reaction} (hr : r.Twin G r') :
    World.Twin G p { w with reactions := w.reactions.add r }
      { w' with reactions := w'.reactions.add r' } := by
  have hfresh : w.reactions.fresh = w'.reactions.fresh := congrArg Ref.mk h.reactionsSize
  refine { h with reactionsSize := ?_, reactions := fun s => ?_ }
  · rw [Store.size_add, Store.size_add, h.reactionsSize]
  · rw [Store.get_add, Store.get_add, hfresh]
    split
    · exact hr
    · exact h.reactions s

theorem addRegistry (h : w.Twin G p w') :
    World.Twin G p { w with registries := w.registries.add {} }
      { w' with registries := w'.registries.add {} } := by
  have hfresh : w.registries.fresh = w'.registries.fresh := congrArg Ref.mk h.registriesSize
  refine { h with registriesSize := ?_, registries := fun s => ?_ }
  · rw [Store.size_add, Store.size_add, h.registriesSize]
  · rw [Store.get_add, Store.get_add, hfresh]
    split
    · exact .empty
    · exact h.registries s

end World.Twin

end ViewBinding
