import ViewBinding.Proofs.Guests.Worlds

/-! Changes that two worlds go through together, or that the first goes through alone, and after
which they are still the same. -/

namespace ViewBinding

variable {G : List String} {p q : Pairing} {w w' : World}

/-! What is shown, and what is in use. -/

theorem Effect.Twin.shown {e e' : Effect} (h : e.Twin p e') : e.shown G = e'.shown G := by
  cases e <;> cases e' <;> first | exact congrArg (fun id => decide (id ∉ G)) h.1 | rfl | cases h

namespace Effect.Twins

variable {es es' : Array Effect} {e e' : Effect}

theorem push (h : Effect.Twins G p es es') (he : e.Twin p e') :
    Effect.Twins G p (es.push e) (es'.push e') := by
  rw [Twins, Array.toList_push, Array.toList_push, List.filter_append, List.filter_append]
  refine List.rel_append h ?_
  cases hs : e.shown G with
  | false => simp [List.filter, hs, ← he.shown (G := G)]
  | true => simpa [List.filter, hs, ← he.shown (G := G)] using he

theorem pushLeft (h : Effect.Twins G p es es') (he : e.shown G = false) :
    Effect.Twins G p (es.push e) es' := by
  rw [Twins, Array.toList_push, List.filter_append, List.filter_singleton, he]
  rwa [cond_false, List.append_nil]

theorem pushRight (h : Effect.Twins G p es es') (he : e.shown G = false) :
    Effect.Twins G p es (es'.push e) := by
  rw [Twins, Array.toList_push, List.filter_append, List.filter_singleton, he]
  rwa [cond_false, List.append_nil]

end Effect.Twins

namespace World.Twin

variable {m : Ref .model} {s s' : Subscriber} {ss ss' : List Subscriber} {x x' : Happening}

theorem tell (h : w.Twin G p w') (hx : x.Twin p x') : (w.tell x).Twin G p (w'.tell x') := by
  refine { h with trace := ?_ }
  rw [World.tell, World.tell, Array.filterMap_push (Array.size_push _),
    Array.filterMap_push (Array.size_push _)]
  rw [Happening.Twin] at hx
  revert hx
  generalize x.effect? = e, x'.effect? = e'
  rintro (he | _)
  · exact h.trace.push he
  · exact h.trace

theorem tellLeft (h : w.Twin G p w') (hx : x.shown G = false) : (w.tell x).Twin G p w' := by
  refine { h with trace := ?_ }
  rw [World.tell, Array.filterMap_push (Array.size_push _)]
  rw [Happening.shown] at hx
  cases he : x.effect? with
  | none => exact h.trace
  | some e => exact h.trace.pushLeft (by rwa [he] at hx)

theorem tellRight (h : w.Twin G p w') (hx : x.shown G = false) : w.Twin G p (w'.tell x) := by
  refine { h with trace := ?_ }
  rw [World.tell, Array.filterMap_push (Array.size_push _)]
  rw [Happening.shown] at hx
  cases he : x.effect? with
  | none => exact h.trace
  | some e => exact h.trace.pushRight (by rwa [he] at hx)

theorem setView (h : w.Twin G p w') (v : View) :
    World.Twin G p { w with view := v } { w' with view := v } := { h with view := rfl }

theorem meet (h : w.Twin G p w') (ns : List (Ref .node)) : (w.meet ns).Twin G p (w'.meet ns) := by
  have hk : ns.foldl (fun known n => known.insert n.index) w.knownNodes =
      ns.foldl (fun known n => known.insert n.index) w'.knownNodes := by rw [h.knownNodes]
  exact { h with knownNodes := hk }

theorem useModel (h : w.Twin G p w') (hm : p.pair m m) :
    (w.useModel m).Twin G p (w'.useModel m) := by
  refine { h with modelsInUse := congrArg (m :: ·) h.modelsInUse, used := fun m' hm' => ?_ }
  obtain rfl | hm' := List.mem_cons.1 hm'
  · exact hm
  · exact h.used m' hm'

theorem releaseModel (h : w.Twin G p w') (m : Ref .model) :
    (w.releaseModel m).Twin G p (w'.releaseModel m) :=
  { h with
    modelsInUse := congrArg (·.erase m) h.modelsInUse
    used := fun m' hm' => h.used m' (List.mem_of_mem_erase hm') }

theorem useSubscribers (h : w.Twin G p w') (hs : Interlaced p.stranger p.same ss ss') :
    (w.useSubscribers ss).Twin G p (w'.useSubscribers ss') :=
  { h with subscribersInUse := hs.append h.subscribersInUse }

theorem releaseSubscriber (h : w.Twin G p w') (hs : p.same s s') :
    (w.releaseSubscriber s).Twin G p (w'.releaseSubscriber s') :=
  { h with
    subscribersInUse := h.subscribersInUse.erase (fun hg => h.stranger_not_same hg hs)
      fun _ _ hc => Pairing.same_iff h.fits.oneToOne hc hs }

theorem releaseGuest (h : w.Twin G p w') (hs : p.stranger s) :
    (w.releaseSubscriber s).Twin G p w' :=
  { h with subscribersInUse := h.subscribersInUse.eraseExtra fun _ => h.stranger_not_same hs }

end World.Twin

/-! Names. -/

theorem optionRel_insert {α β : Type} {R : α → β → Prop} {t : Keyed α} {t' : Keyed β} {a : α}
    {b : β}
    (h : ∀ key : String, Option.Rel R t[key]? t'[key]?) (hab : R a b) (key key' : String) :
    Option.Rel R (t.insert key a)[key']? (t'.insert key b)[key']? := by
  rw [Std.ExtTreeMap.getElem?_insert, Std.ExtTreeMap.getElem?_insert]
  split
  · exact .some hab
  · exact h key'

namespace Names.Twin

variable {n n' : Names} {name id : String} {m : Ref .model} {r r' : Ref .watcher}

theorem bindModel (h : n.Twin G p n') (hm : p.pair m m) :
    Names.Twin G p { n with models := n.models.bind name m }
      { n' with models := n'.models.bind name m } := by
  refine { h with
    models := congrArg (Holder.bind · name m) h.models
    made := fun name' m' hm' => ?_ }
  rw [Holder.bind, Std.ExtTreeMap.getElem?_insert] at hm'
  split at hm'
  · cases hm'
    exact hm
  · exact h.made name' m' hm'

theorem dropModel (h : n.Twin G p n') (name : String) :
    Names.Twin G p { n with models := n.models.drop name }
      { n' with models := n'.models.drop name } := by
  refine { h with models := congrArg (Holder.drop · name) h.models, made := fun name' m' hm' => ?_ }
  rw [Holder.drop, Std.ExtTreeMap.getElem?_erase] at hm'
  split at hm'
  · cases hm'
  · exact h.made name' m' hm'

theorem bindWatcher (h : n.Twin G p n') (hid : id ∉ G) (hr : p.pair r r') :
    Names.Twin G p { n with watchers := n.watchers.bind id r }
      { n' with watchers := n'.watchers.bind id r' } := by
  refine { h with watchers := fun id' hid' => ?_, guests := fun id' hid' => ?_ }
  · simp only [Holder.bind, Std.ExtTreeMap.getElem?_insert]
    split
    · exact .some hr
    · exact h.watchers id' hid'
  · have hne : ¬compare id id' = .eq := fun e => hid (Std.LawfulEqCmp.eq_of_compare e ▸ hid')
    simp only [Holder.bind, Std.ExtTreeMap.getElem?_insert, if_neg hne]
    exact h.guests id' hid'

theorem bindGuest (h : n.Twin G p n') (hid : id ∈ G) (hr : p.guest r) :
    Names.Twin G p { n with watchers := n.watchers.bind id r } n' := by
  refine { h with watchers := fun id' hid' => ?_, guests := fun id' hid' => ?_ }
  · have hne : ¬compare id id' = .eq := fun e => hid' (Std.LawfulEqCmp.eq_of_compare e ▸ hid)
    simp only [Holder.bind, Std.ExtTreeMap.getElem?_insert, if_neg hne]
    exact h.watchers id' hid'
  · refine ⟨fun r' hr' => ?_, (h.guests id' hid').2⟩
    simp only [Holder.bind, Std.ExtTreeMap.getElem?_insert] at hr'
    split at hr'
    · cases hr'
      exact hr
    · exact (h.guests id' hid').1 r' hr'

theorem dropWatcher (h : n.Twin G p n') (id : String) :
    Names.Twin G p { n with watchers := n.watchers.drop id }
      { n' with watchers := n'.watchers.drop id } := by
  refine { h with watchers := fun id' hid' => ?_, guests := fun id' hid' => ⟨fun r hr => ?_, ?_⟩ }
  · simp only [Holder.drop, Std.ExtTreeMap.getElem?_erase]
    split
    · exact .none
    · exact h.watchers id' hid'
  · simp only [Holder.drop, Std.ExtTreeMap.getElem?_erase] at hr
    split at hr
    · cases hr
    · exact (h.guests id' hid').1 r hr
  · simp only [Holder.drop, Std.ExtTreeMap.getElem?_erase, (h.guests id' hid').2, ite_self]

theorem dropGuest (h : n.Twin G p n') (hid : id ∈ G) :
    Names.Twin G p { n with watchers := n.watchers.drop id } n' := by
  refine { h with
    watchers := fun id' hid' => ?_
    guests := fun id' hid' => ⟨fun r hr => ?_, (h.guests id' hid').2⟩ }
  · have hne : ¬compare id id' = .eq := fun e => hid' (Std.LawfulEqCmp.eq_of_compare e ▸ hid)
    simp only [Holder.drop, Std.ExtTreeMap.getElem?_erase, if_neg hne]
    exact h.watchers id' hid'
  · simp only [Holder.drop, Std.ExtTreeMap.getElem?_erase] at hr
    split at hr
    · cases hr
    · exact (h.guests id' hid').1 r hr

end Names.Twin

theorem World.Twin.setNames {n n' : Names} (h : w.Twin G p w') (hn : n.Twin G p n') :
    World.Twin G p { w with names := n } { w' with names := n' } := { h with names := hn }

theorem World.Twin.setNamesLeft {n : Names} (h : w.Twin G p w') (hn : n.Twin G p w'.names) :
    World.Twin G p { w with names := n } w' := { h with names := hn }

/-! Registries. -/

namespace Registry.Twin

variable {r r' : Registry} {s s' : Subscriber}

theorem empty : Registry.Twin p {} {} := ⟨.empty, .empty, .nil⟩

theorem prune (h : r.Twin p r') {alive alive' : Subscriber → Bool}
    (ha : ∀ s s', p.same s s' → alive s = alive' s') :
    (r.prune alive).Twin p (r'.prune alive') :=
  ⟨h.sound.prune alive, h.sound'.prune alive', h.order.filter ha⟩

theorem live (h : r.Twin p r') {alive alive' : Subscriber → Bool}
    (ha : ∀ s s', p.same s s' → alive s = alive' s') :
    Interlaced p.stranger p.same (r.live alive) (r'.live alive') := h.order.filter ha

theorem add? (h : r.Twin p r') (hp : p.OneToOne) (hg : ¬p.stranger s) (hs : p.same s s') :
    Option.Rel (Registry.Twin p) (r.add? s) (r'.add? s') := by
  have hmem : s ∈ r.order ↔ s' ∈ r'.order :=
    h.order.mem_iff hg fun _ _ hc => Pairing.same_iff hp hc hs
  rw [h.sound.members, h.sound'.members] at hmem
  cases hr : r.add? s with
  | none =>
    rw [(r'.add?_eq_none_iff s').2 (hmem.1 ((r.add?_eq_none_iff s).1 hr))]
    exact .none
  | some q =>
    cases hr' : r'.add? s' with
    | none =>
      rw [(r.add?_eq_none_iff s).2 (hmem.2 ((r'.add?_eq_none_iff s').1 hr'))] at hr
      cases hr
    | some q' =>
      refine .some ⟨h.sound.add? hr, h.sound'.add? hr', ?_⟩
      rw [Registry.order_add? hr, Registry.order_add? hr']
      exact h.order.snoc hs

theorem addGuest (h : r.Twin p r') {q : Registry} (hs : p.stranger s) (hq : r.add? s = some q) :
    q.Twin p r' := by
  refine ⟨h.sound.add? hq, h.sound', ?_⟩
  rw [Registry.order_add? hq]
  exact h.order.snocExtra hs

end Registry.Twin

theorem Pairing.Fits.grow {n n' l l' : Kind → Nat} (h : p.Fits n n') (hn : ∀ k, n k ≤ l k)
    (hn' : ∀ k, n' k ≤ l' k) : p.Fits l l' where
  oneToOne := h.oneToOne
  apart := h.apart
  made hab := ⟨Nat.lt_of_lt_of_le (h.made hab).1 (hn _), Nat.lt_of_lt_of_le (h.made hab).2 (hn' _)⟩
  guest hr := Nat.lt_of_lt_of_le (h.guest hr) (hn _)
  model := h.model

namespace World

variable {v : World}

theorem count_cells {s : Store .cell Cell} (h : w.cells.size ≤ s.size) (k : Kind) :
    w.count k ≤ { w with cells := s }.count k := by
  cases k <;> first | exact h | exact Nat.le_refl _

theorem count_objects {s : Store .object Object} (h : w.objects.size ≤ s.size) (k : Kind) :
    w.count k ≤ { w with objects := s }.count k := by
  cases k <;> first | exact h | exact Nat.le_refl _

theorem count_watchers {s : Store .watcher Watcher} (h : w.watchers.size ≤ s.size) (k : Kind) :
    w.count k ≤ { w with watchers := s }.count k := by
  cases k <;> first | exact h | exact Nat.le_refl _

theorem count_models {s : Store .model ViewModel} (h : w.models.size ≤ s.size) (k : Kind) :
    w.count k ≤ { w with models := s }.count k := by
  cases k <;> first | exact h | exact Nat.le_refl _

end World

theorem Store.size_le_modify {k : Kind} {α : Type} (s : Store k α) (r : Ref k) (f : α → α) :
    s.size ≤ (s.modify r f).size := Nat.le_of_eq (s.size_modify r f).symm

theorem Store.size_le_add {k : Kind} {α : Type} (s : Store k α) (a : α) :
    s.size ≤ (s.add a).size := by
  rw [size_add]
  exact Nat.le_succ _

theorem World.count_setRegistry (w : World) (source : Source) (registry : Registry) :
    (w.setRegistry source registry).count = w.count := by
  funext k
  cases source <;> cases k <;> first | rfl | exact Store.size_modify ..

namespace World.Twin

variable {source source' : Source} {registry registry' : Registry} {r r' : Ref .watcher}
  {c c' : Ref .cell} {o o' : Ref .object}

theorem cell_made (h : w.Twin G p w') (hc : p.pair c c') :
    c.index < w.cells.size ∧ c'.index < w'.cells.size := h.fits.made hc

theorem object_made (h : w.Twin G p w') (ho : p.pair o o') :
    o.index < w.objects.size ∧ o'.index < w'.objects.size := h.fits.made ho

theorem watcher_made (h : w.Twin G p w') (hr : p.pair r r') :
    r.index < w.watchers.size ∧ r'.index < w'.watchers.size := h.fits.made hr

theorem setRegistry (h : w.Twin G p w') (hs : source.Twin p source')
    (hr : registry.Twin p registry') :
    (w.setRegistry source registry).Twin G p (w'.setRegistry source' registry') := by
  have hfits :
      p.Fits (w.setRegistry source registry).count (w'.setRegistry source' registry').count := by
    rw [World.count_setRegistry, World.count_setRegistry]
    exact h.fits
  cases source <;> cases source' <;> first | exact False.elim hs | skip
  · obtain ⟨hc, hc'⟩ := h.cell_made hs
    exact { h with
      fits := hfits
      cells := h.cells.modify h.fits.oneToOne hs hc hc' ⟨(h.cells _ _ hs).value, hr⟩ }
  · obtain ⟨ho, rfl⟩ := hs
    obtain ⟨hlt, hlt'⟩ := h.object_made ho
    have hobj := h.objects _ _ ho
    refine { h with
      fits := hfits
      objects := h.objects.modify h.fits.oneToOne ho hlt hlt' ⟨hobj.slots, fun key' => ?_⟩ }
    simp only [Std.ExtTreeMap.getElem?_insert]
    split
    · exact hr
    · exact hobj.waiting key'
  · obtain rfl := hs
    rename_i q
    refine { h with fits := hfits, registriesSize := ?_, registries := fun q' => ?_ }
    · simpa only [World.setRegistry, Store.size_modify] using h.registriesSize
    · by_cases hq : q.index < w.registries.size
      · have hq' : q.index < w'.registries.size := h.registriesSize ▸ hq
        simp only [World.setRegistry]
        rw [Store.get_modify _ _ _ _ hq, Store.get_modify _ _ _ _ hq']
        split
        · exact hr
        · exact h.registries q'
      -- A registry that was never made is made by no change of it.
      · have e := (w.registries.get_modify_cases q q' fun _ => registry).resolve_right
          fun hlt => hq hlt.2.1
        have e' := (w'.registries.get_modify_cases q q' fun _ => registry').resolve_right
          fun hlt => hq (h.registriesSize ▸ hlt.2.1)
        simp only [World.setRegistry, e, e']
        exact h.registries q'

theorem setRegistryLeft (h : w.Twin G p w') {s : Subscriber} (hs : p.stranger s)
    (hr : (w.registry source).add? s = some registry) :
    (w.setRegistry source registry).Twin G p w' := by
  have hfits : p.Fits (w.setRegistry source registry).count w'.count := by
    rw [World.count_setRegistry]
    exact h.fits
  cases source with
  | cell c =>
    refine { h with fits := hfits, cells := h.cells.modifyLeft fun c' hc hcell => ?_ }
    exact ⟨hcell.value, hcell.registry.addGuest hs hr⟩
  | waiting o key =>
    refine { h with fits := hfits, objects := h.objects.modifyLeft fun o' ho hobj => ?_ }
    refine ⟨hobj.slots, fun key' => ?_⟩
    simp only [Std.ExtTreeMap.getElem?_insert]
    split
    · rename_i e
      obtain rfl := Std.LawfulEqCmp.eq_of_compare e
      exact (hobj.waiting key).addGuest hs hr
    · exact hobj.waiting key'
  | registry q =>
    refine { h with fits := hfits, registriesSize := ?_, registries := fun q' => ?_ }
    · simpa only [World.setRegistry, Store.size_modify] using h.registriesSize
    · obtain e | ⟨rfl, -, e⟩ := w.registries.get_modify_cases q q' fun _ => registry
      · simp only [World.setRegistry, e]
        exact h.registries q'
      · simp only [World.setRegistry, e]
        exact (h.registries q).addGuest hs hr

/-! Data. -/

theorem setCell (h : w.Twin G p w') (hc : p.pair c c') {v v' : Value} (hv : v.Twin p v') :
    World.Twin G p { w with cells := w.cells.modify c fun cell => { cell with value := v } }
      { w' with cells := w'.cells.modify c' fun cell => { cell with value := v' } } := by
  obtain ⟨hlt, hlt'⟩ := h.cell_made hc
  exact { h with
    fits := h.fits.grow (World.count_cells (Store.size_le_modify ..))
      (World.count_cells (Store.size_le_modify ..))
    cells := h.cells.modify h.fits.oneToOne hc hlt hlt' ⟨hv, (h.cells c c' hc).registry⟩ }

theorem setSlot (h : w.Twin G p w') (ho : p.pair o o') (key : String) {slot slot' : Slot}
    (hs : slot.Twin p slot') : (w.setSlot o key slot).Twin G p (w'.setSlot o' key slot') := by
  obtain ⟨hlt, hlt'⟩ := h.object_made ho
  have hobj := h.objects o o' ho
  exact { h with
    fits := h.fits.grow (World.count_objects (Store.size_le_modify ..))
      (World.count_objects (Store.size_le_modify ..))
    objects := h.objects.modify h.fits.oneToOne ho hlt hlt'
      ⟨optionRel_insert hobj.slots hs key, hobj.waiting⟩ }

theorem takeWaiting (h : w.Twin G p w') (ho : p.pair o o') (key : String) :
    Registry.Twin p ((w.takeWaiting o key).1.getD {}) ((w'.takeWaiting o' key).1.getD {}) ∧
      (w.takeWaiting o key).2.Twin G p (w'.takeWaiting o' key).2 := by
  obtain ⟨hlt, hlt'⟩ := h.object_made ho
  have hobj := h.objects o o' ho
  refine ⟨hobj.waiting key, { h with
    fits := h.fits.grow (World.count_objects (Store.size_le_modify ..))
      (World.count_objects (Store.size_le_modify ..))
    objects := h.objects.modify h.fits.oneToOne ho hlt hlt' ⟨hobj.slots, fun key' => ?_⟩ }⟩
  simp only [Std.ExtTreeMap.getElem?_erase]
  split
  · exact .empty
  · exact hobj.waiting key'

end World.Twin

end ViewBinding
