import ViewBinding.Proofs.Tending.Tended

/-! Updates, notifications and writes tend the tree: of all that is done on the way only bindings
write it, and they find places for what they write. -/

namespace ViewBinding

open Action.Tends Step World

variable {u : Uses} {n k : Nat} {w w' : World} {r : Ref .watcher} {m : Ref .model}

def Engine.Tends (e : Engine) : Prop :=
  ∀ (f : Frame) (steps : List Step) (u : Uses), f.InUse u → EveryAll LeavesTree steps →
    (e.call f steps).Tends u

namespace World.Tended

theorem call {w₀ : World} {new : Value} (h : w.Tended u k) (hr : .watcher r ∈ w.subscribersInUse)
    (hm : (w.watchers.get r).model ∈ w.modelsInUse)
    (hev : Watcher.evaluate (Engine.ofFuel n).compute r w₀ = some (.ok new, w))
    (hn : (w.watchers.get r).value.same new = false) :
    ((w.remember r new).startCallback r (w.watchers.get r).model
      { new, old := (w.watchers.get r).value } (w.watchers.get r).callback).Tended u k := by
  have huses := uses_startCallback w r (w.watchers.get r).model
    { new, old := (w.watchers.get r).value } (w.watchers.get r).callback
  refine h.course (.single (.call hr hm hev hn)) (huses.trans h.uses) (fun r' hr' => ?_) ?_
  · rw [startCallback_watchers, callback_remember]
    exact shows?_of_size_le hr'
  · -- Only a binding of a face writes at once. A template is rendered later.
    have hshape (face : Face) (node : Ref .node)
        (hs : (w.watchers.get r).callback.shows? = some (face, node)) :=
      h.sameShape_write hr hm hs
    generalize (w.watchers.get r).callback = callback at hshape
    cases callback with
    | write face node => exact hshape face node rfl _
    | _ => exact .refl _

theorem leaveBehind (h : w.Tended u k) (key : Option String) (failed : Nat) :
    (w.leaveBehind key failed).Tended u k := by
  unfold World.leaveBehind
  split
  · exact h.emit trivial
  · exact h

end World.Tended

theorem Template.render_tended {t : Template} {node : Ref .node} {res : Except Fault Unit}
    (hw : w.Tended u k) (hr : .watcher r ∈ w.subscribersInUse)
    (hm : (w.watchers.get r).model ∈ w.modelsInUse)
    (hc : (w.watchers.get r).callback = .render node t) (hmodel : (w.watchers.get r).model = m)
    (h : (t.render (Engine.ofFuel n).compute m >>= Face.text.write m node) w = some (res, w')) :
    w'.Tended u k := by
  subst hmodel
  obtain ⟨g, hg, rfl⟩ | ⟨text, w₁, ht, h⟩ := Action.bind_eq_some h
  · exact (Template.render_glances n t _).tends k w _ w' hw hg
  · have hw₁ := (Template.render_glances n t _).tends k w _ w₁ hw ht
    obtain ⟨hs, hg⟩ := Template.render_glances n t _ w _ w₁ ht
    have hf := Glances.sameFrame hg
    rw [← hf.subscribersInUse] at hr
    rw [← hf.modelsInUse, ← hf.watchers] at hm
    rw [← hf.watchers] at hc h
    have hshape : w₁.view.SameShape (w₁.view.write .text node text) :=
      hw₁.sameShape_write hr hm (by rw [hc]; rfl) text
    cases h
    exact hw₁.course (.single (.write hm (.template text hc))) hw₁.uses
      (fun r hr => shows?_of_size_le hr) hshape

variable (he : (Engine.ofFuel n).Tends)
include he

theorem Callback.rest_tended {callback : Callback} {change : Change} {res : Except Fault Unit}
    (hw : w.Tended u k) (hr : .watcher r ∈ w.subscribersInUse) (hm : m ∈ w.modelsInUse)
    (hmodel : (w.watchers.get r).model = m) (hcallback : (w.watchers.get r).callback = callback)
    (h : callback.rest (Engine.ofFuel n) m change w = some (res, w')) : w'.Tended u k := by
  have hc : callback.Every LeavesTree := hcallback ▸ hw.stored.callback r
  cases callback with
  | run id steps =>
    have hf : Frame.InUse { model := m, change := change } u := by
      intro m' hm'
      cases hm'
      rw [← hw.uses]
      exact hm
    exact he _ steps u hf hc k w res w' hw h
  | write face node =>
    -- It was written when the callback began.
    cases h
    exact hw
  | render node t =>
    obtain ⟨g, hg, rfl⟩ | ⟨_, w₁, hcheck, h⟩ := Action.bind_eq_some h
    · rw [ViewModel.check_apply] at hg
      obtain rfl := (Prod.mk.inj (Option.some.inj hg)).2
      exact hw
    · rw [ViewModel.check_apply] at hcheck
      obtain rfl := (Prod.mk.inj (Option.some.inj hcheck)).2
      exact Template.render_tended hw hr (hmodel ▸ hm) hcallback hmodel h

theorem Watcher.update_tends (hr : .watcher r ∈ u.subscribers) :
    (Watcher.update (Engine.ofFuel n) r).Tends u := by
  intro k w res w' hw h
  obtain rfl := hw.uses
  have hlook {look : Except Fault Value} {w₁ : World}
      (hm : w.modelAlive (w.watchers.get r).model)
      (hev : Watcher.evaluate (Engine.ofFuel n).compute r
        (w.useModel (w.watchers.get r).model) = some (look, w₁)) :
      w₁.Tended ⟨(w.watchers.get r).model :: w.modelsInUse, w.subscribersInUse⟩ k :=
    (Watcher.evaluate_glances n r).tends k _ _ w₁
      (hw.still (.single (.useModel hm)) rfl rfl rfl) hev
  have hrelease {w₁ : World}
      (hw₁ : w₁.Tended ⟨(w.watchers.get r).model :: w.modelsInUse, w.subscribersInUse⟩ k) :
      (w₁.releaseModel (w.watchers.get r).model).Tended w.uses k :=
    hw₁.still (.single (.releaseModel w₁ _)) (uses_releaseModel hw₁.uses) rfl rfl
  cases Watcher.Updated.of_update h with
  | gone => exact hw
  | fails hm hev => exact hrelease (hlook hm hev)
  | same hm hev => exact hrelease (hlook hm hev)
  | @calls new w₁ w₂ _ hm hev hn hp =>
    have hw₁ := hlook hm hev
    obtain ⟨hs, hg⟩ := Watcher.evaluate_glances n r _ _ _ hev
    obtain ⟨hmodels, hsubscribers⟩ := Uses.mk.inj hw₁.uses
    have hr₁ : .watcher r ∈ w₁.subscribersInUse := by rwa [hsubscribers]
    have hmodel : (w₁.watchers.get r).model = (w.watchers.get r).model := by
      rw [(Glances.sameFrame hg).watchers]
      rfl
    have hm₁ : (w.watchers.get r).model ∈ w₁.modelsInUse := by
      rw [hmodels]
      exact List.mem_cons_self
    have hcall := hw₁.call hr₁ (hmodel ▸ hm₁) hev hn
    obtain ⟨hmodels', hsubscribers'⟩ := Uses.mk.inj (uses_startCallback w₁ r
      (w₁.watchers.get r).model { new, old := (w₁.watchers.get r).value }
      (w₁.watchers.get r).callback)
    rw [← hmodel, Callback.perform_apply] at hp
    -- What is in use stays so when the callback starts, so the rest of it goes on from there.
    refine hrelease (Callback.rest_tended (r := r) he hcall (hsubscribers'.symm ▸ hr₁)
      (hmodels'.symm ▸ hmodel.symm ▸ hm₁) ?_ ?_ hp)
    · rw [startCallback_watchers, model_remember]
    · rw [startCallback_watchers, callback_remember]

theorem Subscriber.update_tends {s : Subscriber} (hs : s ∈ u.subscribers) :
    (Subscriber.update (Engine.ofFuel n) s).Tends u := by
  cases s with
  | watcher r => exact Watcher.update_tends he hs
  | reaction r =>
    refine get fun w k hw => bind (emit trivial) fun _ => ?_
    exact he {} _ u (fun _ h => nomatch h) (hw.stored.reaction r)

theorem updateEach_tended (ss : List Subscriber) {w : World} {res : Except Fault Nat}
    (hw : w.Tended ⟨u.models, ss ++ u.subscribers⟩ k)
    (h : updateEach (Subscriber.update (Engine.ofFuel n)) ss w = some (res, w')) :
    w'.Tended u k := by
  -- The induction is on those who have their turns still, all of whom are in use until then.
  induction ss generalizing w res with
  | nil =>
    rw [updateEach_nil] at h
    cases h
    exact hw
  | cons s rest ih =>
    obtain ⟨⟨res', w₁⟩, j, hp, hj, -⟩ := updateEach_cons_eq_some h
    have hw₁ := Subscriber.update_tends he List.mem_cons_self k w res' w₁ hw hp
    refine ih ?_ hj
    have hrelease {w₂ : World} (hw₂ : w₂.Tended ⟨u.models, s :: rest ++ u.subscribers⟩ k) :
        (w₂.releaseSubscriber s).Tended ⟨u.models, rest ++ u.subscribers⟩ k :=
      hw₂.still (.single (.releaseSubscriber w₂ s)) (uses_releaseSubscriber hw₂.uses) rfl rfl
    cases res' with
    | ok _ => exact hrelease hw₁
    | error f => exact hrelease (hw₁.emit (e := .updateFailed f) trivial)

theorem Registry.notify_tends (registry : Registry) :
    (registry.notify (Subscriber.update (Engine.ofFuel n))).Tends u := by
  intro k w res w' hw h
  obtain rfl := hw.uses
  have hmove : w.Move LeavesTree [] (w.useSubscribers (registry.live w.alive)) :=
    .useSubscribers fun s hs => (List.mem_filter.1 hs).2
  have huse : (w.useSubscribers (registry.live w.alive)).Tended
      ⟨w.uses.models, registry.live w.alive ++ w.uses.subscribers⟩ k :=
    hw.still (.single hmove) rfl rfl rfl
  exact updateEach_tended he _ huse h

theorem Source.notify_tends (source : Source) (hs : ∀ o key, source ≠ .waiting o key) :
    (source.notify (Subscriber.update (Engine.ofFuel n))).Tends u := by
  intro k w res w' hw h
  have hf := SameFrame.setRegistry w source ((w.registry source).prune w.alive)
  have hprune := hw.still (.single (.prune hs)) (hf.uses.trans hw.uses) hf.watchers hf.view
  rw [Source.notify_eq] at h
  exact Registry.notify_tends he _ k _ res w' hprune h

theorem Cell.write_tends (c : Ref .cell) (value : Value) :
    (Cell.write (Subscriber.update (Engine.ofFuel n)) c value).Tends u := by
  intro k w res w' hw h
  rw [Cell.write_apply] at h
  split at h
  · cases h
    exact hw
  · have hmove : w.Move LeavesTree [] (w.store c value) :=
      .store LeavesTree.writable (Bool.eq_false_iff.2 ‹_›)
    have hstore : (w.store c value).Tended u k := hw.still (.single hmove) hw.uses rfl rfl
    obtain ⟨⟨failed, w₁⟩, hn, he'⟩ := Option.map_eq_some_iff.1 h
    cases he'
    have hw₁ := Source.notify_tends he (.cell c) (fun _ _ h => nomatch h) k _ _ w₁ hstore hn
    cases failed with
    | error g => exact hw₁
    | ok j => exact hw₁.leaveBehind none j

theorem Object.insert_tended {o : Ref .object} {key : String} (value : Value)
    {res : Except Fault Unit} (hw : w.Tended u k) (ho : w.slot? o key = none)
    (h : Object.insert (Subscriber.update (Engine.ofFuel n)) o key value w = some (res, w')) :
    w'.Tended u k := by
  rw [Object.insert_apply] at h
  have hmove : w.Move LeavesTree [] ((w.insertCell o key value).takeWaiting o key).2 :=
    .insert value LeavesTree.writable ho
  have hinsert : ((w.insertCell o key value).takeWaiting o key).2.Tended u k :=
    hw.still (.single hmove) hw.uses rfl rfl
  obtain ⟨⟨failed, w₁⟩, hn, he'⟩ := Option.map_eq_some_iff.1 h
  cases he'
  have hw₁ := Registry.notify_tends he _ k _ _ w₁ hinsert hn
  cases failed with
  | error g => exact hw₁
  | ok j => exact hw₁.leaveBehind (some key) j

theorem Object.write_tends (o : Ref .object) (key : String) (value : Value) :
    (Object.write (Subscriber.update (Engine.ofFuel n)) o key value).Tends u := by
  intro k w res w' hw h
  cases hs : w.slot? o key with
  | none =>
    rw [Object.write_missing hs, Option.map_eq_some_iff] at h
    obtain ⟨⟨res, w₁⟩, hi, hr⟩ := h
    cases hr
    exact Object.insert_tended he value hw hs hi
  | some slot =>
    cases slot with
    | cell c =>
      rw [Object.write_cell hs] at h
      exact Cell.write_tends he c value k w res w' hw h
    | computed p =>
      rw [Object.write_computed hs] at h
      exact throw _ k w res w' hw h

theorem Path.assign_tends (p : Path) (root : Ref .object) (value : Value) :
    (p.assign (Engine.ofFuel n).compute (Subscriber.update (Engine.ofFuel n)) root value).Tends
      u :=
  bind (Path.follow_proceeds (Engine.compute_proceeds n) p p.parents _).once.tends fun _ =>
    bind (ofExcept _) fun o => Object.write_tends he o p.last value

end ViewBinding
