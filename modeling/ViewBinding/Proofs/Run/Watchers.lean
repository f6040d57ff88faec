import ViewBinding.Proofs.Run.Updates

/-! Watchers that are made and updated, with callbacks that do anything that scripts may do. -/

namespace ViewBinding

variable {w w' : World} {n : Nat}

def Engine.Calls (e : Engine) : Prop :=
  ∀ f steps w, w.Valid → f.Valid w → Step.AllPlain steps → (e.call f steps).Goes w fun _ _ => True

theorem Face.write_goes (face : Face) (m : Ref .model) (node : Ref .node) (text : String)
    (hw : w.Valid) : (face.write m node text).Goes w fun _ _ => True :=
  .bind (.tell hw _) fun _ _ ho _ => .modify ((World.Noted.view _ _).onward ho.valid) trivial

theorem ViewModel.check_apply (m : Ref .model) (w : World) :
    ViewModel.check m w = some (if w.modelAlive m then .ok () else .error .detached, w) := by
  rw [ViewModel.check, Action.get_bind]
  cases w.modelAlive m <;> rfl

theorem ViewModel.check_goes (hw : w.Valid) (m : Ref .model) :
    (ViewModel.check m).Goes w fun _ w' => w'.modelAlive m := by
  intro r w' h
  rw [ViewModel.check_apply] at h
  split at h <;> cases h
  · exact ⟨.refl hw, fun _ _ => ‹_›⟩
  · exact ⟨.refl hw, fun _ h => nomatch h⟩

theorem Action.Goes.mapM {α β : Type} {l : List α} {f : α → Action β} (hw : w.Valid)
    (hf : ∀ a ∈ l, ∀ w', w.Onward w' → (f a).Goes w' fun _ _ => True) :
    (l.mapM f).Goes w fun _ _ => True := by
  induction l generalizing w with
  | nil => exact .pure hw trivial
  | cons a l ih =>
    rw [List.mapM_cons]
    refine .bind (hf a List.mem_cons_self w (.refl hw)) fun _ w' ho _ =>
      .reply (ih ho.valid fun b hb w'' ho' => hf b (List.mem_cons_of_mem a hb) w'' (ho.trans ho'))

theorem Template.render_goes (hw : w.Valid) (t : Template) {m : Ref .model}
    (hm : m.index < w.models.size) :
    (t.render (Engine.ofFuel n).compute m).Goes w fun _ _ => True := by
  refine .reply (.mapM hw fun segment _ w' ho => ?_)
  cases segment with
  | literal text => exact .pure ho.valid trivial
  | path path =>
    have hm' := Nat.lt_of_lt_of_le hm ho.models
    exact .reply (Reading.Goes.once (ViewModel.read_goes ho.valid hm' path))

theorem Callback.perform_goes (he : (Engine.ofFuel n).Calls) (hw : w.Valid) (r : Ref .watcher)
    {m : Ref .model} (hm : m ∈ w.modelsInUse) (change : Change)
    (hn : change.new.Within w.objects.size)
    (ho : change.old.Within w.objects.size) (callback : Callback)
    (hc : ∀ id steps, callback = .run id steps → Step.AllPlain steps) :
    (callback.perform (Engine.ofFuel n) r m change).Goes w fun _ _ => True := by
  have hf : Frame.Valid { model := some m, change := some change } w :=
    ⟨fun m' h => by cases h; exact hm, fun c h => by cases h; exact ⟨hn, ho⟩⟩
  refine .bind (.tell hw _) fun _ w₁ ho _ => ?_
  cases callback with
  | run id steps => exact he _ _ w₁ ho.valid (hf.onward ho) (hc id steps rfl)
  | write face node => exact Face.write_goes face m node _ ho.valid
  | render node t =>
    refine .bind (ViewModel.check_goes ho.valid m) fun _ w' ho' ha => ?_
    exact .bind (Template.render_goes ho'.valid t (ho'.valid.lt_of_modelAlive ha))
      fun _ _ ho'' _ => Face.write_goes .text m node _ ho''.valid

namespace Watcher

/-- A watcher is updated in three ways: its view-model is gone, or it sees nothing new or fails to,
or it acts on what is new. -/
theorem update_apply (e : Engine) (r : Ref .watcher) (w : World) :
    update e r w =
      let m := (w.watchers.get r).model
      if w.modelAlive m then
        (evaluate e.compute r (w.useModel m)).bind fun p =>
          match p with
          | (.error f, w') => some (.error f, w'.releaseModel m)
          | (.ok new, w') =>
            let watcher := w'.watchers.get r
            if watcher.value.same new then some (.ok (), w'.releaseModel m)
            else
              (watcher.callback.perform e r m { new, old := watcher.value }
                (w'.remember r new)).map fun q => (q.1, q.2.releaseModel m)
      else some (.error .detached, w) := by
  rw [update, Action.get_bind, Action.bind_apply, ViewModel.check_apply]
  by_cases hm : w.modelAlive (w.watchers.get r).model
  · simp only [hm, if_true]
    rw [Action.usingModel_apply, Action.bind_apply]
    cases evaluate e.compute r (w.useModel (w.watchers.get r).model) with
    | none => rfl
    | some p =>
      obtain ⟨f | new, w'⟩ := p
      · rfl
      · simp only [Option.bind_some]
        rw [Action.get_bind]
        split <;> rfl
  · simp only [hm]
    rfl

/-- What the update of a watcher comes to. Unless its view-model is gone, that is in use while the
watcher looks, and also while its callback runs if it sees something new. -/
inductive Updated (e : Engine) (r : Ref .watcher) (w : World) : Except Fault Unit → World → Prop
  | gone : ¬w.modelAlive (w.watchers.get r).model → Updated e r w (.error .detached) w
  | fails {f : Fault} {w₁ : World} : w.modelAlive (w.watchers.get r).model →
      evaluate e.compute r (w.useModel (w.watchers.get r).model) = some (.error f, w₁) →
      Updated e r w (.error f) (w₁.releaseModel (w.watchers.get r).model)
  | same {new : Value} {w₁ : World} : w.modelAlive (w.watchers.get r).model →
      evaluate e.compute r (w.useModel (w.watchers.get r).model) = some (.ok new, w₁) →
      (w₁.watchers.get r).value.same new →
      Updated e r w (.ok ()) (w₁.releaseModel (w.watchers.get r).model)
  | calls {new : Value} {w₁ w₂ : World} {res : Except Fault Unit} :
      w.modelAlive (w.watchers.get r).model →
      evaluate e.compute r (w.useModel (w.watchers.get r).model) = some (.ok new, w₁) →
      (w₁.watchers.get r).value.same new = false →
      (w₁.watchers.get r).callback.perform e r (w.watchers.get r).model
        { new, old := (w₁.watchers.get r).value } (w₁.remember r new) = some (res, w₂) →
      Updated e r w res (w₂.releaseModel (w.watchers.get r).model)

theorem Updated.of_update {e : Engine} {r : Ref .watcher} {res : Except Fault Unit}
    (h : update e r w = some (res, w')) : Updated e r w res w' := by
  rw [update_apply] at h
  dsimp only at h
  split at h
  · rename_i hm
    obtain ⟨⟨f | new, w₁⟩, hev, h⟩ := Option.bind_eq_some_iff.1 h
    · cases h
      exact .fails hm hev
    · dsimp only at h
      split at h
      · cases h
        exact .same hm hev ‹_›
      · obtain ⟨⟨res, w₂⟩, hp, he⟩ := Option.map_eq_some_iff.1 h
        cases he
        exact .calls hm hev (Bool.eq_false_iff.2 ‹_›) hp
  · cases h
    exact .gone ‹_›

theorem update_settles (he : (Engine.ofFuel n).Calls) (hw : w.Valid) {r : Ref .watcher}
    (hr : r.index < w.watchers.size) {res : Except Fault Unit}
    (h : update (Engine.ofFuel n) r w = some (res, w')) :
    w.Passes [.watcher r] [] w' ∧ w'.modelsInUse = w.modelsInUse := by
  have hdrop {w₁ : World} (hp : w.Passes [.watcher r] [.watcher r] w₁) (hs : w₁.Settled r) :
      w.Passes [.watcher r] [] w₁ :=
    { hp with current := fun P hc => (hp.current P hc).drop fun r' h' _ => by cases h'; exact hs }
  have hlook {look : Except Fault Value} {w₁ : World}
      (hm : w.modelAlive (w.watchers.get r).model)
      (hev : evaluate (Engine.ofFuel n).compute r (w.useModel (w.watchers.get r).model) =
        some (look, w₁)) : w.Passes [.watcher r] [.watcher r] w₁ ∧
      w₁.modelsInUse = (w.watchers.get r).model :: w.modelsInUse ∧ w₁.Tracks r look ∧
      ∀ v, look = .ok v → v.Within w₁.objects.size := by
    have hu := World.passes_useModel hw hm
    obtain ⟨hn, ht, hv⟩ := evaluate_notes hu.valid hr hev
    have ho := hn.onward hu.valid
    exact ⟨(hu.trans ho.toPasses).frame [.watcher r], ho.used, ht, hv⟩
  have hrelease {w₁ : World} (hp : w.Passes [.watcher r] [] w₁)
      (hused : w₁.modelsInUse = (w.watchers.get r).model :: w.modelsInUse) :
      w.Passes [.watcher r] [] (w₁.releaseModel (w.watchers.get r).model) ∧
        (w₁.releaseModel (w.watchers.get r).model).modelsInUse = w.modelsInUse := by
    refine ⟨hp.trans (World.passes_releaseModel hp.valid _), ?_⟩
    simp only [World.releaseModel, hused, List.erase_cons_head]
  cases Updated.of_update h with
  | gone hm =>
    -- A watcher whose view-model is gone counts as settled.
    refine ⟨⟨hw, Nat.le_refl _, Nat.le_refl _, Nat.le_refl _, fun P hc => ?_⟩, rfl⟩
    exact hc.drop fun r' h' hm' => by cases h'; exact absurd hm' hm
  | fails hm hev =>
    obtain ⟨hp, hused, ht, -⟩ := hlook hm hev
    exact hrelease (hdrop hp ⟨_, ht, fun v hv => nomatch hv⟩) hused
  | same hm hev hsame =>
    obtain ⟨hp, hused, ht, -⟩ := hlook hm hev
    exact hrelease (hdrop hp ⟨_, ht, fun v hv => by cases hv; exact .inl hsame⟩) hused
  | @calls new w₁ w₂ _ hm hev _ hc =>
    obtain ⟨hp, hused, ht, hv⟩ := hlook hm hev
    have hr₁ : r.index < w₁.watchers.size := Nat.lt_of_lt_of_le hr hp.watchers
    have hrem := World.passes_remember hp.valid r (hv new rfl)
    have hp' := hdrop (hp.trans hrem.again) (World.settled_remember hr₁ ht)
    have hm' : (w.watchers.get r).model ∈ (w₁.remember r new).modelsInUse := by
      rw [World.remember, hused]
      exact List.mem_cons_self
    obtain ⟨hgo, -⟩ := Callback.perform_goes he hp'.valid r hm'
      { new, old := (w₁.watchers.get r).value } (hv new rfl) (hp.valid.seen r)
      (w₁.watchers.get r).callback (hp.valid.callback r) _ _ hc
    exact hrelease (hp'.trans hgo.toPasses) (hgo.used.trans hused)

end Watcher

theorem Subscriber.update_settling (he : (Engine.ofFuel n).Calls) :
    Settling (Subscriber.update (Engine.ofFuel n)) := by
  intro s w hw hs r w' h
  cases s with
  | watcher s => exact Watcher.update_settles he hw hs h
  | reaction s =>
    have hgo : (Subscriber.update (Engine.ofFuel n) (.reaction s)).Goes w fun _ _ => True :=
      .get (.bind (.emit hw _) fun _ w' ho _ => he {} _ w' ho.valid
        ⟨fun m hm => (nomatch hm), fun c hc => (nomatch hc)⟩ (hw.reaction s))
    obtain ⟨ho, -⟩ := hgo r w' h
    refine ⟨{ ho with current := fun P hc => ?_ }, ho.used⟩
    exact ho.current P (hc.drop fun r hr => nomatch hr)

namespace Watcher

theorem create_goes (hw : w.Valid) {m : Ref .model} (hm : m.index < w.models.size) (path : String)
    {callback : Callback} (hc : ∀ id steps, callback = .run id steps → Step.AllPlain steps) :
    (create (Engine.ofFuel n).compute m path callback).Goes w fun r w' =>
      r.index < w'.watchers.size ∧ w'.Settled r := by
  refine .bind (Q := fun _ _ => True) (.ofExcept hw fun _ _ => trivial) fun p w₁ ho₁ _ => .get ?_
  have hm₁ : m.index < w₁.models.size := Nat.lt_of_lt_of_le hm ho₁.models
  have ho₂ := World.onward_addWatcher ho₁.valid { model := m, path := p, callback } hm₁
    (Value.within_of_object? rfl) hc
  refine .bind (Q := fun _ w' => w₁.watchers.fresh.index < w'.watchers.size)
    (.modify ho₂ ?_) fun _ w₂ ho₂ hr => ?_
  · show _ < (w₁.watchers.add _).size
    rw [Store.size_add]
    exact Nat.lt_succ_self _
  · intro res w' h
    obtain ⟨g, hg, rfl⟩ | ⟨v, w₃, hv, h⟩ := Action.bind_eq_some h
    · exact ⟨(evaluate_notes ho₂.valid hr hg).1.onward ho₂.valid, fun _ h => nomatch h⟩
    · obtain ⟨hn, ht, hwi⟩ := evaluate_notes ho₂.valid hr hv
      have ho₃ := hn.onward ho₂.valid
      have hr₃ := Nat.lt_of_lt_of_le hr ho₃.watchers
      have hset := World.settled_remember hr₃ ht
      have hp := World.passes_remember ho₃.valid w₁.watchers.fresh (hwi v rfl)
      cases h
      have htold := (World.Noted.trace (w₃.remember w₁.watchers.fresh v)
        ((w₃.remember w₁.watchers.fresh v).tell (.made w₁.watchers.fresh v)).trace).onward hp.valid
      refine ⟨(ho₃.trans ⟨{ hp with current := fun P hc => (hp.current P hc).drop ?_ }, rfl⟩).trans
        htold, ?_⟩
      · exact fun r' h' _ => by cases h'; exact hset
      · rintro r hr'
        cases hr'
        exact ⟨Nat.lt_of_lt_of_le hr₃ hp.watchers, hset⟩

end Watcher

theorem ViewModel.watch_goes (hw : w.Valid) {m : Ref .model} (hm : m.index < w.models.size)
    (path : String) {callback : Callback}
    (hc : ∀ id steps, callback = .run id steps → Step.AllPlain steps) :
    (ViewModel.watch (Engine.ofFuel n).compute m path callback).Goes w fun _ _ => True :=
  .bind (Watcher.create_goes hw hm path hc) fun _ _ ho hr =>
    .reply (.modify (Q := fun _ _ => True) (World.onward_keepWatcher ho.valid m hr.1 hr.2) trivial)

end ViewBinding
