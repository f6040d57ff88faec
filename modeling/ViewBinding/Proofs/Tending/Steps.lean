import ViewBinding.Proofs.Mirrors.Draws
import ViewBinding.Proofs.Tending.Updates

/-! Listeners and the steps of scripts tend the tree, as long as they leave it to its bindings. -/

namespace ViewBinding

open Action.Tends Step World

variable {u : Uses} {n k : Nat} {w w' : World} {f : Frame} {m : Ref .model}

section Events

theorem Action.Tends.whileAlive {x : Action Unit}
    (hx : x.Tends ⟨m :: u.models, u.subscribers⟩) :
    (MonadState.get >>= fun w : World =>
      if w.modelAlive m then Action.usingModel m x else Pure.pure ()).Tends u := by
  intro k w r w' hw h
  rw [Action.get_bind] at h
  by_cases hm : w.modelAlive m
  · rw [if_pos hm] at h
    exact Action.Tends.usingModel hw hm hx h
  · rw [if_neg hm] at h
    exact Action.Tends.pure () k w r w' hw h

variable (he : (Engine.ofFuel n).Tends)
include he

theorem ViewModel.call_tends (hm : m ∈ u.models) (name : String) (event : Event) :
    (ViewModel.call (Engine.ofFuel n) m name event).Tends u := by
  intro k w r w' hw h
  rw [ViewModel.call, Action.get_bind] at h
  cases hs : (w.models.get m).methods[name]? with
  | none =>
    rw [hs] at h
    exact Action.Tends.throw (α := Unit) _ k w r w' hw h
  | some steps =>
    rw [hs] at h
    have hmethod := ViewModel.hasMethod_of_getElem? hs
    have hf : Frame.InUse { model := some m, event := some event } u := by
      intro m' hm'
      cases hm'
      exact hm
    have hused : m ∈ w.modelsInUse := by
      rw [← hw.uses] at hm
      exact hm
    have htell : (w.tell (.method m name event)).Tended u k :=
      hw.still (.single (.method event hused hmethod)) hw.uses rfl rfl
    have hevery := hw.stored.methods LeavesTree.callable m name steps hs
    exact he _ steps u hf hevery k _ r w' htell h

end Events

namespace Script

section Lookup

variable {α : Type}

theorem value_tends (n : Nat) (f : Frame) (x : Expr) : (value (Engine.ofFuel n) f x).Tends u :=
  (value_glances n f x).tends

theorem withModel_tends {x : Ref .model → Action α} (hf : f.InUse u) (name : Option String)
    (hx : ∀ m, (x m).Tends ⟨m :: u.models, u.subscribers⟩) : (withModel f name x).Tends u := by
  intro k w r w' hw h
  have hf' : ∀ m, f.model = some m → m ∈ w.modelsInUse := by
    obtain rfl := hw.uses
    exact hf
  rw [withModel, Action.get_bind] at h
  cases hm : f.findModel w name with
  | error g =>
    rw [hm] at h
    exact Action.Tends.throw (α := α) g k w r w' hw h
  | ok m =>
    rw [hm] at h
    exact Action.Tends.usingModel hw (Frame.modelAlive_of_findModel hf' hm) (hx m) h

theorem changeNames_tends {change : Names → Names}
    (h : ∀ w : World, w.uses = u → w.Renamed (change w.names)) : (changeNames change).Tends u :=
  modifyGet (fun _ => rfl) (fun w hu => ⟨_, .rename (h w hu)⟩) fun _ => ⟨rfl, rfl⟩

theorem findNode_tends {i : Nat} {x : Ref .node → Action α} (hx : (x ⟨i⟩).Tends u) :
    (findNode i >>= x).Tends u := by
  intro k w r w' hw h
  obtain ⟨known, hk⟩ := findNode_bind i x w
  have hmeet : Tended u k { w with knownNodes := known } :=
    hw.still (.single (.meet w known)) hw.uses rfl rfl
  rw [hk] at h
  split at h
  · exact hx k _ r w' hmeet h
  · cases h
    exact hmeet

theorem find_tends {f : Fault} {find : World → Option α} :
    (MonadState.get >>= fun w : World => Action.require f (find w)).Tends u :=
  get fun _ _ _ => require _ _

end Lookup

theorem create_still {s : Setup} {res : Except Fault (Ref .model)}
    (h : ViewModel.create s w = some (res, w')) :
    w'.watchers = w.watchers ∧ w'.view = w.view := by
  rw [ViewModel.create_apply] at h
  split at h
  · cases h
    exact ⟨rfl, rfl⟩
  · cases h
    have ha := Aside.define w ‹_› w.models.fresh s.computed
    exact ⟨ha.watchers, ha.view⟩

theorem build_tends (name : Option String) (data : Option Expr)
    {computed : List (String × Expr)} {methods : List (String × List Step)}
    (hm : Step.EveryMethod LeavesTree methods) :
    (build (Engine.ofFuel n) f name data computed methods).Tends u := by
  refine still (build_proceeds name data (fun _ => LeavesTree.definable) hm) fun w r w' h => ?_
  obtain ⟨g, hs, rfl⟩ | ⟨s, w₁, hs, h⟩ := Action.bind_eq_some h
  · obtain ⟨_, hg⟩ := setup_glances data computed methods w _ w' hs
    have hf := Glances.sameFrame hg
    exact ⟨hf.watchers, hf.view⟩
  · obtain ⟨_, hg⟩ := setup_glances data computed methods w _ w₁ hs
    have hf := Glances.sameFrame hg
    rw [← hf.watchers, ← hf.view]
    obtain ⟨g, hc, rfl⟩ | ⟨m, w₂, hc, h⟩ := Action.bind_eq_some h
    · exact create_still hc
    · have hcreated := create_still hc
      cases h
      exact hcreated

section Watch

variable {hs hs' : List Happening} {seen : Value}

/-- A watcher for a script is made and kept somewhere. It shows nothing, and so the tree is still
tended. -/
theorem made_tended {watcher : Watcher} {w'' : World} (hw : w.Tended u k)
    (hmake : w.Makes watcher n hs seen w') (hshows : watcher.callback.shows? = none)
    (hu : w'.uses = w.uses) (hc : w.Course LeavesTree hs' w'') (hu' : w''.uses = w'.uses)
    (hwatchers : w''.watchers = w'.watchers) (hview : w''.view = w'.view) : w''.Tended u k := by
  refine hw.course hc ((hu'.trans hu).trans hw.uses) (fun r hr => ?_) ?_
  · rw [hwatchers]
    exact hmake.shows? hshows hr
  · rw [hview, hmake.frame.2.2.2]
    exact .refl _

/-- A watcher for a script is made, and something is done with it. If it cannot look along its path
the tree is tended all the same. -/
theorem create_tends {α : Type} {id path : String} {steps : List Step}
    {rest : Ref .watcher → Action α} (hs : Step.EveryAll LeavesTree steps)
    (hrest : ∀ k (w w₁ : World) r w' p hs v, w.Tended u k → w₁.uses = w.uses →
      w.Makes { model := m, path := p, callback := .run id steps } n hs v w₁ →
      rest w.watchers.fresh w₁ = some (r, w') → w'.Tended u k) :
    (Watcher.create (Engine.ofFuel n).compute m path (.run id steps) >>= rest).Tends u := by
  have hc : (Callback.run id steps).Every LeavesTree := hs
  intro k w r w' hw h
  obtain ⟨g, hcreate, rfl⟩ | ⟨r', w₁, hcreate, h⟩ := Action.bind_eq_some h
  · -- The path is no path, or the watcher was added and found nothing to look at.
    obtain ⟨g', hp, -⟩ | ⟨p, w₁, hp, hlook⟩ := Action.bind_eq_some hcreate
    · exact ofExcept _ k w _ w' hw hp
    have hw₁ := ofExcept _ k w _ w₁ hw hp
    rw [Action.get_bind, Action.modify_bind] at hlook
    have hadd : (w₁.addWatcher { model := m, path := p, callback := .run id steps }).Tended u k :=
      hw₁.addWatcher hc rfl
    obtain ⟨g', hv, -⟩ | ⟨v, w₂, hv, hset⟩ := Action.bind_eq_some hlook
    · exact (Watcher.evaluate_glances n _).tends k _ _ w' hadd hv
    · cases hset
  · obtain ⟨hu, ⟨⟨g, he⟩, -⟩ | ⟨p, hs', v, he, hmake⟩⟩ := Watcher.create_cases _ hc hcreate
    · cases he
    · cases he
      exact hrest k w w₁ r w' p hs' v hw hu hmake h

theorem watch_tends (hf : f.InUse u) (name : Option String) (id path : String)
    {steps : List Step} (hs : Step.EveryAll LeavesTree steps) :
    (watch (Engine.ofFuel n) f name id path steps).Tends u := by
  refine withModel_tends hf name fun m => reply_get (create_tends hs ?_)
  intro k w w₁ r w' p hs' v hw hu hmake h
  cases h
  have hc : (Callback.run id steps).Every LeavesTree := hs
  exact made_tended hw hmake rfl hu (.single (.watch hc hmake)) rfl rfl rfl

theorem watcher_tends (hf : f.InUse u) (name : Option String) (id path : String)
    {steps : List Step} (hs : Step.EveryAll LeavesTree steps) :
    (watcher (Engine.ofFuel n) f name id path steps).Tends u := by
  refine withModel_tends hf name fun m => create_tends hs ?_
  intro k w w₁ r w' p hs' v hw hu hmake h
  cases h
  have hc : (Callback.run id steps).Every LeavesTree := hs
  exact made_tended hw hmake rfl hu (.single (.hold id hc hmake)) rfl rfl rfl

theorem watcherUpdate_tends (he : (Engine.ofFuel n).Tends) (id : String) :
    (watcherUpdate (Engine.ofFuel n) id).Tends u := by
  intro k w r w' hw h
  rw [watcherUpdate, findWatcher, bind_assoc, Action.get_bind] at h
  cases hr : w.names.watchers.held[id]? with
  | none =>
    rw [hr] at h
    exact Action.Tends.throw (α := Answer) _ k w r w' hw h
  | some r' =>
    rw [hr] at h
    have ha : w.alive (.watcher r') := World.alive_of_named hr
    have hx : (Watcher.update (Engine.ofFuel n) r').Tends
        ⟨u.models, .watcher r' :: u.subscribers⟩ := Watcher.update_tends he List.mem_cons_self
    obtain ⟨g, hb, rfl⟩ | ⟨_, w₁, hb, hreply⟩ := Action.bind_eq_some
      (x := Action.usingSubscriber (.watcher r') (Watcher.update (Engine.ofFuel n) r')) h
    · exact Action.Tends.usingSubscriber hw ha hx hb
    · cases hreply
      exact Action.Tends.usingSubscriber hw ha hx hb

end Watch

theorem track_tends (name : Option String) (reaction : String) (paths : List String) :
    (track (Engine.ofFuel n) f name reaction paths).Tends u := by
  refine bind find_tends fun r => bind (Reading.Proceeds.evaluate (.mapM fun path _ => ?_)
    _).tends fun p => bind (ofExcept _) fun _ => pure _
  exact .getWorld fun w => .bind (.ofExcept _) fun m =>
    .outcome (ViewModel.read_proceeds (Engine.compute_proceeds n) m path)

theorem trackCell_tends (reaction id : String) : (trackCell reaction id).Tends u :=
  bind find_tends fun _ => bind find_tends fun c =>
    bind ((Cell.read_proceeds c).evaluate _).tends fun _ => bind (ofExcept _) fun _ => pure _

theorem register_tends (id reaction : String) : (register id reaction).Tends u := by
  refine bind find_tends fun q => bind find_tends fun r => ?_
  intro k w res w' hw h
  rw [Action.get_bind] at h
  cases ha : (w.registry (.registry q)).add? (.reaction r) with
  | none =>
    simp only [ha] at h
    cases h
    exact hw
  | some registry =>
    simp only [ha] at h
    cases h
    exact hw.still (.single (.glance (.register ha trivial))) hw.uses rfl rfl

theorem changeView_tends {step : Step} {change : View → View} (hs : step.LeavesTree)
    (h : ∀ w : World, w.uses = u → step.Edits w.view (change w.view)) :
    (changeView change).Tends u := by
  intro k w r w' hw hr
  cases hr
  have hedit := h w hw.uses
  have hshape : w.view.SameShape (change w.view) := by
    revert hedit
    generalize change w.view = v
    intro hedit
    cases hedit with
    | typed i text => exact .modify w.view _ (fun _ => rfl) fun _ => rfl
    | setValue i text => exact .modify w.view _ (fun _ => rfl) fun _ => rfl
    | create | setText | detach | append => exact hs.elim
  exact hw.course (.single (.edit (hedit.edited hs))) hw.uses (fun _ hr => shows?_of_size_le hr)
    hshape

end Script

end ViewBinding
