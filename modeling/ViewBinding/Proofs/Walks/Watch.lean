import ViewBinding.Proofs.Course.Laws
import ViewBinding.Proofs.Walks.Items

/-! Watching paths, and binding the faces, directives and texts of one node. -/

namespace ViewBinding

variable {w w' : World} {k : Nat} {m : Ref .model} {base : Nat} {L : List (Ref .node)}
  {n : Ref .node}

section Watching

theorem World.Bindable.enlist (hw : w.Bindable m) (base : Nat) (L : List (Ref .node))
    {r : Ref .watcher} (hr : r.index < w.watchers.size) (v : Value) :
    w.Gains base L m [((w.watchers.get r).path, (w.watchers.get r).callback)] []
      ((w.remember r v).keepWatcher m r) := by
  let w' := (w.remember r v).keepWatcher m r
  have hm : w'.models.get m = { w.models.get m with
      watchers := (w.models.get m).watchers ++ [r] } := w.models.get_modify_self _ hw.made
  have hkept : w.Retains w' := (World.Retains.remember w r v).trans (.keepWatcher _ m r)
  let binding (watcher : Watcher) : Path × Callback := (watcher.path, watcher.callback)
  have hsame (r' : Ref .watcher) :
      binding (w'.watchers.get r') = binding (w.watchers.get r') := by
    obtain e | ⟨-, e⟩ := w.remember_cases r r' v
    · exact congrArg binding e
    · exact (congrArg binding e :)
  refine ⟨hw.retains hkept fun r' hr' => ?_, hkept, by rw [hm], ?_, .refl _⟩
  · rw [hm] at hr'
    refine Nat.lt_of_lt_of_eq ?_ (World.size_remember w r v).symm
    obtain hr' | hr' := List.mem_append.1 hr'
    · exact hw.owned r' hr'
    · exact List.mem_singleton.1 hr' ▸ hr
  · rw [World.bindingsOf, hm, List.map_append, List.map_singleton]
    exact congrArg₂ (· ++ ·) (List.map_congr_left fun r' _ => hsame r') (congrArg ([·]) (hsame r))

theorem World.Glances.gains {hs : List Happening} (h : w.Glances hs w') (hw : w.Bindable m) :
    w.Gains base L m [] [] w' := by
  have hf := World.Glances.sameFrame h
  have hkept := World.Glances.retains h
  refine ⟨hw.retains hkept ?_, hkept, by rw [hf.models], ?_, hf.view ▸ .refl _⟩
  · rw [hf.models, hf.watchers]
    exact hw.owned
  · rw [World.bindingsOf, hf.models, hf.watchers, List.append_nil, World.bindingsOf]

theorem World.Bindable.addWatcher (hw : w.Bindable m) (watcher : Watcher) :
    w.Gains base L m [] [] (w.addWatcher watcher) := by
  have hkept := World.Retains.addWatcher w watcher
  refine ⟨hw.retains hkept fun r hr => ?_, hkept, rfl, ?_, .refl _⟩
  · rw [World.size_addWatcher w watcher]
    exact Nat.lt_succ_of_lt (hw.owned r hr)
  · rw [List.append_nil]
    refine List.map_congr_left fun r hr => ?_
    rw [World.addWatcher, w.watchers.get_add_of_lt _ (hw.owned r hr)]

theorem Watcher.evaluate_of_found (hw : w.Bindable m) {path : String} {p : Path}
    (hp : Path.parse path = .ok p) (callback : Callback) {res : Except Fault Value}
    (hres : w.found? k m path = some res) : ∃ res' w',
      Watcher.evaluate (Engine.ofFuel k).compute w.watchers.fresh
          (w.addWatcher { model := m, path := p, callback }) = some (res', w') ∧
        TextsAlike res res' := by
  let watcher : Watcher := { model := m, path := p, callback }
  obtain ⟨q, hm, hq⟩ := hw.data
  have hr : (w.addWatcher watcher).watchers.get w.watchers.fresh = watcher :=
    (w.watchers.get_add _ w.watchers.fresh).trans (if_pos rfl)
  rw [World.found?_eq hp, Option.map_eq_some_iff] at hres
  obtain ⟨⟨⟨res, e₁⟩, v⟩, hread, rfl⟩ := hres
  obtain ⟨res', e₁', v', hread', htext⟩ := (hq.later (.refl w) (.addWatcher w watcher)).follow hm p
    {} { subscriber := some (.watcher w.watchers.fresh) } hread
  refine ⟨res', v', ?_, htext⟩
  rw [evaluate, Action.get_bind, Action.get_bind, hr, Reading.track_eq_map, hread']
  rfl

theorem ViewModel.watch_gains (hw : w.Bindable m) (base : Nat) (L : List (Ref .node))
    (path : String) (callback : Callback) :
    (∀ f, w.found? k m path = some (.error f) → ∃ w',
      ViewModel.watch (Engine.ofFuel k).compute m path callback w = some (.error f, w') ∧
        w.Gains base L m [] [] w') ∧
    ∀ v, w.found? k m path = some (.ok v) → ∃ p r w', Path.parse path = .ok p ∧
      ViewModel.watch (Engine.ofFuel k).compute m path callback w = some (.ok r, w') ∧
        w.Gains base L m [(p, callback)] [] w' ∧ (w'.watchers.get r).value.text = v.text ∧
          w'.view = w.view := by
  cases hpath : Path.parse path with
  | error g =>
    rw [World.found?_misspelt hpath]
    refine ⟨fun f hf => ?_, fun v hv => by cases hv⟩
    cases hf
    exact ⟨w, ViewModel.watch_misspelt hpath, .refl hw⟩
  | ok p =>
    -- The watcher is added, looks, and is kept by its view-model only if it found something.
    let watcher : Watcher := { model := m, path := p, callback }
    let r := w.watchers.fresh
    have hadd : w.Gains base L m [] [] (w.addWatcher watcher) := hw.addWatcher watcher
    refine ⟨fun f hf => ?_, fun v hv => ?_⟩
    · obtain ⟨res, w₂, heval, htext⟩ := Watcher.evaluate_of_found hw hpath callback hf
      obtain ⟨hs, hg⟩ := Watcher.evaluate_glances k r _ _ _ heval
      cases res with
      | ok u => cases htext
      | error g =>
        obtain rfl : f = g := htext
        exact ⟨w₂, ViewModel.watch_unseen hpath heval, hadd.trans (hg.gains hadd.bindable)⟩
    · obtain ⟨res, w₂, heval, htext⟩ := Watcher.evaluate_of_found hw hpath callback hv
      obtain ⟨hs, hg⟩ := Watcher.evaluate_glances k r _ _ _ heval
      cases res with
      | error g => cases htext
      | ok u =>
        have hgain := hadd.trans (hg.gains hadd.bindable)
        have hf := World.Glances.sameFrame hg
        have hr : w₂.watchers.get r = watcher := by
          rw [hf.watchers]
          exact (w.watchers.get_add _ r).trans (if_pos rfl)
        have hl : r.index < w₂.watchers.size := by
          rw [hf.watchers, World.size_addWatcher]
          exact Nat.lt_succ_self _
        let w₃ := w₂.tell (.made r u)
        have htell : w₂.Gains base L m [] [] w₃ := .ofView hgain.bindable (.refl _) _
        have henlist :
            w₃.Gains base L m [(p, callback)] [] ((w₃.remember r u).keepWatcher m r) := by
          have h := htell.bindable.enlist base L hl u
          rwa [show w₃.watchers.get r = watcher from hr] at h
        refine ⟨p, r, (w₃.remember r u).keepWatcher m r, rfl, ViewModel.watch_seen hpath heval,
          (hgain.trans htell).trans henlist, ?_, hf.view⟩
        have hvalue : ((w₃.remember r u).watchers.get r).value = u :=
          congrArg Watcher.value (w₂.watchers.get_modify_self _ hl)
        exact (congrArg Value.text hvalue).trans (Eq.symm htext)

variable (base L) in
theorem Face.bind_gains (hw : w.Bindable m) (face : Face) (n : Ref .node) (path : String) :
    (∀ f, w.found? k m path = some (.error f) → ∃ w',
      face.bind (Engine.ofFuel k).compute n m path w = some (.error f, w') ∧
        w.Gains base L m [] [] w') ∧
    ∀ v, w.found? k m path = some (.ok v) → ∃ p w', Path.parse path = .ok p ∧
      face.bind (Engine.ofFuel k).compute n m path w = some (.ok (), w') ∧
        w'.view = w.view.write face n v.text ∧
          (View.Changes base L [] w.view w'.view →
            w.Gains base L m [(p, .write face n)] [] w') := by
  obtain ⟨herr, hok⟩ := ViewModel.watch_gains (k := k) hw base L path (.write face n)
  refine ⟨fun f hf => ?_, fun v hv => ?_⟩
  · obtain ⟨w', he, hg⟩ := herr f hf
    exact ⟨w', by rw [bind, Action.bind_apply, he], hg⟩
  · obtain ⟨p, r, w₁, hp, he, hg, hr, hview⟩ := hok v hv
    refine ⟨p, { w₁ with
      view := w₁.view.write face n v.text
      trace := w₁.trace.push (.wrote m face n v.text) }, hp, ?_,
      congrArg (·.write face n v.text) hview, fun hch => ?_⟩
    · rw [bind, Action.bind_apply, he]
      dsimp only
      rw [Action.get_bind, hr]
      rfl
    · have hch' : View.Changes base L [] w₁.view (w₁.view.write face n v.text) := by
        rw [hview] at hch ⊢
        exact hch
      exact hg.trans (.ofView hg.bindable hch' _)

end Watching

end ViewBinding
