import ViewBinding.Proofs.Mirrors.Steps

/-! New view-models, and the view trees that are bound to them. After a view tree was mounted each
of its faces shows what its watcher saw. -/

namespace ViewBinding

open Action.Draws World

variable {P : Step → Prop} {T T' : Arrays} {w w' w'' : World} {n : Nat} {f : Frame} {m : Ref .model}

namespace World

theorem Displayed.aside (h : w.Displayed w') (ha : w'.Aside w'') : w.Displayed w'' := by
  intro r face n hr hc
  rw [ha.watchers] at hc
  obtain ⟨ns, hb⟩ := h r face n hr hc
  exact ⟨ns, hb.dab ha.dab⟩

theorem Displayed.of_watchers (h : w'.Displayed w'') (hw : w'.watchers = w.watchers) :
    w.Displayed w'' :=
  fun r face n hr hc => h r face n (by rwa [hw]) hc

theorem Told.addModel (hw : w.Told P T) {model : ViewModel}
    (hm : ∀ (name : String) steps, model.methods[name]? = some steps → Step.EveryAll P steps) :
    Drawn P P T w T { w with models := w.models.add model } := by
  refine .stroke ⟨hw.stored.addModel fun _ => hm,
    hw.knows.of_same rfl (fun _ => rfl) (fun _ => rfl) rfl⟩
    (.dab (.still rfl ⟨Nat.le_refl _, fun _ _ => rfl, ?_, fun m r hr => ?_⟩))
  · show _ ≤ (w.models.add model).size
    rw [Store.size_add]
    exact Nat.le_succ _
  · show r ∈ ((w.models.add model).get m).watchers
    by_cases hl : m.index < w.models.size
    · rwa [Store.get_add_of_lt _ _ hl]
    · rw [Store.get_of_size_le _ (Nat.le_of_not_lt hl)] at hr
      cases hr

end World

theorem ViewModel.create_draws (hw : w.Told P T) {setup : Setup}
    (hm : Step.EveryMethod P setup.methods) :
    Action.Draws P P T w (ViewModel.create setup) fun m _ w' =>
      w'.view = w.view ∧ w'.watchers = w.watchers ∧ m.index < w'.models.size := by
  intro r w' h
  rw [ViewModel.create_apply] at h
  cases hd : setup.data.object? with
  | none =>
    rw [hd] at h
    cases h
    exact ⟨T, .refl hw, fun _ he => nomatch he⟩
  | some data =>
    rw [hd] at h
    dsimp only at h
    rw [World.define_models] at h
    have hmethods : ∀ (name : String) steps, setup.methodTable[name]? = some steps →
        Step.EveryAll P steps := Setup.methodTable_forall ((Step.everyMethod_iff _).1 hm)
    let w₁ : World := { w with models := w.models.add { data, methods := setup.methodTable } }
    have hadd : Drawn P P T w T w₁ := hw.addModel hmethods
    have hdef := Aside.define w₁ data w.models.fresh setup.computed
    cases h
    refine ⟨T, hadd.trans (hdef.drawn hadd.told), fun m he => ?_⟩
    cases he
    refine ⟨hdef.view, hdef.watchers, Nat.lt_of_lt_of_le ?_ hdef.models⟩
    show _ < (w.models.add _).size
    rw [Store.size_add]
    exact Nat.lt_succ_self _

namespace Script

theorem setup_draws (hw : w.Told P T) (hf : f.Known T) (data : Option Expr)
    (computed : List (String × Expr)) (methods : List (String × List Step)) :
    Action.Draws P P T w (setup (Engine.ofFuel n) f data computed methods) fun s _ w' =>
      s.methods = methods ∧ w.SameFrame w' := by
  intro r w' h
  obtain ⟨hs, hg⟩ := setup_glances data computed methods w r w' h
  obtain ⟨T', hd, -⟩ :=
    Action.Draws.bind (value_draws (n := n) hw hf (data.getD (.data (.object []))))
      (fun v _ _ hd _ => .pure (Q := Action.Any) (a := Setup.mk v computed methods) hd.told trivial)
      r w' h
  refine ⟨T', hd, fun s he => ⟨?_, World.Glances.sameFrame hg⟩⟩
  subst he
  exact (setup_eq h).2

theorem nameModel_draws (hw : w.Told P T) (name : Option String) (m : Ref .model) :
    Action.Draws P P T w (nameModel name m) fun _ _ w' => w.Aside w' := by
  have hname : w.Aside { w with names :=
    { w.names with models := w.names.models.bind (modelName name) m } } := .rename w _ rfl
  exact .modify (hname.drawn hw) hname

theorem build_draws (hw : w.Told P T) (hf : f.Known T) (name : Option String)
    (data : Option Expr) (computed : List (String × Expr)) {methods : List (String × List Step)}
    (hm : Step.EveryMethod P methods) :
    Action.Draws P P T w (build (Engine.ofFuel n) f name data computed methods) Action.Any := by
  refine .bind (setup_draws hw hf data computed methods) fun s _ _ hd₁ hs => ?_
  rw [← hs.1] at hm
  exact .bind (ViewModel.create_draws hd₁.told hm) fun m _ _ hd₂ _ =>
    .bind (nameModel_draws hd₂.told name m) fun _ _ _ hd₃ _ => .get (.pure hd₃.told trivial)

theorem bindNew_draws (hw : w.Told P T) {s : Step} {root : Ref .node} (hs : P s)
    (hb : s.BindsBelow root) {setup : Setup} (hm : Step.EveryMethod P setup.methods)
    (settings : Settings) (name : Option String) :
    Action.Draws P P T w (ViewModel.create setup >>= fun m => Action.usingModel m
      (settings.compile (Engine.ofFuel n).compute m root >>= fun _ => nameModel name m) >>=
        fun _ => Pure.pure m) fun _ _ w' => w.view.Forest → w.Displayed w' := by
  refine .bind (ViewModel.create_draws hw hm) fun m T₁ w₁ hd₁ hnew => ?_
  obtain ⟨hview, hwatchers, hlt⟩ := hnew
  have huse : Drawn P P T₁ w₁ T₁ (w₁.useModel m) := (Aside.useModel w₁ m).drawn hd₁.told
  have hx : Action.Draws P P T₁ (w₁.useModel m)
      (settings.compile (Engine.ofFuel n).compute m root >>= fun _ => nameModel name m)
      fun _ _ w' => w.view.Forest → w.Displayed w' := by
    refine .bind (settings.compile_draws (k := n) huse.told hs hb m) fun _ T₂ w₂ hd₂ hshown => ?_
    intro r w' h
    obtain ⟨T', hd, ha⟩ := nameModel_draws hd₂.told name m r w' h
    refine ⟨T', hd, fun a he hforest => ?_⟩
    have hcompiled := hshown (by rwa [← hview] at hforest) hlt
    exact (Displayed.of_watchers hcompiled hwatchers).aside (ha a he)
  refine .bind (usingModel hd₁.told hx) fun _ T₂ w₂ hd₂ hq => .pure hd₂.told fun hforest => ?_
  obtain ⟨w₃, ha, hshown⟩ := hq
  exact (hshown hforest).aside ha

theorem mountAt_draws (hw : w.Told P T) {s : Step} (hs : P s) (point : MountPoint)
    (hb : ∀ root, point.find w.view = some root → s.BindsBelow root) {setup : Setup}
    (hm : Step.EveryMethod P setup.methods) (settings : Settings) (name : Option String) :
    Action.Draws P P T w (ViewModel.mount (Engine.ofFuel n).compute point setup settings
      (nameModel name)) fun _ _ w' => w.view.Forest → w.Displayed w' := by
  cases point with
  | node root =>
    refine .bind (.pure (Q := fun root' _ w' => root' = root ∧ w' = w) hw ⟨rfl, rfl⟩)
      fun root' _ w' hd he => ?_
    obtain ⟨rfl, rfl⟩ := he
    exact bindNew_draws hd.told hs (hb root' rfl) hm settings name
  | selector text =>
    refine .get <| .bind (require (Q := fun root _ w' => w.view.query text = some root ∧ w' = w)
      hw _ fun root hroot => ⟨hroot, rfl⟩) fun root _ w' hd he => ?_
    obtain ⟨hroot, rfl⟩ := he
    exact bindNew_draws hd.told hs (hb root hroot) hm settings name

/-- Whatever view tree is mounted, each of its faces shows what its watcher saw. -/
theorem mount_draws (hw : w.Told P T) (hf : f.Known T) (name : Option String) (target : Target)
    (data : Option Expr) (computed : List (String × Expr)) {methods : List (String × List Step)}
    (settings : Settings) (hs : P (.mount name target data computed methods settings))
    (hm : Step.EveryMethod P methods) :
    Action.Draws P P T w (mount (Engine.ofFuel n) f name target data computed methods settings)
      fun _ _ w' => w.view.Forest → w.Displayed w' := by
  refine .bind (setup_draws hw hf data computed methods) fun setup T₁ w₁ hd₁ hsetup => ?_
  obtain ⟨hmethods, hframe⟩ := hsetup
  rw [← hmethods] at hm
  have hmount {T₂ : Arrays} {w₂ : World} (hw₂ : w₂.Told P T₂) (hview : w₂.view = w.view)
      (hwatchers : w₂.watchers = w.watchers) (point : MountPoint)
      (hb : ∀ root, point.find w₂.view = some root →
        Step.BindsBelow root (.mount name target data computed methods settings)) :
      Action.Draws P P T₂ w₂ (ViewModel.mount (Engine.ofFuel n).compute point setup settings
        (nameModel name) >>= fun m => watcherCount m >>= fun k => Pure.pure (Answer.watchers k))
        fun _ _ w' => w.view.Forest → w.Displayed w' := by
    refine .bind (mountAt_draws hw₂ hs point hb hm settings name) fun m T₃ w₃ hd₃ hshown => .get ?_
    exact .pure hd₃.told fun hforest =>
      (hshown (hview ▸ hforest)).of_watchers hwatchers
  cases target with
  | selector text =>
    exact hmount hd₁.told hframe.view hframe.watchers (.selector text) fun _ _ => trivial
  | node k =>
    have hfind : Action.Draws P P T₁ w₁ (MountPoint.node <$> findNode k) fun point _ w' =>
        point = .node ⟨k⟩ ∧ w'.view = w.view ∧ w'.watchers = w.watchers := by
      rw [← bind_pure_comp]
      refine .bind (findNode_draws hd₁.told k) fun node _ _ hd he => .pure hd.told ?_
      obtain ⟨rfl, known, rfl⟩ := he
      exact ⟨rfl, hframe.view, hframe.watchers⟩
    refine .bind hfind fun point _ _ hd he => ?_
    obtain ⟨rfl, hview, hwatchers⟩ := he
    exact hmount hd.told hview hwatchers (.node ⟨k⟩) fun root h => (Option.some.inj h).symm

end Script

end ViewBinding
