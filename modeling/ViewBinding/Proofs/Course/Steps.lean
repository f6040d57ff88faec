import ViewBinding.Proofs.Course.Bindings

/-! The steps of scripts proceed in moves, and so do scripts that call each other. -/

namespace ViewBinding

variable {P : Step → Prop} {u : Uses} {n : Nat} {f : Frame} {w w' : World}

def Frame.InUse (f : Frame) (u : Uses) : Prop := ∀ m, f.model = some m → m ∈ u.models

theorem Frame.InUse.cons (hf : f.InUse u) (m : Ref .model) :
    f.InUse ⟨m :: u.models, u.subscribers⟩ := fun m' h => List.mem_cons_of_mem m (hf m' h)

namespace Script

section Lookup

variable {α : Type}

theorem value_glances (n : Nat) (f : Frame) (x : Expr) :
    (value (Engine.ofFuel n) f x).Glances :=
  (Expr.eval_proceeds f (Engine.compute_proceeds n) x).once

theorem value_proceeds (n : Nat) (f : Frame) (x : Expr) :
    (value (Engine.ofFuel n) f x).Proceeds P u := (value_glances n f x).proceeds

theorem withModel_proceeds {x : Ref .model → Action α} (hf : f.InUse u) (name : Option String)
    (hx : ∀ m, (x m).Proceeds P ⟨m :: u.models, u.subscribers⟩) :
    (withModel f name x).Proceeds P u := by
  intro w r w' hu hw h
  have hf' : ∀ m, f.model = some m → m ∈ w.modelsInUse := by
    subst hu
    exact hf
  rw [withModel, Action.get_bind] at h
  cases hm : f.findModel w name with
  | error g =>
    rw [hm] at h
    exact Action.Proceeds.throw (α := α) g w r w' hu hw h
  | ok m =>
    rw [hm] at h
    exact Action.Proceeds.usingModel hu hw (Frame.modelAlive_of_findModel hf' hm) (hx m) h

theorem findNode_proceeds {k : Nat} {x : Ref .node → Action α} (hx : (x ⟨k⟩).Proceeds P u) :
    (findNode k >>= x).Proceeds P u := by
  intro w r w' hu hw h
  obtain ⟨known, hk⟩ := findNode_bind k x w
  have hmove : w.Move P [] { w with knownNodes := known } := .meet w known
  rw [hk] at h
  split at h
  · obtain ⟨hu', hs, hc⟩ := hx { w with knownNodes := known } _ _ hu (hmove.stored hw) h
    exact ⟨hu', _, (World.Along.single hmove).trans hc⟩
  · cases h
    exact ⟨hu, _, .single hmove⟩

theorem findNode_self_proceeds (k : Nat) : (findNode k).Proceeds P u := by
  have h := findNode_proceeds (P := P) (u := u) (k := k) (.pure (⟨k⟩ : Ref .node))
  rwa [bind_pure] at h

theorem changeNames_proceeds {change : Names → Names}
    (h : ∀ w : World, w.uses = u → w.Renamed (change w.names)) :
    (changeNames change).Proceeds P u :=
  .modify (fun _ => rfl) fun w _ hu => ⟨_, .rename (h w hu)⟩

theorem find_proceeds {f : Fault} {find : World → Option α} :
    (MonadState.get >>= fun w : World => Action.require f (find w)).Proceeds P u :=
  .get fun _ _ _ => .require _ _

end Lookup

section Model

theorem setup_glances (data : Option Expr) (computed : List (String × Expr))
    (methods : List (String × List Step)) :
    (setup (Engine.ofFuel n) f data computed methods).Glances :=
  .bind (value_glances n f _) fun _ => .pure _

theorem nameModel_proceeds (name : Option String) {m : Ref .model} (hm : m ∈ u.models) :
    (nameModel name m).Proceeds P u := by
  refine changeNames_proceeds fun w hu => .model _ ?_
  subst hu
  exact hm

theorem watcherCount_proceeds (m : Ref .model) : (watcherCount m).Proceeds P u :=
  .get fun _ _ _ => .pure _

theorem setup_eq {data : Option Expr} {computed : List (String × Expr)}
    {methods : List (String × List Step)} {s : Setup}
    (h : setup (Engine.ofFuel n) f data computed methods w = some (.ok s, w')) :
    s.computed = computed ∧ s.methods = methods := by
  obtain ⟨g, -, he⟩ | ⟨v, w₁, -, h⟩ := Action.bind_eq_some h
  · cases he
  · cases h
    exact ⟨rfl, rfl⟩

/-- A view-model is made in two parts: its computed properties are defined one by one, and then it
is there. -/
theorem create_course {s : Setup} {res : Except Fault (Ref .model)}
    (hc : s.computed ≠ [] → Definable P) (h : ViewModel.create s w = some (res, w')) :
    (w' = w ∧ ∃ g, res = .error g) ∨ ∃ w₁ data hs, w.Course P hs w₁ ∧ w₁.uses = w.uses ∧
      res = .ok w₁.models.fresh ∧
      w' = { w₁ with models := w₁.models.add { data, methods := s.methodTable } } := by
  rw [ViewModel.create_apply] at h
  cases hd : s.data.object? with
  | none =>
    rw [hd] at h
    cases h
    exact .inl ⟨rfl, _, rfl⟩
  | some data =>
    rw [hd] at h
    cases h
    obtain ⟨hs, hcourse⟩ := World.define_course w data w.models.fresh hc
    have hm := w.models_define data w.models.fresh s.computed
    refine .inr ⟨_, data, hs, hcourse, w.uses_define .., ?_, ?_⟩ <;> rw [hm]

theorem build_proceeds (name : Option String) (data : Option Expr)
    {computed : List (String × Expr)} {methods : List (String × List Step)}
    (hc : computed ≠ [] → Definable P) (hm : Step.EveryMethod P methods) :
    (build (Engine.ofFuel n) f name data computed methods).Proceeds P u := by
  intro w r w' hu hw h
  obtain ⟨g, hs, rfl⟩ | ⟨s, w₁, hs, hrest⟩ := Action.bind_eq_some h
  · exact (setup_glances data computed methods).proceeds w _ w' hu hw hs
  obtain ⟨hu₁, hs₁, hc₁⟩ := (setup_glances data computed methods).proceeds w _ w₁ hu hw hs
  obtain ⟨rfl, rfl⟩ := setup_eq hs
  obtain ⟨g, hcr, rfl⟩ | ⟨m, w₂, hcr, hname⟩ := Action.bind_eq_some hrest
  · obtain ⟨rfl, -⟩ | ⟨_, _, _, _, _, he, -⟩ := create_course hc hcr
    · exact ⟨hu₁, _, hc₁⟩
    · cases he
  · obtain ⟨-, g, he⟩ | ⟨w₃, data, hs₃, hc₃, hu₃, he, rfl⟩ := create_course hc hcr
    · cases he
    · cases he
      cases hname
      have hmethods : ∀ (name : String) steps, s.methodTable[name]? = some steps →
          Step.EveryAll P steps := Setup.methodTable_forall ((Step.everyMethod_iff _).1 hm)
      have hmove := World.Move.build (P := P) w₃ { data, methods := s.methodTable }
        (modelName name) rfl fun _ => hmethods
      exact ⟨hu₃.trans hu₁, _, .snoc (hc₁.trans hc₃) hmove⟩

theorem bindNew_proceeds {s : Setup} (hc : s.computed ≠ [] → Definable P)
    (hm : Step.EveryMethod P s.methods) (settings : Settings) (name : Option String)
    (node : Ref .node) :
    (ViewModel.create s >>= fun m => Action.usingModel m
      (settings.compile (Engine.ofFuel n).compute m node >>= fun _ => nameModel name m) >>=
        fun _ => Pure.pure m).Proceeds P u := by
  intro w r w' hu hw h
  obtain ⟨g, hcr, rfl⟩ | ⟨m, w₁, hcr, hbind⟩ := Action.bind_eq_some h
  · obtain ⟨rfl, -⟩ | ⟨_, _, _, _, _, he, -⟩ := create_course hc hcr
    · exact ⟨hu, [], .nil _⟩
    · cases he
  obtain ⟨-, g, he⟩ | ⟨w₂, data, hs₂, hc₂, hu₂, he, rfl⟩ := create_course hc hcr
  · cases he
  cases he
  have hmethods : ∀ (name : String) steps, s.methodTable[name]? = some steps →
      Step.EveryAll P steps := Setup.methodTable_forall ((Step.everyMethod_iff _).1 hm)
  have hmove := World.Move.mount (P := P) w₂ { data, methods := s.methodTable } rfl
    fun _ => hmethods
  have huse : w₂.uses = u := hu₂.trans hu
  have hx : Action.Proceeds P ⟨w₂.models.fresh :: u.models, u.subscribers⟩
      (settings.compile (Engine.ofFuel n).compute w₂.models.fresh node >>= fun _ =>
        nameModel name w₂.models.fresh) :=
    .bind (settings.compile_proceeds List.mem_cons_self node) fun _ =>
      nameModel_proceeds name List.mem_cons_self
  -- Nothing has a name for the view-model yet, so it is in use while its view is bound.
  have hrun {res : Except Fault Unit} {w₃ : World}
      (h : Action.usingModel w₂.models.fresh
        (settings.compile (Engine.ofFuel n).compute w₂.models.fresh node >>= fun _ =>
          nameModel name w₂.models.fresh)
        { w₂ with models := w₂.models.add { data, methods := s.methodTable } } =
          some (res, w₃)) : w₃.uses = u ∧ ∃ hs, w.Course P hs w₃ := by
    subst huse
    obtain ⟨hu', hs', hc'⟩ := Action.Proceeds.andThen hmove
      (hmove.stored (World.Course.stored hc₂ hw)) rfl
      (fun w₁ hw₁ => ⟨World.uses_releaseModel hw₁, .releaseModel w₁ _⟩) hx h
    exact ⟨hu', _, hc₂.trans hc'⟩
  obtain ⟨g, hb, rfl⟩ | ⟨_, w₃, hb, hreply⟩ := Action.bind_eq_some hbind
  · exact hrun hb
  · cases hreply
    exact hrun hb

theorem mountAt_proceeds (point : MountPoint) {s : Setup} (hc : s.computed ≠ [] → Definable P)
    (hm : Step.EveryMethod P s.methods) (settings : Settings) (name : Option String) :
    (ViewModel.mount (Engine.ofFuel n).compute point s settings (nameModel name)).Proceeds P u := by
  cases point with
  | node node => exact .bind (.pure node) fun node => bindNew_proceeds hc hm settings name node
  | selector text =>
    exact .get fun _ _ _ => .bind (.require _ _) fun node =>
      bindNew_proceeds hc hm settings name node

theorem mount_proceeds (name : Option String) (target : Target) (data : Option Expr)
    {computed : List (String × Expr)} {methods : List (String × List Step)}
    (settings : Settings) (hc : computed ≠ [] → Definable P) (hm : Step.EveryMethod P methods) :
    (mount (Engine.ofFuel n) f name target data computed methods settings).Proceeds P u := by
  intro w r w' hu hw h
  obtain ⟨g, hs, rfl⟩ | ⟨s, w₁, hs, hrest⟩ := Action.bind_eq_some h
  · exact (setup_glances data computed methods).proceeds w _ w' hu hw hs
  obtain ⟨hu₁, hs₁, hc₁⟩ := (setup_glances data computed methods).proceeds w _ w₁ hu hw hs
  obtain ⟨rfl, rfl⟩ := setup_eq hs
  have hmount (point : MountPoint) := Action.Proceeds.bind (P := P) (u := u)
    (mountAt_proceeds (n := n) point hc hm settings name) fun m =>
      .reply (f := Answer.watchers) (watcherCount_proceeds m)
  have hcourse : w'.uses = u ∧ ∃ hs, w₁.Course P hs w' := by
    have hw₁ := World.Course.stored hc₁ hw
    cases target with
    | selector text => exact hmount (.selector text) w₁ r w' hu₁ hw₁ hrest
    | node k =>
      exact Action.Proceeds.bind (.map (findNode_self_proceeds k)) hmount w₁ r w' hu₁ hw₁ hrest
  obtain ⟨hu', hs', hc'⟩ := hcourse
  exact ⟨hu', _, hc₁.trans hc'⟩

end Model

section Watch

theorem watcher_proceeds (hf : f.InUse u) (name : Option String) (id path : String)
    {steps : List Step} (hs : Step.EveryAll P steps) :
    (watcher (Engine.ofFuel n) f name id path steps).Proceeds P u := by
  refine withModel_proceeds hf name fun m w r w' hu hw h => ?_
  obtain ⟨g, hcreate, rfl⟩ | ⟨r', w₁, hcreate, hname⟩ := Action.bind_eq_some h
  · obtain ⟨hu', ⟨-, hc⟩ | ⟨_, _, _, he, -⟩⟩ :=
      Watcher.create_cases (P := P) (.run id steps) hs hcreate
    · exact ⟨hu'.trans hu, hc⟩
    · cases he
  · obtain ⟨hu', ⟨⟨g, he⟩, -⟩ | ⟨p, hs', v, he, hmake⟩⟩ :=
      Watcher.create_cases (P := P) (.run id steps) hs hcreate
    · cases he
    · cases he
      cases hname
      have hc : (Callback.run id steps).Every P := hs
      exact ⟨hu'.trans hu, _, .single (.hold id hc hmake)⟩

theorem watcherUpdate_proceeds (he : Engine.Proceeds P (Engine.ofFuel n)) (id : String) :
    (watcherUpdate (Engine.ofFuel n) id).Proceeds P u := by
  intro w r w' hu hw h
  rw [watcherUpdate, findWatcher, bind_assoc, Action.get_bind] at h
  cases hr : w.names.watchers.held[id]? with
  | none =>
    rw [hr] at h
    exact Action.Proceeds.throw (α := Answer) _ w r w' hu hw h
  | some r' =>
    rw [hr] at h
    have ha : w.alive (.watcher r') := World.alive_of_named hr
    have hx : Action.Proceeds P ⟨u.models, .watcher r' :: u.subscribers⟩
        (Watcher.update (Engine.ofFuel n) r') := Watcher.update_proceeds he List.mem_cons_self
    obtain ⟨g, hb, rfl⟩ | ⟨_, w₁, hb, hreply⟩ := Action.bind_eq_some
      (x := Action.usingSubscriber (.watcher r') (Watcher.update (Engine.ofFuel n) r')) h
    · exact Action.Proceeds.usingSubscriber hu hw ha hx hb
    · cases hreply
      exact Action.Proceeds.usingSubscriber hu hw ha hx hb

end Watch

theorem track_proceeds (name : Option String) (reaction : String) (paths : List String) :
    (track (Engine.ofFuel n) f name reaction paths).Proceeds P u := by
  refine .bind find_proceeds fun r => .bind (Reading.Proceeds.evaluate (.mapM fun path _ => ?_)
    _).proceeds fun p => .bind (.ofExcept _) fun _ => .pure _
  exact .getWorld fun w => .bind (.ofExcept _) fun m =>
    .outcome (ViewModel.read_proceeds (Engine.compute_proceeds n) m path)

theorem trackCell_proceeds (reaction id : String) : (trackCell reaction id).Proceeds P u :=
  .bind find_proceeds fun _ => .bind find_proceeds fun c =>
    .bind ((Cell.read_proceeds c).evaluate _).proceeds fun _ =>
      .bind (.ofExcept _) fun _ => .pure _

theorem register_proceeds (id reaction : String) : (register id reaction).Proceeds P u := by
  refine .bind find_proceeds fun q => .bind find_proceeds fun r => ?_
  intro w res w' hu hw h
  rw [Action.get_bind] at h
  cases ha : (w.registry (.registry q)).add? (.reaction r) with
  | none =>
    simp only [ha] at h
    cases h
    exact ⟨hu, [], .nil w⟩
  | some registry =>
    simp only [ha] at h
    cases h
    exact ⟨hu, _, .single (.glance (.register ha trivial))⟩

theorem create_proceeds (markup : Markup) : (create markup).Proceeds P u :=
  .reply (.get fun _ _ _ => .bind (.modifyGet (fun _ => rfl) fun _ _ _ =>
    ⟨_, .edit (.create markup)⟩) fun n => .bind (.modify (fun _ => rfl) fun w _ _ =>
      ⟨_, .meet w _⟩) fun _ => .pure n)

end Script

end ViewBinding
