import ViewBinding.Proofs.Run.Bindings
import ViewBinding.Script.Run

/-! The steps of scripts, one by one, all go onward. -/

namespace ViewBinding

namespace World

theorem Passes.weaken {S : List Subscriber} {w w' : World} (h : w.Passes S [] w') :
    w.Passes [] [] w' :=
  { h with current := fun P hc => h.current P (hc.mono fun _ hs => List.mem_append_right S hs) }

theorem Grown.knownNodes {w w' : World} (h : w.Grown w') (ns : Std.ExtTreeSet Nat) :
    w.Grown { w' with knownNodes := ns } :=
  h.trans { Grown.refl w' with
    newSlot := fun o key slot ho hs => ((Grown.refl w').newSlot o key slot ho hs).mono
      (Nat.le_refl _) (Nat.le_refl _) }

end World

namespace Script

variable {α : Type} {w w' : World} {n : Nat} {f : Frame}

section Lookup

theorem value_goes (hw : w.Valid) (hf : f.Valid w) (x : Expr) :
    (value (Engine.ofFuel n) f x).Goes w fun v w' => v.Within w'.objects.size :=
  Reading.Goes.once (x.eval_goes hw hf)

theorem withModel_goes {x : Ref .model → Action α} (hw : w.Valid) (hf : f.Valid w)
    (name : Option String) (hx : ∀ m w', w'.Valid → f.Valid w' → m ∈ w'.modelsInUse →
      (x m).Goes w' fun _ _ => True) : (withModel f name x).Goes w fun _ _ => True := by
  refine .get (.bind (Q := fun m w' => w'.modelAlive m)
    (.ofExcept hw fun m hm => hf.findModel hm) fun m w' ho hm => ?_)
  have hu := World.passes_useModel ho.valid hm
  exact .usingModel ho.valid hm
    (hx m _ hu.valid ((hf.onward ho).useModel m) List.mem_cons_self)

theorem findNode_apply (k : Nat) (w : World) :
    ∃ ns, findNode k w = some (if k ∈ ns then .ok ⟨k⟩ else .error (.noSuch .node),
      { w with knownNodes := ns }) := by
  rw [findNode, Action.get_bind]
  by_cases h : k ∈ w.knownNodes
  · refine ⟨w.knownNodes, ?_⟩
    rw [if_pos h, if_pos h]
    show (if k ∈ w.knownNodes then pure _ else throw _ : Action (Ref .node)) w = _
    rw [if_pos h]
    rfl
  · let known := w.meet (nodesBelow w.view w.view.nodes.size (w.knownNodes.toList.map Ref.mk))
    refine ⟨known.knownNodes, ?_⟩
    rw [if_neg h]
    show (if k ∈ known.knownNodes then pure _ else throw _ : Action (Ref .node)) known = _
    split <;> rfl

theorem findNode_bind (k : Nat) (x : Ref .node → Action α) (w : World) :
    ∃ ns, (findNode k >>= x) w =
      if k ∈ ns then x ⟨k⟩ { w with knownNodes := ns }
      else some (.error (.noSuch .node), { w with knownNodes := ns }) := by
  obtain ⟨ns, h⟩ := findNode_apply k w
  refine ⟨ns, ?_⟩
  rw [Action.bind_apply, h]
  by_cases hk : k ∈ ns
  · rw [if_pos hk, if_pos hk]
  · rw [if_neg hk, if_neg hk]

theorem findNode_goes {k : Nat} {x : Ref .node → Action α} (hw : w.Valid)
    (hx : ∀ w', w.Onward w' → (x ⟨k⟩).Goes w' fun _ _ => True) :
    (findNode k >>= x).Goes w fun _ _ => True := by
  intro r w' h
  obtain ⟨ns, hk⟩ := findNode_bind k x w
  have ho : w.Onward { w with knownNodes := ns } := (World.Noted.knownNodes w ns).onward hw
  rw [hk] at h
  split at h
  · exact ⟨ho.trans (hx _ ho r w' h).1, fun _ _ => trivial⟩
  · cases h
    exact ⟨ho, fun _ _ => trivial⟩

theorem find_goes {g : Fault} {find : World → Option α} (hw : w.Valid) :
    (MonadState.get >>= fun w : World => Action.require g (find w)).Goes w fun _ _ => True :=
  .get (.require hw _ fun _ _ => trivial)

end Lookup

section Watch

variable (hw : w.Valid)

theorem findWatcher_goes (hw : w.Valid) (id : String) :
    (findWatcher id).Goes w fun r w' => w'.alive (.watcher r) :=
  .get (.require hw _ fun _ h => World.alive_of_named h)

include hw

theorem watch_goes (hf : f.Valid w) (name : Option String) (id path : String) {steps : List Step}
    (hs : Step.AllPlain steps) :
    (watch (Engine.ofFuel n) f name id path steps).Goes w fun _ _ => True :=
  withModel_goes hw hf name fun m w' hw' _ hm =>
    .reply_get (ViewModel.watch_goes hw' (hw'.usedModel m hm) path
      fun _ _ h => by cases h; exact hs)

theorem watcher_goes (hf : f.Valid w) (name : Option String) (id path : String) {steps : List Step}
    (hs : Step.AllPlain steps) :
    (watcher (Engine.ofFuel n) f name id path steps).Goes w fun _ _ => True := by
  refine withModel_goes hw hf name fun m w' hw' _ hm => .bind
    (Watcher.create_goes hw' (hw'.usedModel m hm) path fun _ _ h => by cases h; exact hs)
    fun r w'' ho hr => .reply_get (Q := fun _ _ => True) (.modify ?_ trivial)
  refine World.onward_rename ho.valid _ (fun m h => (World.modelAlive_iff m).2 (.inl h))
    (fun r' h => ?_) ho.valid.saved
  obtain rfl | h := Holder.holds_bind _ _ h
  · exact .inr hr
  · exact .inl h

theorem watcherUpdate_goes (he : (Engine.ofFuel n).Calls) (id : String) :
    (watcherUpdate (Engine.ofFuel n) id).Goes w fun _ _ => True := by
  refine .bind (findWatcher_goes hw id) fun r w' ho hr =>
    .reply (.usingSubscriber (Q := fun _ _ => True) ho.valid hr fun res w'' h => ?_)
  have hu := World.onward_useSubscribers ho.valid [.watcher r]
    fun t ht => by rwa [List.mem_singleton.1 ht]
  obtain ⟨hp, hm⟩ := Watcher.update_settles he hu.valid (ho.valid.lt_of_alive hr) h
  exact ⟨⟨hp.weaken, hm⟩, fun _ _ => trivial⟩

end Watch

theorem saveValue_goes (hw : w.Valid) (name : String) {v : Value} (hv : v.Within w.objects.size) :
    (changeNames fun names => { names with values := names.values.insert name v }).Goes w
      fun _ _ => True := by
  refine .modify ?_ trivial
  refine World.onward_rename hw _ (fun m h => (World.modelAlive_iff m).2 (.inl h))
    (fun r h => .inl h) fun name' u hu => ?_
  rw [Std.ExtTreeMap.getElem?_insert] at hu
  split at hu
  · cases hu
    exact hv
  · exact hw.saved name' u hu

theorem evaluate_goes {x : Reading α} {Q : α → World → Prop} (hx : x.Goes w Q)
    (s : Option Subscriber) : (x.evaluate s).Goes w fun _ _ => True := by
  intro r w' h
  obtain ⟨⟨⟨r', e⟩, w₁⟩, hr, he⟩ := Option.map_eq_some_iff.1 h
  cases he
  exact ⟨(hx _ _ _ _ hr).1, fun _ _ => trivial⟩

theorem outcome_goes {x : Reading α} {Q : α → World → Prop} (hx : x.Goes w Q) :
    (outcome x).Goes w fun _ _ => True := by
  intro e r e' w' h
  rw [Reading.outcome_apply, Option.map_eq_some_iff] at h
  obtain ⟨⟨⟨r', e₁⟩, w₁⟩, hr, he⟩ := h
  cases he
  exact ⟨(hx _ _ _ _ hr).1, fun _ _ => trivial⟩

theorem readAll_goes {β : Type} {l : List β} {x : β → Reading α} (hw : w.Valid)
    (hx : ∀ b ∈ l, ∀ w', w.Onward w' → (x b).Goes w' fun _ _ => True) :
    (l.mapM x).Goes w fun _ _ => True := by
  induction l generalizing w with
  | nil => exact .pure hw trivial
  | cons b l ih =>
    rw [List.mapM_cons]
    refine .bind (hx b List.mem_cons_self w (.refl hw)) fun _ w' ho _ =>
      .bind (ih ho.valid fun c hc w'' ho' => hx c (List.mem_cons_of_mem b hc) w'' (ho.trans ho'))
        fun _ _ ho' _ => .pure ho'.valid trivial

theorem track_goes (hw : w.Valid) (hf : f.Valid w) (name : Option String) (reaction : String)
    (paths : List String) :
    (track (Engine.ofFuel n) f name reaction paths).Goes w fun _ _ => True := by
  refine .bind (find_goes hw) fun r w₁ ho₁ _ => .bind
    (evaluate_goes (readAll_goes ho₁.valid fun path _ w' ho => .getWorld (.bind
      (Q := fun m w' => m.index < w'.models.size) (.ofExcept ho.valid fun m hm => ?_)
        fun m w'' ho' hm => outcome_goes (ViewModel.read_goes ho'.valid hm path))) _)
    fun p w₂ ho₂ _ => .bind (Q := fun _ _ => True) (.ofExcept ho₂.valid fun _ _ => trivial)
      fun _ _ ho₃ _ => .pure ho₃.valid trivial
  exact ho.valid.lt_of_modelAlive ((hf.onward (ho₁.trans ho)).findModel hm)

theorem trackCell_goes (hw : w.Valid) (reaction id : String) :
    (trackCell reaction id).Goes w fun _ _ => True := by
  refine .bind (find_goes hw) fun r w₁ ho₁ _ =>
    .bind (find_goes ho₁.valid) fun c w₂ ho₂ _ => .bind
      (evaluate_goes (Q := fun _ _ => True) (fun e res e' w' h => ?_) _) fun p w₃ ho₃ _ =>
        .bind (Q := fun _ _ => True) (.ofExcept ho₃.valid fun _ _ => trivial) fun _ _ ho₄ _ =>
          .pure ho₄.valid trivial
  rw [Reading.Sees.cell c e w₂ ho₂.valid.tracked.steady] at h
  obtain ⟨⟨res', ms⟩, -, he⟩ := Option.map_eq_some_iff.1 h
  cases he
  exact ⟨(World.Noted.leaveAll ms (e, w₂)).onward ho₂.valid, fun _ _ => trivial⟩

theorem register_goes (hw : w.Valid) (id reaction : String) :
    (register id reaction).Goes w fun _ _ => True := by
  refine .bind (find_goes hw) fun r w₁ ho₁ _ =>
    .bind (find_goes ho₁.valid) fun s w₂ ho₂ _ => .get ?_
  cases h : (w₂.registry (.registry r)).add? (.reaction s) with
  | none => exact .pure ho₂.valid trivial
  | some registry =>
    exact .reply (Q := fun _ _ => True)
      (.modify ((World.Noted.setRegistry h).onward ho₂.valid) trivial)

theorem plant_goes (hw : w.Valid) (markup : Markup) : (plant markup).Goes w fun _ _ => True :=
  .get <| .bind (Q := fun _ _ => True)
    (.modifyGet ((World.Noted.view w _).onward hw) trivial) fun _ w₁ ho₁ _ =>
      .bind (Q := fun _ _ => True)
        (.modify ((World.Noted.knownNodes w₁ _).onward ho₁.valid) trivial) fun _ _ ho₂ _ =>
          .pure ho₂.valid trivial

theorem create_goes (hw : w.Valid) (markup : Markup) : (create markup).Goes w fun _ _ => True :=
  .reply (plant_goes hw markup)

theorem call_method_goes (he : (Engine.ofFuel n).Calls) (hw : w.Valid) {m : Ref .model}
    (hm : m ∈ w.modelsInUse) (method : String) (event : Event) :
    (ViewModel.call (Engine.ofFuel n) m method event).Goes w fun _ _ => True := by
  refine .get (.bind (Q := fun steps w' => Step.AllPlain steps ∧ m ∈ w'.modelsInUse)
    (.require hw _ fun steps h => ⟨hw.methods m method steps h, hm⟩) fun steps w₁ ho₁ hs =>
      .bind (.tell ho₁.valid _) fun _ w₂ ho₂ _ => he _ steps w₂ ho₂.valid ?_ hs.1)
  refine ⟨fun m' h => ?_, fun c h => nomatch h⟩
  cases h
  rw [ho₂.used]
  exact hs.2

theorem setup_apply {data : Option Expr} (hd : Expr.IsOwn data) (computed : List (String × Expr))
    (methods : List (String × List Step)) (w : World) :
    ∃ d, setup (Engine.ofFuel n) f data computed methods w =
      some (.ok { data := (World.observe d w).1, computed, methods }, (World.observe d w).2) := by
  cases data with
  | none => exact ⟨.object [], rfl⟩
  | some x =>
    cases x with
    | data d => exact ⟨d, rfl⟩
    | _ => cases hd

theorem nameModel_goes (hw : w.Valid) (name : Option String) {m : Ref .model}
    (hm : w.modelAlive m) : (nameModel name m).Goes w fun _ _ => True := by
  refine .modify (World.onward_rename hw _ (fun m' h => ?_) (fun r h => .inl h) hw.saved) trivial
  obtain rfl | h := Holder.holds_bind _ _ h
  · exact hm
  · exact (World.modelAlive_iff m').2 (.inl h)

theorem build_goes (hw : w.Valid) (name : Option String) {data : Option Expr}
    (hd : Expr.IsOwn data) {computed : List (String × Expr)} (hc : ∀ c ∈ computed, c.2.Tracked)
    {methods : List (String × List Step)} (hm : Step.PlainMethods methods) :
    (build (Engine.ofFuel n) f name data computed methods).Goes w fun _ _ => True := by
  intro r w' h
  refine ⟨?_, fun _ _ => trivial⟩
  obtain ⟨d, hs⟩ := setup_apply (n := n) (f := f) hd computed methods w
  rw [build, Action.bind_apply, hs] at h
  obtain ⟨hg, hv⟩ := World.observe_grown d w
  cases ho : (World.observe d w).1.object? with
  | none =>
    dsimp only at h
    rw [Action.bind_apply, ViewModel.create_apply] at h
    simp only [ho] at h
    cases h
    exact hg.onward hw
  | some o =>
    obtain ⟨w₂, hcr, hg₂, hlt⟩ := ViewModel.create_grown
      { data := (World.observe d w).1, computed, methods } hg ho (World.observe_fresh ho)
      (hv o ho) hc ((Step.plainMethods_iff methods).1 hm)
    dsimp only at h
    rw [Action.bind_apply, hcr] at h
    cases h
    exact hg₂.onward_bind hw _ hg.models hlt

theorem mount_goes (hw : w.Valid) (name : Option String) (target : Target)
    {data : Option Expr} (hd : Expr.IsOwn data) {computed : List (String × Expr)}
    (hc : ∀ c ∈ computed, c.2.Tracked) {methods : List (String × List Step)}
    (hm : Step.PlainMethods methods) (settings : Settings) :
    (mount (Engine.ofFuel n) f name target data computed methods settings).Goes w
      fun _ _ => True := by
  intro r w' h
  refine ⟨?_, fun _ _ => trivial⟩
  obtain ⟨d, hs⟩ := setup_apply (n := n) (f := f) hd computed methods w
  rw [mount.eq_def, Action.bind_apply, hs] at h
  obtain ⟨hg, hv⟩ := World.observe_grown d w
  have hat (point : MountPoint) {w₁ : World} (hg₁ : w.Grown w₁)
      (ho : (World.observe d w).2.objects.size = w₁.objects.size)
      (h : (ViewModel.mount (Engine.ofFuel n).compute point
        { data := (World.observe d w).1, computed, methods } settings (nameModel name) >>=
          fun m => watcherCount m >>= fun k => pure (.watchers k)) w₁ = some (r, w')) :
      w.Onward w' := by
    have hd' (o : Ref .object) (h : (World.observe d w).1.object? = some o) :
        w.objects.size ≤ o.index ∧ o.index < w₁.objects.size :=
      ⟨World.observe_fresh h, Nat.lt_of_lt_of_eq (hv o h) ho⟩
    have hk (m : Ref .model) (w : World) (hw : w.Valid) (hm : w.modelAlive m) :=
      nameModel_goes hw name hm
    have hm' := (Step.plainMethods_iff methods).1 hm
    obtain ⟨g, hb, rfl⟩ | ⟨m, w₂, hb, h⟩ := Action.bind_eq_some h
    · exact ViewModel.mount_onward hw hg₁ hd' hc hm' hk hb
    · cases h
      exact ViewModel.mount_onward hw hg₁ hd' hc hm' hk hb
  cases target with
  | selector text => exact hat (.selector text) hg rfl h
  | node k =>
    obtain ⟨ns, hn⟩ := findNode_apply k (World.observe d w).2
    have hg' := hg.knownNodes ns
    have hp : (MountPoint.node <$> findNode k) (World.observe d w).2 =
        some (if k ∈ ns then .ok (.node ⟨k⟩) else .error (.noSuch .node),
          { (World.observe d w).2 with knownNodes := ns }) := by
      show Option.bind (findNode k _) _ = _
      rw [hn]
      split <;> rfl
    obtain ⟨g, hb, rfl⟩ | ⟨point, w₁, hb, h⟩ := Action.bind_eq_some h
    · rw [hp] at hb
      obtain ⟨-, rfl⟩ := Prod.mk.inj (Option.some.inj hb)
      exact hg'.onward hw
    · rw [hp] at hb
      obtain ⟨-, rfl⟩ := Prod.mk.inj (Option.some.inj hb)
      exact hat point hg' rfl h

end Script

end ViewBinding
