import ViewBinding.Proofs.Course.Steps
import ViewBinding.Proofs.Mirrors.Bonds

/-! The steps of scripts work on the view in strokes. -/

namespace ViewBinding

open Action.Draws World

variable {P : Step → Prop} {T T' : Arrays} {w w' : World} {n : Nat} {f : Frame} {m : Ref .model}

theorem World.Told.edit {s : Step} (hw : w.Told P T) (hs : P s) {v : View} (h : s.Edits w.view v) :
    Drawn P P T w T { w with view := v } := .stroke (hw.view v) (.edit hs h)

section Events

theorem Action.Draws.whileAlive {x : Action Unit} (hw : w.Told P T)
    (hx : ∀ w', w'.Told P T → Action.Draws P P T w' x Action.Any) :
    Action.Draws P P T w (MonadState.get >>= fun w : World =>
      if w.modelAlive m then Action.usingModel m x else Pure.pure ()) Action.Any := by
  refine .get ?_
  split
  · exact (usingModel hw (hx _ ((Aside.useModel w m).told hw))).any
  · exact .pure hw trivial

variable (he : Engine.Draws P (Engine.ofFuel n))
include he

theorem ViewModel.call_draws (hc : Callable P) (hw : w.Told P T) (m : Ref .model) (name : String)
    (event : Event) :
    Action.Draws P P T w (ViewModel.call (Engine.ofFuel n) m name event) Action.Any := by
  refine .get ?_
  cases hs : (w.models.get m).methods[name]? with
  | none => exact .throw hw _
  | some steps =>
    show Action.Draws P P T w (Action.tell (.method m name event) >>= fun _ =>
      (Engine.ofFuel n).call { model := some m, event := some event } steps) Action.Any
    exact .bind (tell hw _) fun _ T' w' hd _ => he _ steps T' w' hd.told (Frame.known_of_change rfl)
      (hw.stored.methods hc m name steps hs)

end Events

namespace Script

section Lookup

variable {α : Type} {Q : α → Arrays → World → Prop}

theorem value_draws (hw : w.Told P T) (hf : f.Known T) (x : Expr) :
    Action.Draws P P T w (value (Engine.ofFuel n) f x) fun v T' _ => v.Known T' :=
  once hw (Expr.eval_proceeds f (Engine.compute_proceeds n) x)
    (Expr.eval_yields (Engine.compute_yields n) x hw.knows hf)

theorem withModel_draws {x : Ref .model → Action α} (hw : w.Told P T) (name : Option String)
    (hx : ∀ m w', w'.Told P T → Action.Draws P P T w' (x m) Q) :
    Action.Draws P P T w (withModel f name x) Action.Any := by
  refine .get ?_
  cases f.findModel w name with
  | error g => exact .throw hw g
  | ok m => exact (usingModel hw (hx m _ ((Aside.useModel w m).told hw))).any

theorem findNode_draws (hw : w.Told P T) (k : Nat) :
    Action.Draws P P T w (findNode k) fun node _ w' =>
      node = ⟨k⟩ ∧ ∃ known, w' = { w with knownNodes := known } := by
  intro r w' h
  obtain ⟨known, hk⟩ := findNode_apply k w
  rw [hk] at h
  cases h
  refine ⟨T, (Aside.meet w known).drawn hw, fun node hn => ⟨?_, known, rfl⟩⟩
  split at hn
  · cases hn
    rfl
  · cases hn

theorem changeNames_draws {change : Names → Names} (hw : w.Told P T)
    (h : (change w.names).values = w.names.values) :
    Action.Draws P P T w (changeNames change) Action.Any :=
  .modify ((Aside.rename w _ h).drawn hw) trivial

theorem changeView_draws {s : Step} {change : View → View} (hw : w.Told P T) (hs : P s)
    (h : s.Edits w.view (change w.view)) :
    Action.Draws P P T w (changeView change) Action.Any :=
  .modify (hw.edit hs h) trivial

theorem find_draws {fault : Fault} {find : World → Option α} (hw : w.Told P T) :
    Action.Draws P P T w (MonadState.get >>= fun w : World => Action.require fault (find w))
      Action.Any :=
  .get (require hw _ fun _ _ => trivial)

end Lookup

theorem saveValue_draws (hw : w.Told P T) (name : String) {v : Value} (hv : v.Known T) :
    Action.Draws P P T w
      (changeNames fun names => { names with values := names.values.insert name v })
      Action.Any := by
  refine .modify (.stroke ⟨⟨hw.stored.callback, hw.stored.methods, hw.stored.reaction⟩, ?_⟩
    (.dab (.still rfl (.of_same rfl rfl)))) trivial
  refine { hw.knows with saved := fun name' u hu => ?_ }
  rw [Std.ExtTreeMap.getElem?_insert] at hu
  split at hu
  · cases hu
    exact hv
  · exact hw.knows.saved name' u hu

theorem addCell_draws (hw : w.Told P T) {v : Value} (hv : v.Known T) :
    Action.Draws P P T w (modifyGet (·.addCell v)) Action.Any := by
  intro r w' h
  cases h
  exact ⟨T, .stroke ⟨⟨hw.stored.callback, hw.stored.methods, hw.stored.reaction⟩,
    hw.knows.addCell hv⟩ (.dab (.still rfl (.of_same rfl rfl))), fun _ _ => trivial⟩

theorem watch_draws (hw : w.Told P T) (name : Option String) (id path : String)
    {steps : List Step} (hs : Step.EveryAll P steps) :
    Action.Draws P P T w (watch (Engine.ofFuel n) f name id path steps) Action.Any := by
  have hc : (Callback.run id steps).Every P := hs
  exact withModel_draws hw name fun m _ hw' => reply_get (ViewModel.watch_draws hw' path hc)

theorem watcher_draws (hw : w.Told P T) (name : Option String) (id path : String)
    {steps : List Step} (hs : Step.EveryAll P steps) :
    Action.Draws P P T w (watcher (Engine.ofFuel n) f name id path steps) Action.Any := by
  have hc : (Callback.run id steps).Every P := hs
  exact withModel_draws (Q := Action.Any) hw name fun m _ hw' =>
    .bind (Watcher.create_draws hw' path hc) fun r _ _ hd _ =>
      .bind (changeNames_draws hd.told rfl) fun _ _ _ hd' _ => .get (.pure hd'.told trivial)

theorem watcherUpdate_draws (he : Engine.Draws P (Engine.ofFuel n)) (hw : w.Told P T)
    (id : String) : Action.Draws P P T w (watcherUpdate (Engine.ofFuel n) id) Action.Any :=
  .bind (find_draws hw) fun r _ w' hd _ => reply (usingSubscriber hd.told
    (Watcher.update_draws he ((Aside.useSubscribers w' [.watcher r]).told hd.told) r))

theorem addReaction_draws (hw : w.Told P T) (id : String) {steps : List Step}
    (hs : Step.EveryAll P steps) : Action.Draws P P T w
      (modify fun w => { w with reactions := w.reactions.add { id, steps } }) Action.Any := by
  refine .modify (.stroke ⟨?_, ?_⟩ (.dab (.still rfl (.of_same rfl rfl)))) trivial
  · refine { hw.stored with reaction := fun r => ?_ }
    rw [Store.get_add]
    split
    · exact hs
    · exact hw.stored.reaction r
  · exact hw.knows.of_same rfl (fun _ => rfl) (fun _ => rfl) rfl

theorem track_draws (hw : w.Told P T) (name : Option String) (reaction : String)
    (paths : List String) :
    Action.Draws P P T w (track (Engine.ofFuel n) f name reaction paths) Action.Any := by
  refine .bind (find_draws hw) fun r T₁ w₁ hd₁ _ =>
    .bind (evaluate (Q := fun _ _ => True) hd₁.told (.mapM fun path _ => ?_)
      (.mapM hd₁.told.knows fun path _ T₂ w₂ _ hw₂ => ?_) _) fun p _ _ hd₂ _ =>
        .bind (ofExcept hd₂.told (Q := Action.Any) fun _ _ => trivial) fun _ _ _ hd₃ _ =>
          .pure hd₃.told trivial
  · exact .getWorld fun w => .bind (.ofExcept _) fun m =>
      .outcome (ViewModel.read_proceeds (Engine.compute_proceeds n) m path)
  · exact .getWorld <| .bind (Q := fun _ _ => True) (.ofExcept hw₂ fun _ _ => trivial)
      fun m _ _ _ hw₃ _ => .outcome (ViewModel.read_yields (Engine.compute_yields n) hw₃ m path)

theorem trackCell_draws (hw : w.Told P T) (reaction id : String) :
    Action.Draws P P T w (trackCell reaction id) Action.Any :=
  .bind (find_draws hw) fun _ _ _ hd₁ _ => .bind (find_draws hd₁.told) fun c _ _ hd₂ _ =>
    .bind (evaluate hd₂.told (Cell.read_proceeds c) (Cell.read_yields hd₂.told.knows c) _)
      fun _ _ _ hd₃ _ => .bind (ofExcept hd₃.told (Q := Action.Any) fun _ _ => trivial)
        fun _ _ _ hd₄ _ => .pure hd₄.told trivial

theorem addRegistry_draws (hw : w.Told P T) : Action.Draws P P T w
    (modify fun w => { w with registries := w.registries.add {} }) Action.Any :=
  aside hw ⟨rfl, rfl, rfl, Nat.le_refl _, fun _ _ h => h, fun _ => rfl, rfl, fun _ => rfl, rfl⟩

theorem register_draws (hw : w.Told P T) (id reaction : String) :
    Action.Draws P P T w (register id reaction) Action.Any := by
  refine .bind (find_draws hw) fun q _ _ hd₁ _ => .bind (find_draws hd₁.told)
    fun r _ w₂ hd₂ _ => .get ?_
  split
  · exact reply (.modify ((Aside.setRegistry w₂ _ _).drawn hd₂.told) (Q := Action.Any) trivial)
  · exact .pure hd₂.told trivial

theorem create_draws (hw : w.Told P T) {markup : Markup} (hs : P (.create markup)) :
    Action.Draws P P T w (create markup) Action.Any := by
  intro r w' h
  have hedit := hw.edit hs (.create markup)
  cases h
  exact ⟨T, hedit.trans ((Aside.meet _ _).drawn hedit.told), fun _ _ => trivial⟩

end Script

end ViewBinding
