import ViewBinding.Proofs.Judgement
import ViewBinding.Proofs.Run.Steps
import ViewBinding.Session

/-! Whole scripts, calling each other to any depth, go onward. -/

namespace ViewBinding

variable {w w' : World} {n : Nat} {f : Frame}

theorem World.Renamed.onward {names : Names} (hw : w.Valid) (h : w.Renamed names)
    (hv : names.values = w.names.values) : w.Onward { w with names } := by
  refine World.onward_rename hw names (fun m hm => ?_) (fun r hr => .inl ?_) ?_
  · cases h with
    | model name hused =>
      obtain rfl | hm := Holder.holds_bind _ _ hm
      · exact (World.modelAlive_iff m).2 (.inr hused)
      · exact (World.modelAlive_iff m).2 (.inl hm)
    | dropModel name => exact (World.modelAlive_iff m).2 (.inl (Holder.holds_drop _ _ hm))
    | _ => exact (World.modelAlive_iff m).2 (.inl hm)
  · cases h with
    | dropWatcher id => exact Holder.holds_drop _ _ hr
    | _ => exact hr
  · rw [hv]
    exact hw.saved

theorem World.Onward.inUse {m : Ref .model} (h : w.Onward w') (hm : m ∈ w.modelsInUse) :
    m ∈ w'.modelsInUse := by
  rw [h.used]
  exact hm

theorem Action.Goes.whileAlive {m : Ref .model} {x : Action Unit} (hw : w.Valid)
    (hx : ∀ w', w'.Valid → m ∈ w'.modelsInUse → x.Goes w' fun _ _ => True) :
    Action.Goes (MonadState.get >>= fun w : World =>
      if w.modelAlive m then Action.usingModel m x else Pure.pure ()) w fun _ _ => True := by
  refine .get ?_
  split
  · rename_i hm
    exact .usingModel hw hm (hx _ (World.passes_useModel hw hm).valid List.mem_cons_self)
  · exact .pure hw trivial

namespace Judgement

def goes (n : Nat) : Judgement World where
  holds w x := w.Valid → (x (Engine.ofFuel n)).Goes w fun _ _ => True
  here w w' := w' = w ∧ w.Valid
  later := World.Onward
  frame w f := f.Valid w
  value w v := v.Within w.objects.size
  object w o := o.index < w.objects.size
  model w m := m ∈ w.modelsInUse
  takes := Step.Plain
  takesAll := Step.AllPlain
  writes := True
  calls := True

theorem goes_looks : (goes n).Looks where
  pure _ _ := fun hw => .pure hw trivial
  throw _ g := fun hw => .throw hw g
  get h := fun hw => .get (h _ ⟨rfl, hw⟩ hw)
  bind hx hk := fun hw => .bind (hx hw) fun a w' ho _ => hk a w' ho ho.valid
  value hf hk := fun hw => .bind (Script.value_goes hw hf _) fun v w' ho hv =>
    hk v w' ho (hf.onward ho) hv ho.valid
  withModel hf hx := fun hw => Script.withModel_goes hw hf _ fun m w' hw' hf' hm =>
    hx m w' hf' hm hw'
  findNode hk := fun hw => Script.findNode_goes hw fun w' ho => hk w' ho ho.valid
  object hv ho := hv _ ho
  root h hm := h.1 ▸ h.2.root _ (h.2.usedModel _ hm)
  null _ := Value.within_of_object? rfl
  read path _ hm := fun hw =>
    (Reading.Goes.once (ViewModel.read_goes hw (hw.usedModel _ hm) path)).any
  property key _ ho := fun hw => (Reading.Goes.once (Object.read_goes hw ho key)).any
  render t _ hm := fun hw => Template.render_goes hw t (hw.usedModel _ hm)
  emit _ := fun hw => .emit hw _
  rename h hv := fun hw => .modify ((h _ ⟨rfl, hw⟩).onward hw (hv _)) trivial
  save name hv := fun hw => Script.saveValue_goes hw name hv
  addCell hv := fun hw => .modifyGet ((World.Grown.addCell _ hv).onward hw) trivial
  addReaction hs := fun hw => .modify (World.onward_addReaction hw hs) trivial
  addRegistry _ := fun hw => .modify (World.onward_addRegistry hw) trivial
  edit _ _ := fun hw => .modify ((World.Noted.view _ _).onward hw) trivial
  build _ hs := fun hw => Script.build_goes hw _ hs.1 hs.2.1 hs.2.2
  track name reaction paths hf := fun hw => Script.track_goes hw hf name reaction paths
  trackCell reaction id _ := fun hw => Script.trackCell_goes hw reaction id
  register _ id reaction := fun hw => Script.register_goes hw id reaction
  create _ := fun hw => Script.create_goes hw _

theorem goes_acts (he : (Engine.ofFuel n).Calls) : (goes n).Acts where
  toLooks := goes_looks
  frame_later ho hf := hf.onward ho
  object_later ho h := Nat.lt_of_lt_of_le h ho.objects
  model_later ho hm := ho.inUse hm
  string _ _ := Value.within_of_object? rfl
  finished _ _ := fun hw => .finished hw fun _ _ => trivial
  faultOf hx := fun hw => .faultOf (hx hw)
  whileAlive hx := fun hw => .whileAlive hw fun w' hw' hm => hx w' hm hw'
  writes _ _ := trivial
  calls _ _ := trivial
  store _ hv := fun hw => Cell.write_goes (Subscriber.update_settling he) hw _ hv
  setProperty key _ hv := fun hw => Object.write_goes (Subscriber.update_settling he) hw _ key hv
  assign p _ ho hv := fun hw => Path.assign_goes (Subscriber.update_settling he) hw p ho hv
  call name event _ hm := fun hw => Script.call_method_goes he hw hm name event
  compile _ hm := fun hw => Settings.compile_goes _ _ hw (hw.usedModel _ hm)
  notify _ r := fun hw _ _ h =>
    have ⟨hp, hm⟩ := Source.notify_passes (Subscriber.update_settling he) hw (.registry r) h
    ⟨⟨hp.weaken, hm⟩, fun _ _ => trivial⟩
  mount _ hs := fun hw => Script.mount_goes hw _ _ hs.1 hs.2.1 hs.2.2 _
  watch hf hs := fun hw => Script.watch_goes hw hf _ _ _ hs
  watcher hf hs := fun hw => Script.watcher_goes hw hf _ _ _ hs
  watcherUpdate _ id := fun hw => Script.watcherUpdate_goes hw he id
  cond hs := hs
  attempt hs := hs
  loop hs := hs
  cons hs := hs

end Judgement

section Steps

variable (he : (Engine.ofFuel n).Calls)
include he

/-- Every plain step goes onward, whatever it does and however it ends. -/
theorem Step.run_goes (s : Step) (hw : w.Valid) (hf : f.Valid w) (hs : s.Plain) :
    (s.run (Engine.ofFuel n) f).Goes w fun _ _ => True :=
  (Judgement.goes_acts he).run (s := w) hf s hs hw

theorem Response.perform_goes (hw : w.Valid) (event : Event) (response : Response) :
    (response.perform (Engine.ofFuel n) event).Goes w fun _ _ => True :=
  (Judgement.goes_acts he).perform (s := w) trivial trivial event response hw

end Steps

theorem Engine.calls (n : Nat) : (Engine.ofFuel n).Calls := by
  induction n with
  | zero => exact fun _ _ _ _ _ _ => .unfinished
  | succ n ih =>
    exact fun _ steps w hw hf hs => (Judgement.goes_acts ih).runAll (s := w) hf steps hs hw

end ViewBinding
