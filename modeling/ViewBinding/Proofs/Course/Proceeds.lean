import ViewBinding.Proofs.Course.Laws
import ViewBinding.Proofs.Run.Steps

/-! Readings and actions that proceed in moves, and how they are put together. -/

namespace ViewBinding

structure Uses where
  models : List (Ref .model)
  subscribers : List Subscriber

def World.uses (w : World) : Uses := ⟨w.modelsInUse, w.subscribersInUse⟩

theorem World.SameFrame.uses {w w' : World} (h : w.SameFrame w') : w'.uses = w.uses := by
  rw [World.uses, World.uses, h.modelsInUse, h.subscribersInUse]

namespace World

variable {w : World} {ms : List (Ref .model)} {ss : List Subscriber}

theorem uses_releaseModel {m : Ref .model} (hw : w.uses = ⟨m :: ms, ss⟩) :
    (w.releaseModel m).uses = ⟨ms, ss⟩ := by
  obtain ⟨hm, hs⟩ := Uses.mk.inj hw
  rw [uses, releaseModel, hm, hs, List.erase_cons_head]

theorem uses_releaseSubscriber {s : Subscriber} (hw : w.uses = ⟨ms, s :: ss⟩) :
    (w.releaseSubscriber s).uses = ⟨ms, ss⟩ := by
  obtain ⟨hm, hs⟩ := Uses.mk.inj hw
  rw [uses, releaseSubscriber, hm, hs, List.erase_cons_head]

end World

namespace Reading

variable {α β : Type} {x : Reading α}

def Proceeds (x : Reading α) : Prop :=
  ∀ e w r e' w', x e w = some ((r, e'), w') → ∃ hs, w.Glances hs w'

namespace Proceeds

theorem pure (a : α) : (Pure.pure a : Reading α).Proceeds := by
  intro e w r e' w' h
  cases h
  exact ⟨[], .nil w⟩

theorem throw (f : Fault) : (MonadExcept.throw f : Reading α).Proceeds := by
  intro e w r e' w' h
  cases h
  exact ⟨[], .nil w⟩

theorem ofExcept (r : Except Fault α) : (MonadExcept.ofExcept r : Reading α).Proceeds := by
  cases r with
  | error f => exact throw f
  | ok a => exact pure a

theorem getWorld {f : World → Reading α} (h : ∀ w, (f w).Proceeds) :
    (getThe World >>= f).Proceeds := fun e w r e' w' hr => h w e w r e' w' hr

theorem getEvaluation {f : Evaluation → Reading α} (h : ∀ e, (f e).Proceeds) :
    (getThe Evaluation >>= f).Proceeds := fun e w r e' w' hr => h e e w r e' w' hr

theorem bind {f : α → Reading β} (hx : x.Proceeds) (hf : ∀ a, (f a).Proceeds) :
    (x >>= f).Proceeds := by
  intro e w r e' w' h
  rw [bind_apply] at h
  split at h
  · cases h
  · cases h
    exact hx _ _ _ _ _ ‹_›
  · obtain ⟨hs, hg⟩ := hx _ _ _ _ _ ‹_›
    obtain ⟨hs', hg'⟩ := hf _ _ _ _ _ _ h
    exact ⟨hs ++ hs', hg.trans hg'⟩

theorem modifyGet {f : World → α × World} (h : ∀ w : World, w.Glance [] (f w).2) :
    (modifyGetThe World f : Reading α).Proceeds := by
  intro e w r e' w' hr
  cases hr
  exact ⟨[], .single (h w)⟩

theorem mapM {l : List β} {f : β → Reading α} (hf : ∀ b ∈ l, (f b).Proceeds) :
    (l.mapM f).Proceeds := by
  induction l with
  | nil => exact pure []
  | cons b l ih =>
    rw [List.mapM_cons]
    exact bind (hf b List.mem_cons_self) fun _ =>
      bind (ih fun c hc => hf c (List.mem_cons_of_mem b hc)) fun _ => pure _

theorem outcome (hx : x.Proceeds) : (Script.outcome x).Proceeds := by
  intro e w r e' w' h
  rw [outcome_apply, Option.map_eq_some_iff] at h
  obtain ⟨⟨⟨r', e₁⟩, w₁⟩, hr, he⟩ := h
  cases he
  exact hx _ _ _ _ _ hr

end Proceeds

end Reading

def Action.Glances {α : Type} (x : Action α) : Prop :=
  ∀ w r w', x w = some (r, w') → ∃ hs, w.Glances hs w'

namespace Reading.Proceeds

variable {α : Type} {x : Reading α}

theorem evaluate (hx : x.Proceeds) (s : Option Subscriber) : (x.evaluate s).Glances := by
  intro w r w' h
  obtain ⟨⟨⟨r', e⟩, w₁⟩, hr, he⟩ := Option.map_eq_some_iff.1 h
  cases he
  exact hx _ _ _ _ _ hr

theorem ofGlances {x : Action α} (hx : x.Glances) : (Reading.ofAction x).Proceeds := by
  intro e w r e' w' h
  obtain ⟨⟨r', w₁⟩, hr, he⟩ := Option.map_eq_some_iff.1 h
  cases he
  exact hx _ _ _ hr

end Reading.Proceeds

namespace Action

variable {α β : Type} {P : Step → Prop} {u : Uses} {x : Action α}

namespace Glances

theorem pure (a : α) : (Pure.pure a : Action α).Glances := by
  intro w r w' h
  cases h
  exact ⟨[], .nil w⟩

theorem throw (f : Fault) : (MonadExcept.throw f : Action α).Glances := by
  intro w r w' h
  cases h
  exact ⟨[], .nil w⟩

theorem ofExcept (r : Except Fault α) : (MonadExcept.ofExcept r : Action α).Glances := by
  cases r with
  | error f => exact throw f
  | ok a => exact pure a

theorem require (f : Fault) (a? : Option α) : (Action.require f a?).Glances := by
  cases a? with
  | none => exact throw f
  | some a => exact pure a

theorem finished (a? : Option α) : (Action.finished a?).Glances := by
  cases a? with
  | none => exact fun _ _ _ h => nomatch h
  | some a => exact pure a

theorem get {f : World → Action α} (h : ∀ w, (f w).Glances) : (MonadState.get >>= f).Glances :=
  fun w r w' hr => h w w r w' hr

theorem bind {f : α → Action β} (hx : x.Glances) (hf : ∀ a, (f a).Glances) :
    (x >>= f).Glances := by
  intro w r w' h
  obtain ⟨g, hg, rfl⟩ | ⟨a, w₁, ha, h⟩ := bind_eq_some h
  · exact hx _ _ _ hg
  · obtain ⟨hs, hg⟩ := hx _ _ _ ha
    obtain ⟨hs', hg'⟩ := hf a _ _ _ h
    exact ⟨hs ++ hs', hg.trans hg'⟩

theorem mapM {l : List β} {f : β → Action α} (hf : ∀ b, (f b).Glances) : (l.mapM f).Glances := by
  induction l with
  | nil => exact pure []
  | cons b l ih =>
    rw [List.mapM_cons]
    exact bind (hf b) fun _ => bind ih fun _ => pure _

end Glances

end Action

namespace Reading.Proceeds

variable {α : Type} {x : Reading α}

theorem once (hx : x.Proceeds) : x.once.Glances :=
  .bind (hx.evaluate none) fun _ => .ofExcept _

theorem track (hx : x.Proceeds) (s : Subscriber) : (x.track s).Glances :=
  .bind (hx.evaluate (some s)) fun _ => .ofExcept _

end Reading.Proceeds

namespace Action

variable {α β : Type} {P : Step → Prop} {u : Uses} {x : Action α}

variable (P u) in
def Proceeds (x : Action α) : Prop :=
  ∀ w r w', w.uses = u → w.Stored P → x w = some (r, w') →
    w'.uses = u ∧ ∃ hs, w.Course P hs w'

theorem Glances.proceeds (hx : x.Glances) : x.Proceeds P u := by
  intro w r w' hu _ h
  obtain ⟨hs, hg⟩ := hx w r w' h
  exact ⟨(World.Glances.sameFrame hg).uses.trans hu, hs, World.Glances.course hg⟩

namespace Proceeds

theorem pure (a : α) : (Pure.pure a : Action α).Proceeds P u := (Glances.pure a).proceeds

theorem throw (f : Fault) : (MonadExcept.throw f : Action α).Proceeds P u :=
  (Glances.throw f).proceeds

theorem unfinished : (Action.unfinished : Action α).Proceeds P u := fun _ _ _ _ _ h => nomatch h

theorem ofExcept (r : Except Fault α) : (MonadExcept.ofExcept r : Action α).Proceeds P u :=
  (Glances.ofExcept r).proceeds

theorem require (f : Fault) (a? : Option α) : (Action.require f a?).Proceeds P u :=
  (Glances.require f a?).proceeds

theorem finished (a? : Option α) : (Action.finished a?).Proceeds P u :=
  (Glances.finished a?).proceeds

theorem get {f : World → Action α} (h : ∀ w : World, w.Stored P → w.uses = u → (f w).Proceeds P u) :
    (MonadState.get >>= f).Proceeds P u :=
  fun w r w' hu hw hr => h w hw hu w r w' hu hw hr

theorem bind {f : α → Action β} (hx : x.Proceeds P u) (hf : ∀ a, (f a).Proceeds P u) :
    (x >>= f).Proceeds P u := by
  intro w r w' hu hw h
  obtain ⟨g, hg, rfl⟩ | ⟨a, w₁, ha, h⟩ := bind_eq_some h
  · exact hx _ _ _ hu hw hg
  · obtain ⟨hu₁, hs, hc⟩ := hx _ _ _ hu hw ha
    obtain ⟨hu', hs', hc'⟩ := hf a _ _ _ hu₁ (World.Course.stored hc hw) h
    exact ⟨hu', hs ++ hs', hc.trans hc'⟩

theorem map {f : α → β} (hx : x.Proceeds P u) : (f <$> x).Proceeds P u := by
  rw [← bind_pure_comp]
  exact bind hx fun _ => pure _

theorem reply {f : α → β} (hx : x.Proceeds P u) :
    (x >>= fun a => Pure.pure (f a)).Proceeds P u := bind hx fun _ => pure _

theorem reply_get {f : α → World → β} (hx : x.Proceeds P u) :
    (x >>= fun a => MonadState.get >>= fun w => Pure.pure (f a w)).Proceeds P u :=
  bind hx fun _ => get fun _ _ _ => pure _

theorem modify {f : World → World} (hf : ∀ w : World, (f w).uses = w.uses)
    (hm : ∀ w : World, w.Stored P → w.uses = u → ∃ hs, w.Move P hs (f w)) :
    (MonadState.modifyGet fun w => ((), f w) : Action Unit).Proceeds P u := by
  intro w r w' hu hw h
  cases h
  obtain ⟨hs, hm⟩ := hm w hw hu
  exact ⟨(hf w).trans hu, hs, .single hm⟩

theorem modifyGet {f : World → α × World} (hf : ∀ w : World, (f w).2.uses = w.uses)
    (hm : ∀ w : World, w.Stored P → w.uses = u → ∃ hs, w.Move P hs (f w).2) :
    (MonadState.modifyGet f : Action α).Proceeds P u := by
  intro w r w' hu hw h
  cases h
  obtain ⟨hs, hm⟩ := hm w hw hu
  exact ⟨(hf w).trans hu, hs, .single hm⟩

theorem emit {e : Effect} (he : e.Mere) : (Action.emit e).Proceeds P u :=
  modify (fun _ => rfl) fun _ _ _ => ⟨_, .show he⟩

theorem faultOf {x : Action Unit} (hx : x.Proceeds P u) : x.faultOf.Proceeds P u := by
  intro w r w' hu hw h
  rw [faultOf_apply, Option.bind_eq_some_iff] at h
  obtain ⟨⟨r', w₁⟩, hr, h⟩ := h
  have hp := hx w r' w₁ hu hw hr
  cases r' <;> cases h <;> exact hp

theorem forM {l : List β} {f : β → Action Unit} (hf : ∀ b ∈ l, (f b).Proceeds P u) :
    (l.forM f).Proceeds P u := by
  induction l with
  | nil => exact pure ()
  | cons b l ih =>
    exact bind (hf b List.mem_cons_self) fun _ => ih fun c hc => hf c (List.mem_cons_of_mem b hc)

theorem andThen {w w₀ w' : World} {after : World → World} {r : Except Fault α} {v : Uses}
    (hstart : w₀.Move P [] w) (hw : w.Stored P) (hv : w.uses = v)
    (hafter : ∀ w : World, w.uses = v → (after w).uses = u ∧ w.Move P [] (after w))
    (hx : x.Proceeds P v) (h : x.andThen after w = some (r, w')) :
    w'.uses = u ∧ ∃ hs, w₀.Course P hs w' := by
  obtain ⟨⟨r', w₁⟩, hr, he⟩ := Option.map_eq_some_iff.1 h
  cases he
  obtain ⟨hu₁, hs, hc⟩ := hx w r w₁ hv hw hr
  obtain ⟨hu', hm⟩ := hafter w₁ hu₁
  exact ⟨hu', _, .snoc ((World.Along.single hstart).trans hc) hm⟩

theorem usingModel {m : Ref .model} {w w' : World} {r : Except Fault α} (hu : w.uses = u)
    (hw : w.Stored P) (hm : w.modelAlive m) (hx : x.Proceeds P ⟨m :: u.models, u.subscribers⟩)
    (h : Action.usingModel m x w = some (r, w')) : w'.uses = u ∧ ∃ hs, w.Course P hs w' := by
  subst hu
  exact andThen (.useModel hm) ⟨hw.callback, hw.methods, hw.reaction⟩ rfl
    (fun w₁ hw₁ => ⟨World.uses_releaseModel hw₁, .releaseModel w₁ m⟩) hx h

theorem usingSubscriber {s : Subscriber} {w w' : World} {r : Except Fault α} (hu : w.uses = u)
    (hw : w.Stored P) (hs : w.alive s) (hx : x.Proceeds P ⟨u.models, s :: u.subscribers⟩)
    (h : Action.usingSubscriber s x w = some (r, w')) : w'.uses = u ∧ ∃ hs, w.Course P hs w' := by
  subst hu
  have hmove : w.Move P [] (w.useSubscribers [s]) :=
    .useSubscribers fun t ht => by rwa [List.mem_singleton.1 ht]
  exact andThen hmove ⟨hw.callback, hw.methods, hw.reaction⟩ rfl
    (fun w₁ hw₁ => ⟨World.uses_releaseSubscriber hw₁, .releaseSubscriber w₁ s⟩) hx h

end Proceeds

end Action

end ViewBinding
