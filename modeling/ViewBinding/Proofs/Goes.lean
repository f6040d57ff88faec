import ViewBinding.Proofs.Growth

/-! Actions and readings that go onward: whatever they end with, nobody is due because of them. -/

namespace ViewBinding

namespace Action

variable {α β : Type} {w w' : World}

theorem bind_apply (x : Action α) (f : α → Action β) (w : World) :
    (x >>= f) w =
      match x w with
      | none => none
      | some (.error g, w') => some (.error g, w')
      | some (.ok a, w') => f a w' := by
  show (x w).bind _ = _
  cases x w with
  | none => rfl
  | some p => obtain ⟨⟨⟩, _⟩ := p <;> rfl

theorem get_bind (f : World → Action α) (w : World) : (get >>= f) w = f w w := rfl

theorem tell_bind (x : Happening) (f : Unit → Action α) (w : World) :
    (tell x >>= f) w = f () (w.tell x) := rfl

theorem modify_bind (g : World → World) (f : Unit → Action α) (w : World) :
    (modify g >>= f) w = f () (g w) := rfl

theorem modifyGet_bind (g : World → β × World) (f : β → Action α) (w : World) :
    (modifyGet g >>= f) w = f (g w).1 (g w).2 := rfl

theorem usingModel_apply (m : Ref .model) (x : Action α) (w : World) :
    usingModel m x w = (x (w.useModel m)).map fun p => (p.1, p.2.releaseModel m) := rfl

theorem faultOf_apply (x : Action Unit) (w : World) : x.faultOf w = (x w).bind fun p =>
    match p.1 with
    | .error f => some (.ok (some f), p.2)
    | .ok () => some (.ok none, p.2) := by
  show Option.bind (Option.bind (x w) _) _ = _
  cases x w with
  | none => rfl
  | some p => obtain ⟨⟨⟩, _⟩ := p <;> rfl

theorem bind_eq_some {x : Action α} {f : α → Action β} {r : Except Fault β}
    (h : (x >>= f) w = some (r, w')) : (∃ g, x w = some (.error g, w') ∧ r = .error g) ∨
      ∃ a w₁, x w = some (.ok a, w₁) ∧ f a w₁ = some (r, w') := by
  rw [bind_apply] at h
  split at h
  · cases h
  · cases h
    exact .inl ⟨_, ‹_›, rfl⟩
  · exact .inr ⟨_, _, ‹_›, h⟩

def Goes (x : Action α) (w : World) (Q : α → World → Prop) : Prop :=
  ∀ r w', x w = some (r, w') → w.Onward w' ∧ ∀ a, r = .ok a → Q a w'

namespace Goes

variable {Q Q' : α → World → Prop} {R : β → World → Prop}

theorem pure (hw : w.Valid) {a : α} (h : Q a w) : (Pure.pure a : Action α).Goes w Q := by
  rintro r w' hr
  cases hr
  exact ⟨.refl hw, fun a ha => by cases ha; exact h⟩

theorem throw (hw : w.Valid) (f : Fault) : (MonadExcept.throw f : Action α).Goes w Q := by
  rintro r w' hr
  cases hr
  exact ⟨.refl hw, fun a ha => nomatch ha⟩

theorem any {x : Action α} (hx : x.Goes w Q) : x.Goes w fun _ _ => True :=
  fun r w' h => ⟨(hx r w' h).1, fun _ _ => trivial⟩

theorem unfinished : (Action.unfinished : Action α).Goes w Q := fun _ _ h => nomatch h

theorem ofExcept (hw : w.Valid) {r : Except Fault α} (h : ∀ a, r = .ok a → Q a w) :
    (MonadExcept.ofExcept r : Action α).Goes w Q := by
  cases r with
  | error f => exact throw hw f
  | ok a => exact pure hw (h a rfl)

theorem require (hw : w.Valid) (f : Fault) {a? : Option α} (h : ∀ a, a? = some a → Q a w) :
    (Action.require f a?).Goes w Q := by
  cases a? with
  | none => exact throw hw f
  | some a => exact pure hw (h a rfl)

theorem finished (hw : w.Valid) {a? : Option α} (h : ∀ a, a? = some a → Q a w) :
    (Action.finished a?).Goes w Q := by
  cases a? with
  | none => exact unfinished
  | some a => exact pure hw (h a rfl)

theorem modify {Q : Unit → World → Prop} {f : World → World} (h : w.Onward (f w))
    (hq : Q () (f w)) : (MonadState.modifyGet fun w => ((), f w) : Action Unit).Goes w Q := by
  rintro r w' hr
  cases hr
  exact ⟨h, fun _ _ => hq⟩

theorem modifyGet {f : World → α × World} (h : w.Onward (f w).2) (hq : Q (f w).1 (f w).2) :
    (MonadState.modifyGet f : Action α).Goes w Q := by
  rintro r w' hr
  cases hr
  exact ⟨h, fun a ha => by cases ha; exact hq⟩

theorem tell (hw : w.Valid) (x : Happening) : (Action.tell x).Goes w fun _ _ => True :=
  modify ((World.Noted.trace w _).onward hw) trivial

theorem emit (hw : w.Valid) (e : Effect) : (Action.emit e).Goes w fun _ _ => True :=
  tell hw (.showed e)

theorem get {f : World → Action α} (h : (f w).Goes w Q) : (get >>= f : Action α).Goes w Q := h

theorem bind {x : Action α} {f : α → Action β} (hx : x.Goes w Q)
    (hf : ∀ a w', w.Onward w' → Q a w' → (f a).Goes w' R) : (x >>= f).Goes w R := by
  intro r w' h
  obtain ⟨g, hg, rfl⟩ | ⟨a, w₁, ha, h⟩ := bind_eq_some h
  · exact ⟨(hx _ _ hg).1, fun b hb => nomatch hb⟩
  · obtain ⟨ho, hq⟩ := hx _ _ ha
    obtain ⟨ho', hr⟩ := hf a w₁ ho (hq a rfl) r w' h
    exact ⟨ho.trans ho', hr⟩

theorem reply {x : Action α} {f : α → β} (hx : x.Goes w Q) :
    (x >>= fun a => Pure.pure (f a)).Goes w fun _ _ => True :=
  bind hx fun _ _ ho _ => pure ho.valid trivial

theorem reply_get {x : Action α} {f : α → World → β} (hx : x.Goes w Q) :
    (x >>= fun a => MonadState.get >>= fun w => Pure.pure (f a w)).Goes w fun _ _ => True :=
  bind hx fun _ _ ho _ => get (pure ho.valid trivial)

theorem map {x : Action α} {f : α → β} (hx : x.Goes w Q) (hf : ∀ a w', Q a w' → R (f a) w') :
    (f <$> x).Goes w R := by
  rw [← bind_pure_comp]
  exact bind hx fun a w' ho hq => pure ho.valid (hf a w' hq)

theorem faultOf {x : Action Unit} {Q : Unit → World → Prop} (hx : x.Goes w Q) :
    x.faultOf.Goes w fun _ _ => True := by
  intro r w' h
  refine ⟨?_, fun _ _ => trivial⟩
  have hx' (r' : Except Fault Unit) (h' : x w = some (r', w')) : w.Onward w' := (hx r' w' h').1
  rw [faultOf_apply, Option.bind_eq_some_iff] at h
  obtain ⟨⟨r', w₁⟩, hr, h⟩ := h
  cases r' <;> cases h <;> exact hx' _ hr

theorem forM {l : List α} {f : α → Action Unit} (hw : w.Valid)
    (hf : ∀ a ∈ l, ∀ w', w.Onward w' → (f a).Goes w' fun _ _ => True) :
    (l.forM f).Goes w fun _ _ => True := by
  induction l generalizing w with
  | nil => exact pure hw trivial
  | cons a l ih =>
    refine bind (hf a List.mem_cons_self w (.refl hw)) fun _ w' ho _ =>
      ih ho.valid fun b hb w'' ho' => ?_
    exact hf b (List.mem_cons_of_mem a hb) w'' (ho.trans ho')

theorem onward_usingModel {x : Action α} {w₀ : World} {m : Ref .model} {r : Except Fault α}
    (hp : w₀.Passes [] [] (w.useModel m)) (hu : w.modelsInUse = w₀.modelsInUse)
    (hx : x.Goes (w.useModel m) Q) (h : usingModel m x w = some (r, w')) : w₀.Onward w' := by
  obtain ⟨⟨r', w₁⟩, hr, he⟩ := Option.map_eq_some_iff.1 h
  cases he
  have ho := (hx _ _ hr).1
  refine ⟨(hp.trans ho.toPasses).trans (World.passes_releaseModel ho.valid m), ?_⟩
  show w₁.modelsInUse.erase m = w₀.modelsInUse
  rw [ho.used, ← hu]
  exact List.erase_cons_head ..

theorem usingModel {x : Action α} {m : Ref .model} (hw : w.Valid) (hm : w.modelAlive m)
    (hx : x.Goes (w.useModel m) Q) : (usingModel m x).Goes w fun _ _ => True :=
  fun _ _ h =>
    ⟨onward_usingModel (World.passes_useModel hw hm) rfl hx h, fun _ _ => trivial⟩

theorem usingSubscriber {x : Action α} {s : Subscriber} (hw : w.Valid) (hs : w.alive s)
    (hx : x.Goes (w.useSubscribers [s]) Q) : (usingSubscriber s x).Goes w fun _ _ => True := by
  intro r w' h
  obtain ⟨⟨r', w₁⟩, hr, he⟩ := Option.map_eq_some_iff.1 h
  cases he
  have hu : w.Onward (w.useSubscribers [s]) :=
    World.onward_useSubscribers hw _ fun t ht => by rwa [List.mem_singleton.1 ht]
  have ho := hu.trans (hx _ _ hr).1
  exact ⟨ho.trans (World.onward_releaseSubscriber ho.valid s), fun _ _ => trivial⟩

end Goes

end Action

namespace Reading

variable {α β : Type} {w w' : World}

def Goes (x : Reading α) (w : World) (Q : α → World → Prop) : Prop :=
  ∀ e r e' w', x e w = some ((r, e'), w') → w.Onward w' ∧ ∀ a, r = .ok a → Q a w'

namespace Goes

variable {Q Q' : α → World → Prop} {R : β → World → Prop}

theorem pure (hw : w.Valid) {a : α} (h : Q a w) : (Pure.pure a : Reading α).Goes w Q := by
  rintro e r e' w' hr
  cases hr
  exact ⟨.refl hw, fun a ha => by cases ha; exact h⟩

theorem throw (hw : w.Valid) (f : Fault) : (MonadExcept.throw f : Reading α).Goes w Q := by
  rintro e r e' w' hr
  cases hr
  exact ⟨.refl hw, fun a ha => nomatch ha⟩

theorem ofExcept (hw : w.Valid) {r : Except Fault α} (h : ∀ a, r = .ok a → Q a w) :
    (MonadExcept.ofExcept r : Reading α).Goes w Q := by
  cases r with
  | error f => exact throw hw f
  | ok a => exact pure hw (h a rfl)

theorem getWorld {f : World → Reading α} (h : (f w).Goes w Q) : (getThe World >>= f).Goes w Q := h

theorem getEvaluation {f : Evaluation → Reading α} (h : ∀ e, (f e).Goes w Q) :
    (getThe Evaluation >>= f).Goes w Q := fun e r e' w' hr => h e e r e' w' hr

theorem modifyGet {f : World → α × World} (h : w.Onward (f w).2) (hq : Q (f w).1 (f w).2) :
    (modifyGetThe World f : Reading α).Goes w Q := by
  rintro e r e' w' hr
  cases hr
  exact ⟨h, fun a ha => by cases ha; exact hq⟩

theorem bind {x : Reading α} {f : α → Reading β} (hx : x.Goes w Q)
    (hf : ∀ a w', w.Onward w' → Q a w' → (f a).Goes w' R) : (x >>= f).Goes w R := by
  intro e r e' w' h
  rw [bind_apply] at h
  split at h
  · cases h
  · cases h
    exact ⟨(hx _ _ _ _ ‹_›).1, fun b hb => nomatch hb⟩
  · obtain ⟨ho, hq⟩ := hx _ _ _ _ ‹_›
    obtain ⟨ho', hr⟩ := hf _ _ ho (hq _ rfl) _ _ _ _ h
    exact ⟨ho.trans ho', hr⟩

theorem once {x : Reading α} (hx : x.Goes w Q) : x.once.Goes w Q := by
  refine Action.Goes.bind (Q := fun p w' => ∀ a, p.1 = .ok a → Q a w') ?_ fun p w' ho hp =>
    .ofExcept ho.valid hp
  intro r w' h
  obtain ⟨⟨⟨r', e'⟩, w₁⟩, hr, he⟩ := Option.map_eq_some_iff.1 h
  cases he
  obtain ⟨ho, hq⟩ := hx _ _ _ _ hr
  exact ⟨ho, fun p hp a ha => by cases hp; exact hq a ha⟩

theorem ofAction {x : Action α} (hx : x.Goes w Q) : (Reading.ofAction x).Goes w Q := by
  intro e r e' w' h
  obtain ⟨⟨r', w₁⟩, hr, he⟩ := Option.map_eq_some_iff.1 h
  cases he
  exact hx _ _ hr

end Goes

end Reading

end ViewBinding
