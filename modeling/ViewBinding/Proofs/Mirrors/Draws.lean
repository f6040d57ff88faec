import ViewBinding.Proofs.Mirrors.Strokes
import ViewBinding.Proofs.Mirrors.Yields

/-! Actions all of whose work on the view is done in strokes, after which all arrays are known, and
how they are put together. -/

namespace ViewBinding

variable {S P : Step → Prop} {T T' T'' : Arrays} {w w' w'' : World}

namespace World

structure Told (S : Step → Prop) (T : Arrays) (w : World) : Prop where
  stored : w.Stored S
  knows : w.Knows T

structure Drawn (S P : Step → Prop) (T : Arrays) (w : World) (T' : Arrays) (w' : World) :
    Prop where
  told : w'.Told S T'
  arrays : T <+: T'
  strokes : w.Strokes P w'

theorem Drawn.refl (hw : w.Told S T) : Drawn S P T w T w :=
  ⟨hw, List.prefix_refl T, .refl⟩

theorem Drawn.trans (h : Drawn S P T w T' w') (h' : Drawn S P T' w' T'' w'') :
    Drawn S P T w T'' w'' :=
  ⟨h'.told, h.arrays.trans h'.arrays, h.strokes.trans h'.strokes⟩

theorem Drawn.stroke (hw : w'.Told S T) (h : w.Stroke P w') : Drawn S P T w T w' :=
  ⟨hw, List.prefix_refl T, .single h⟩

structure Aside (w w' : World) : Prop where
  view : w'.view = w.view
  watchers : w'.watchers = w.watchers
  reactions : w'.reactions = w.reactions
  models : w.models.size ≤ w'.models.size
  kept : ∀ m, ∀ r ∈ (w.models.get m).watchers, r ∈ (w'.models.get m).watchers
  methods : ∀ m, (w'.models.get m).methods = (w.models.get m).methods
  nextArray : w'.nextArray = w.nextArray
  value : ∀ c, (w'.cells.get c).value = (w.cells.get c).value
  values : w'.names.values = w.names.values

theorem Aside.dab (h : w.Aside w') : w.Dab w' :=
  .still h.view ⟨Nat.le_of_eq (by rw [h.watchers]), fun r _ => by rw [h.watchers], h.models, h.kept⟩

theorem Aside.told (h : w.Aside w') (hw : w.Told S T) : w'.Told S T where
  stored :=
    { callback := fun r => by rw [h.watchers]; exact hw.stored.callback r
      methods := fun hc m name steps hs => hw.stored.methods hc m name steps (by rwa [← h.methods])
      reaction := fun r => by rw [h.reactions]; exact hw.stored.reaction r }
  knows := hw.knows.of_same h.nextArray h.value (fun r => by rw [h.watchers]) h.values

theorem Aside.drawn (h : w.Aside w') (hw : w.Told S T) : Drawn S P T w T w' :=
  .stroke (h.told hw) (.dab h.dab)

theorem Aside.trans (h : w.Aside w') (h' : w'.Aside w'') : w.Aside w'' where
  view := h'.view.trans h.view
  watchers := h'.watchers.trans h.watchers
  reactions := h'.reactions.trans h.reactions
  models := Nat.le_trans h.models h'.models
  kept m r hr := h'.kept m r (h.kept m r hr)
  methods m := (h'.methods m).trans (h.methods m)
  nextArray := h'.nextArray.trans h.nextArray
  value c := (h'.value c).trans (h.value c)
  values := h'.values.trans h.values

theorem Aside.setRegistry (w : World) (source : Source) (registry : Registry) :
    w.Aside (w.setRegistry source registry) := by
  have hf := SameFrame.setRegistry w source registry
  refine ⟨hf.view, hf.watchers, hf.reactions, Nat.le_of_eq (by rw [hf.models]),
    fun m r hr => by rwa [hf.models],
    fun m => by rw [hf.models], ?_, fun c => ?_, by rw [hf.names]⟩
  · cases source <;> rfl
  · cases source with
    | cell c' =>
      obtain e | ⟨-, -, e⟩ :=
        w.cells.get_modify_cases c' c fun cell : Cell => { cell with registry }
      · exact congrArg Cell.value e
      · exact (congrArg Cell.value e :)
    | _ => rfl

theorem Aside.useModel (w : World) (m : Ref .model) : w.Aside (w.useModel m) :=
  ⟨rfl, rfl, rfl, Nat.le_refl _, fun _ _ h => h, fun _ => rfl, rfl, fun _ => rfl, rfl⟩

theorem Aside.releaseModel (w : World) (m : Ref .model) : w.Aside (w.releaseModel m) :=
  ⟨rfl, rfl, rfl, Nat.le_refl _, fun _ _ h => h, fun _ => rfl, rfl, fun _ => rfl, rfl⟩

theorem Aside.useSubscribers (w : World) (ss : List Subscriber) : w.Aside (w.useSubscribers ss) :=
  ⟨rfl, rfl, rfl, Nat.le_refl _, fun _ _ h => h, fun _ => rfl, rfl, fun _ => rfl, rfl⟩

theorem Aside.releaseSubscriber (w : World) (s : Subscriber) : w.Aside (w.releaseSubscriber s) :=
  ⟨rfl, rfl, rfl, Nat.le_refl _, fun _ _ h => h, fun _ => rfl, rfl, fun _ => rfl, rfl⟩

theorem Aside.tell (w : World) (x : Happening) : w.Aside (w.tell x) :=
  ⟨rfl, rfl, rfl, Nat.le_refl _, fun _ _ h => h, fun _ => rfl, rfl, fun _ => rfl, rfl⟩

theorem Aside.meet (w : World) (known : Std.ExtTreeSet Nat) :
    w.Aside { w with knownNodes := known } :=
  ⟨rfl, rfl, rfl, Nat.le_refl _, fun _ _ h => h, fun _ => rfl, rfl, fun _ => rfl, rfl⟩

theorem Aside.define (w : World) (data : Ref .object) (m : Ref .model)
    (computed : List (String × Expr)) : w.Aside (w.define data m computed) := by
  induction computed generalizing w with
  | nil =>
    exact ⟨rfl, rfl, rfl, Nat.le_refl _, fun _ _ h => h, fun _ => rfl, rfl, fun _ => rfl, rfl⟩
  | cons c computed ih =>
    have hslot : w.Aside (w.setComputed data { name := c.1, body := c.2, model := m }) :=
      ⟨rfl, rfl, rfl, Nat.le_refl _, fun _ _ h => h, fun _ => rfl, rfl, fun _ => rfl, rfl⟩
    exact hslot.trans (ih _)

theorem Aside.rename (w : World) (names : Names) (h : names.values = w.names.values) :
    w.Aside { w with names } :=
  ⟨rfl, rfl, rfl, Nat.le_refl _, fun _ _ h => h, fun _ => rfl, rfl, fun _ => rfl, h⟩

theorem Aside.keepWatcher (w : World) (m : Ref .model) (r : Ref .watcher) :
    w.Aside (w.keepWatcher m r) := by
  have hcases (m' : Ref .model) := w.models.get_modify_cases m m' fun model : ViewModel =>
    { model with watchers := model.watchers ++ [r] }
  refine ⟨rfl, rfl, rfl, Nat.le_of_eq (Store.size_modify ..).symm, fun m' r' hr' => ?_,
    fun m' => ?_, rfl, fun _ => rfl, rfl⟩
  · obtain e | ⟨-, -, e⟩ := hcases m'
    · exact (congrArg (fun model : ViewModel => r' ∈ model.watchers) e).mpr hr'
    · exact (congrArg (fun model : ViewModel => r' ∈ model.watchers) e).mpr
        (List.mem_append_left _ hr')
  · obtain e | ⟨-, -, e⟩ := hcases m'
    · exact congrArg ViewModel.methods e
    · exact (congrArg ViewModel.methods e :)

theorem SameFrame.drawn (h : w.SameFrame w') (hw : w.Told S T) (hT : T <+: T')
    (hk : w'.Knows T') : Drawn S P T w T' w' :=
  ⟨⟨h.stored hw.stored, hk⟩, hT,
    .single (.dab (.still h.view (.of_same h.watchers h.models)))⟩

theorem Told.view (hw : w.Told S T) (v : View) : Told S T { w with view := v } :=
  ⟨⟨hw.stored.callback, hw.stored.methods, hw.stored.reaction⟩,
    hw.knows.of_same rfl (fun _ => rfl) (fun _ => rfl) rfl⟩

end World

open World

namespace Action

variable {α β : Type} {Q : α → Arrays → World → Prop} {R : β → Arrays → World → Prop}
  {x : Action α}

variable (S P) in
/-- Whether all that an action does to the view it does in strokes, with a result for which `Q`
holds if it succeeds. -/
def Draws (T : Arrays) (w : World) (x : Action α) (Q : α → Arrays → World → Prop) : Prop :=
  ∀ r w', x w = some (r, w') →
    ∃ T', Drawn S P T w T' w' ∧ ∀ a, r = .ok a → Q a T' w'

abbrev Any (_ : α) (_ : Arrays) (_ : World) : Prop := True

namespace Draws

theorem pure (hw : w.Told S T) {a : α} (h : Q a T w) : Draws S P T w (Pure.pure a) Q := by
  intro r w' hr
  cases hr
  exact ⟨T, .refl hw, fun b hb => by cases hb; exact h⟩

theorem any (hx : Draws S P T w x Q) : Draws S P T w x Any := fun r w' hr =>
  (hx r w' hr).imp fun _ h => ⟨h.1, fun _ _ => trivial⟩

theorem throw (hw : w.Told S T) (f : Fault) : Draws S P T w (MonadExcept.throw f) Q := by
  intro r w' hr
  cases hr
  exact ⟨T, .refl hw, fun b hb => nomatch hb⟩

theorem unfinished : Draws S P T w Action.unfinished Q := fun _ _ h => nomatch h

theorem ofExcept (hw : w.Told S T) {r : Except Fault α} (h : ∀ a, r = .ok a → Q a T w) :
    Draws S P T w (MonadExcept.ofExcept r) Q := by
  cases r with
  | error f => exact throw hw f
  | ok a => exact pure hw (h a rfl)

theorem require (hw : w.Told S T) (f : Fault) {a? : Option α} (h : ∀ a, a? = some a → Q a T w) :
    Draws S P T w (Action.require f a?) Q := by
  cases a? with
  | none => exact throw hw f
  | some a => exact pure hw (h a rfl)

theorem finished (hw : w.Told S T) (a? : Option α) :
    Draws S P T w (Action.finished a?) Any := by
  cases a? with
  | none => exact unfinished
  | some a => exact pure hw trivial

theorem get {f : World → Action α} (h : Draws S P T w (f w) Q) :
    Draws S P T w (MonadState.get >>= f) Q := h

theorem modify {f : World → World} {Q : Unit → Arrays → World → Prop}
    (h : Drawn S P T w T (f w)) (hq : Q () T (f w)) :
    Draws S P T w (MonadState.modifyGet fun w => ((), f w)) Q := by
  intro r w' hr
  cases hr
  exact ⟨T, h, fun _ _ => hq⟩

theorem bind {f : α → Action β} (hx : Draws S P T w x Q)
    (hf : ∀ a T' w', Drawn S P T w T' w' → Q a T' w' → Draws S P T' w' (f a) R) :
    Draws S P T w (x >>= f) R := by
  intro r w' h
  obtain ⟨g, hg, rfl⟩ | ⟨a, w₁, ha, h⟩ := bind_eq_some h
  · obtain ⟨T', hd, -⟩ := hx _ _ hg
    exact ⟨T', hd, fun b hb => nomatch hb⟩
  · obtain ⟨T₁, hd₁, hq⟩ := hx _ _ ha
    obtain ⟨T₂, hd₂, hr⟩ := hf a T₁ w₁ hd₁ (hq a rfl) _ _ h
    exact ⟨T₂, hd₁.trans hd₂, hr⟩

theorem discard (hx : Draws S P T w x Q) :
    Draws S P T w (Functor.discard x) fun _ T' w' => ∃ a, Q a T' w' := by
  have he : Functor.discard x = x >>= fun _ => Pure.pure () := (bind_pure_comp _ x).symm
  rw [he]
  exact bind hx fun a _ _ hd hq => pure hd.told ⟨a, hq⟩

theorem reply {f : α → β} (hx : Draws S P T w x Q) :
    Draws S P T w (x >>= fun a => Pure.pure (f a)) Any :=
  bind hx fun _ _ _ hd _ => pure hd.told trivial

theorem reply_get {f : α → World → β} (hx : Draws S P T w x Q) :
    Draws S P T w (x >>= fun a => MonadState.get >>= fun w => Pure.pure (f a w)) Any :=
  bind hx fun _ _ _ hd _ => get (pure hd.told trivial)

theorem aside {f : World → World} (hw : w.Told S T) (h : w.Aside (f w)) :
    Draws S P T w (MonadState.modifyGet fun w => ((), f w)) (Any (α := Unit)) :=
  modify (h.drawn hw) trivial

theorem tell (hw : w.Told S T) (x : Happening) : Draws S P T w (Action.tell x) Any :=
  aside hw (.tell w x)

theorem faultOf {x : Action Unit} {Q : Unit → Arrays → World → Prop} (hx : Draws S P T w x Q) :
    Draws S P T w x.faultOf Any := by
  intro r w' h
  rw [faultOf_apply, Option.bind_eq_some_iff] at h
  obtain ⟨⟨r', w₁⟩, hr, h⟩ := h
  obtain ⟨T', hd, -⟩ := hx r' w₁ hr
  cases r' <;> cases h <;> exact ⟨T', hd, fun _ _ => trivial⟩

theorem forM {l : List β} {f : β → Action Unit} (hw : w.Told S T)
    (hf : ∀ b ∈ l, ∀ T' w', T <+: T' → w'.Told S T' → Draws S P T' w' (f b) Any) :
    Draws S P T w (l.forM f) Any := by
  induction l generalizing T w with
  | nil => exact pure hw trivial
  | cons b l ih =>
    refine bind (hf b List.mem_cons_self T w (List.prefix_refl T) hw) fun _ T' w' hd _ =>
      ih hd.told fun c hc T'' w'' hT hw'' => ?_
    exact hf c (List.mem_cons_of_mem b hc) T'' w'' (hd.arrays.trans hT) hw''

theorem mapM {l : List β} {f : β → Action α} (hw : w.Told S T)
    (hf : ∀ b ∈ l, ∀ T' w', T <+: T' → w'.Told S T' → Draws S P T' w' (f b) Any) :
    Draws S P T w (l.mapM f) Any := by
  induction l generalizing T w with
  | nil => exact pure hw trivial
  | cons b l ih =>
    rw [List.mapM_cons]
    refine bind (hf b List.mem_cons_self T w (List.prefix_refl T) hw) fun _ T' w' hd _ =>
      reply (ih hd.told fun c hc T'' w'' hT hw'' => ?_)
    exact hf c (List.mem_cons_of_mem b hc) T'' w'' (hd.arrays.trans hT) hw''

theorem andThen {after : World → World} (hx : Draws S P T w x Q)
    (ha : ∀ w : World, w.Aside (after w)) : Draws S P T w (x.andThen after)
      fun a T' w' => ∃ w₁, World.Aside w₁ w' ∧ Q a T' w₁ := by
  intro r w' h
  obtain ⟨⟨r', w₁⟩, hr, he⟩ := Option.map_eq_some_iff.1 h
  cases he
  obtain ⟨T', hd, hq⟩ := hx _ w₁ hr
  exact ⟨T', hd.trans ((ha w₁).drawn hd.told), fun a ha' => ⟨w₁, ha w₁, hq a ha'⟩⟩

theorem usingModel {m : Ref .model} (hw : w.Told S T) (hx : Draws S P T (w.useModel m) x Q) :
    Draws S P T w (Action.usingModel m x) fun a T' w' => ∃ w₁, World.Aside w₁ w' ∧ Q a T' w₁ := by
  intro r w' h
  obtain ⟨T', hd, hq⟩ := andThen hx (fun w => .releaseModel w m) r w' h
  exact ⟨T', ((Aside.useModel w m).drawn hw).trans hd, hq⟩

theorem usingSubscriber {s : Subscriber} (hw : w.Told S T)
    (hx : Draws S P T (w.useSubscribers [s]) x Q) :
    Draws S P T w (Action.usingSubscriber s x) Any := by
  intro r w' h
  obtain ⟨T', hd, -⟩ := andThen hx (fun w => .releaseSubscriber w s) r w' h
  exact ⟨T', ((Aside.useSubscribers w [s]).drawn hw).trans hd, fun _ _ => trivial⟩

theorem evaluate {x : Reading α} {Q : α → Arrays → Prop} (hw : w.Told S T) (hp : x.Proceeds)
    (hx : Reading.Yields T w x Q) (s : Option Subscriber) :
    Draws S P T w (x.evaluate s) fun p T' _ => ∀ a, p.1 = .ok a → Q a T' := by
  intro r w' h
  obtain ⟨hs, hg⟩ := hp.evaluate s w r w' h
  obtain ⟨⟨⟨r', e⟩, w₁⟩, hr, he⟩ := Option.map_eq_some_iff.1 h
  cases he
  obtain ⟨T', hT, hk, hq⟩ := hx _ _ _ _ hr
  exact ⟨T', (World.Glances.sameFrame hg).drawn hw hT hk, fun p hp a ha => by
    cases hp
    exact hq a ha⟩

theorem once {x : Reading α} {Q : α → Arrays → Prop} (hw : w.Told S T) (hp : x.Proceeds)
    (hx : Reading.Yields T w x Q) : Draws S P T w x.once fun a T' _ => Q a T' :=
  bind (evaluate hw hp hx none) fun _ _ _ hd hq => ofExcept hd.told hq

theorem track {x : Reading α} {Q : α → Arrays → Prop} (hw : w.Told S T) (hp : x.Proceeds)
    (hx : Reading.Yields T w x Q) (s : Subscriber) :
    Draws S P T w (x.track s) fun a T' _ => Q a T' :=
  bind (evaluate hw hp hx (some s)) fun _ _ _ hd hq => ofExcept hd.told hq

end Draws

end Action

end ViewBinding
