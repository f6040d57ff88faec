import ViewBinding.Proofs.Lost
import ViewBinding.Proofs.Mirrors.Strokes
import ViewBinding.Proofs.Tending.Rewriting

/-! A tree that is left to its bindings. As long as each of them finds a place for the text that it
shows, and no step makes nodes, moves them, writes a text or binds anything, there are as many nodes
as before. -/

namespace ViewBinding

/-- Steps that leave the tree to its bindings. They may type into nodes and set values. -/
def Step.LeavesTree : Step → Prop
  | .mount _ _ _ _ _ _ => False
  | .compile _ _ _ => False
  | .create _ => False
  | .setText _ _ => False
  | .detach _ => False
  | .append _ _ => False
  | _ => True

namespace Step.LeavesTree

theorem writable : Writable LeavesTree := ⟨.write none "" (.data .null), trivial, trivial⟩

theorem callable : Callable LeavesTree := ⟨.call none "" "" none, trivial, trivial⟩

theorem definable : Definable LeavesTree :=
  ⟨.build none none [("", .data .null)] [], trivial, List.cons_ne_nil _ _⟩

end Step.LeavesTree

namespace World

variable {P : Step → Prop} {u v : Uses} {k : Nat} {w w' : World} {hs : List Happening}
  {r : Ref .watcher} {m : Ref .model} {n : Ref .node} {face : Face}

theorem Course.lost (h : w.Course P hs w') (hr : w.Lost r) : w'.Lost r :=
  Along.keeps (I := fun _ w => w.Lost r) (fun _ _ _ _ h => h.lost) [] h hr

theorem Course.gone (h : w.Course P hs w') (hg : w.Gone m) : w'.Gone m :=
  Along.keeps (I := fun _ w => w.Gone m) (fun _ _ _ _ h => h.gone) [] h hg

/-- A watcher that never acts again: nothing keeps it alive, or nothing does its view-model. -/
def Spent (w : World) (r : Ref .watcher) : Prop :=
  w.Lost r ∨ w.Gone (w.watchers.get r).model

theorem Spent.course (hr : r.index < w.watchers.size) (h : w.Spent r) (hc : w.Course P hs w') :
    w'.Spent r := by
  rcases h with hl | hg
  · exact .inl (Course.lost hc hl)
  · right
    rw [(Course.same_watcher hc hr).2.2]
    exact Course.gone hc hg

theorem not_spent (hr : .watcher r ∈ w.subscribersInUse)
    (hm : (w.watchers.get r).model ∈ w.modelsInUse) : ¬w.Spent r := by
  rintro (hl | hg)
  · have ha := alive_of_mem_inUse hr
    rw [hl.dead] at ha
    cases ha
  · exact hg.ne_of_used hm rfl

/-- A world with `k` nodes whose scripts leave the tree to its bindings, each of which is spent or
has a place for the text that it shows. -/
structure Tended (u : Uses) (k : Nat) (w : World) : Prop where
  uses : w.uses = u
  stored : w.Stored Step.LeavesTree
  texts : ∀ r n, (w.watchers.get r).callback.shows? = some (.text, n) →
    w.Spent r ∨ w.view.HasText n
  size : w.view.nodes.size = k

theorem shows?_of_size_le (h : w.watchers.size ≤ r.index) :
    (w.watchers.get r).callback.shows? = none := by
  rw [w.watchers.get_of_size_le h]
  rfl

namespace Tended

theorem course (h : w.Tended u k) (hc : w.Course Step.LeavesTree hs w') (hu : w'.uses = v)
    (hnew : ∀ r, w.watchers.size ≤ r.index → (w'.watchers.get r).callback.shows? = none)
    (hview : w.view.SameShape w'.view) : w'.Tended v k where
  uses := hu
  stored := Course.stored hc h.stored
  texts r n hs := by
    -- What shows something now was there before, and showed it there as well.
    have hr : r.index < w.watchers.size := by
      by_contra hr
      rw [hnew r (Nat.le_of_not_lt hr)] at hs
      cases hs
    rw [(Course.watcher hc hr).2] at hs
    exact (h.texts r n hs).imp (fun hspent => hspent.course hr hc) hview.hasText
  size := hview.size.trans h.size

theorem still (h : w.Tended u k) (hc : w.Course Step.LeavesTree hs w') (hu : w'.uses = v)
    (hw : w'.watchers = w.watchers) (hview : w'.view = w.view) : w'.Tended v k := by
  refine h.course hc hu (fun r hr => ?_) ?_
  · rw [hw]
    exact shows?_of_size_le hr
  · rw [hview]
    exact .refl _

theorem glances (h : w.Tended u k) (hg : w.Glances hs w') : w'.Tended u k :=
  have hf := Glances.sameFrame hg
  h.still (Glances.course hg) (hf.uses.trans h.uses) hf.watchers hf.view

theorem emit (h : w.Tended u k) {e : Effect} (he : e.Mere) : (w.emit e).Tended u k :=
  h.still (.single (.show he)) h.uses rfl rfl

theorem sameShape_write (h : w.Tended u k) (hr : .watcher r ∈ w.subscribersInUse)
    (hm : (w.watchers.get r).model ∈ w.modelsInUse)
    (hs : (w.watchers.get r).callback.shows? = some (face, n)) (text : String) :
    w.view.SameShape (w.view.write face n text) := by
  refine .write _ (fun e => ?_) text
  subst e
  exact (h.texts r n hs).resolve_left (not_spent hr hm)

theorem addWatcher (h : w.Tended u k) {watcher : Watcher}
    (hc : watcher.callback.Every Step.LeavesTree) (hs : watcher.callback.shows? = none) :
    (w.addWatcher watcher).Tended u k := by
  refine h.course (.single (.prepare hc)) h.uses (fun r hr => ?_) (.refl _)
  rw [World.addWatcher, Store.get_add]
  split
  · exact hs
  · exact shows?_of_size_le hr

end Tended

theorem Makes.eq_fresh {watcher : Watcher} {i : Nat} {seen : Value}
    (h : w.Makes watcher i hs seen w') (hr : w.watchers.size ≤ r.index)
    (hl : r.index < w'.watchers.size) : r = w.watchers.fresh := by
  rw [h.size] at hl
  have hi : r.index = w.watchers.size := by omega
  cases r
  exact congrArg Ref.mk hi

theorem Makes.shows? {watcher : Watcher} {i : Nat} {seen : Value}
    (h : w.Makes watcher i hs seen w') (hs : watcher.callback.shows? = none)
    (hr : w.watchers.size ≤ r.index) : (w'.watchers.get r).callback.shows? = none := by
  by_cases hl : r.index < w'.watchers.size
  · rw [h.eq_fresh hr hl, h.fresh.1, hs]
  · exact shows?_of_size_le (Nat.le_of_not_lt hl)

end World

namespace Action

variable {α β : Type} {u : Uses} {x : Action α}

def Tends (u : Uses) (x : Action α) : Prop :=
  ∀ k w r w', w.Tended u k → x w = some (r, w') → w'.Tended u k

theorem Glances.tends (hx : x.Glances) : x.Tends u := by
  intro k w r w' hw h
  obtain ⟨hs, hg⟩ := hx w r w' h
  exact hw.glances hg

namespace Tends

theorem pure (a : α) : (Pure.pure a : Action α).Tends u := (Glances.pure a).tends

theorem throw (f : Fault) : (MonadExcept.throw f : Action α).Tends u := (Glances.throw f).tends

theorem unfinished : (Action.unfinished : Action α).Tends u := fun _ _ _ _ _ h => nomatch h

theorem ofExcept (r : Except Fault α) : (MonadExcept.ofExcept r : Action α).Tends u :=
  (Glances.ofExcept r).tends

theorem require (f : Fault) (a? : Option α) : (Action.require f a?).Tends u :=
  (Glances.require f a?).tends

theorem finished (a? : Option α) : (Action.finished a?).Tends u := (Glances.finished a?).tends

theorem get {f : World → Action α} (h : ∀ w k, w.Tended u k → (f w).Tends u) :
    (MonadState.get >>= f).Tends u := fun k w r w' hw hr => h w k hw k w r w' hw hr

theorem bind {f : α → Action β} (hx : x.Tends u) (hf : ∀ a, (f a).Tends u) :
    (x >>= f).Tends u := by
  intro k w r w' hw h
  obtain ⟨g, hg, rfl⟩ | ⟨a, w₁, ha, h⟩ := bind_eq_some h
  · exact hx k w _ w' hw hg
  · exact hf a k w₁ r w' (hx k w _ w₁ hw ha) h

theorem reply_get {f : α → World → β} (hx : x.Tends u) :
    (x >>= fun a => MonadState.get >>= fun w => Pure.pure (f a w)).Tends u :=
  bind hx fun _ => get fun _ _ _ => pure _

theorem still (hp : x.Proceeds Step.LeavesTree u)
    (hs : ∀ w r w', x w = some (r, w') → w'.watchers = w.watchers ∧ w'.view = w.view) :
    x.Tends u := by
  intro k w r w' hw h
  obtain ⟨hu, hs', hc⟩ := hp w r w' hw.uses hw.stored h
  obtain ⟨hwatchers, hview⟩ := hs w r w' h
  exact hw.still hc hu hwatchers hview

theorem modifyGet {f : World → α × World} (hu : ∀ w : World, (f w).2.uses = w.uses)
    (hm : ∀ w : World, w.uses = u → ∃ hs, w.Move Step.LeavesTree hs (f w).2)
    (hs : ∀ w, (f w).2.watchers = w.watchers ∧ (f w).2.view = w.view) :
    (MonadState.modifyGet f : Action α).Tends u :=
  still (.modifyGet hu fun w _ => hm w) fun w _ _ h => by
    cases h
    exact hs w

theorem emit {e : Effect} (he : e.Mere) : (Action.emit e).Tends u :=
  modifyGet (fun _ => rfl) (fun _ _ => ⟨_, .show he⟩) fun _ => ⟨rfl, rfl⟩

theorem faultOf {x : Action Unit} (hx : x.Tends u) : x.faultOf.Tends u := by
  intro k w r w' hw h
  rw [faultOf_apply, Option.bind_eq_some_iff] at h
  obtain ⟨⟨r', w₁⟩, hr, h⟩ := h
  have ht := hx k w r' w₁ hw hr
  cases r' <;> cases h <;> exact ht

theorem usingModel {m : Ref .model} {w w' : World} {k : Nat} {r : Except Fault α}
    (hw : w.Tended u k) (hm : w.modelAlive m) (hx : x.Tends ⟨m :: u.models, u.subscribers⟩)
    (h : Action.usingModel m x w = some (r, w')) : w'.Tended u k := by
  obtain ⟨⟨r', w₁⟩, hr, he⟩ := Option.map_eq_some_iff.1 h
  cases he
  obtain rfl := hw.uses
  have huse : (w.useModel m).Tended _ k := hw.still (.single (.useModel hm)) rfl rfl rfl
  have hw₁ := hx k _ _ w₁ huse hr
  exact hw₁.still (.single (.releaseModel w₁ m)) (World.uses_releaseModel hw₁.uses) rfl rfl

theorem usingSubscriber {s : Subscriber} {w w' : World} {k : Nat} {r : Except Fault α}
    (hw : w.Tended u k) (hs : w.alive s) (hx : x.Tends ⟨u.models, s :: u.subscribers⟩)
    (h : Action.usingSubscriber s x w = some (r, w')) : w'.Tended u k := by
  obtain ⟨⟨r', w₁⟩, hr, he⟩ := Option.map_eq_some_iff.1 h
  cases he
  obtain rfl := hw.uses
  have huse : (w.useSubscribers [s]).Tended _ k :=
    hw.still (.single (.useSubscribers fun t ht => by rwa [List.mem_singleton.1 ht])) rfl rfl rfl
  have hw₁ := hx k _ _ w₁ huse hr
  have huses := World.uses_releaseSubscriber hw₁.uses
  exact hw₁.still (.single (.releaseSubscriber w₁ s)) huses rfl rfl

end Tends

end Action

end ViewBinding
