import ViewBinding.Proofs.Course.Readings

/-! Updates, notifications and writes proceed in moves. A subscriber is in use during its turn, and
so is the view-model of a watcher while it is updated. -/

namespace ViewBinding

open Action.Proceeds

variable {P : Step → Prop} {u : Uses} {n : Nat} {w w' : World}

variable (P) in
def Engine.Proceeds (e : Engine) : Prop :=
  ∀ (f : Frame) (steps : List Step) (u : Uses), (∀ m, f.model = some m → m ∈ u.models) →
    Step.EveryAll P steps → (e.call f steps).Proceeds P u

namespace Watcher

theorem evaluate_glances (n : Nat) (r : Ref .watcher) :
    (evaluate (Engine.ofFuel n).compute r).Glances :=
  .get fun _ => .get fun _ =>
    (Path.follow_proceeds (Engine.compute_proceeds n) _ _ _).track _

theorem create_cases {m : Ref .model} {path : String} (callback : Callback)
    {res : Except Fault (Ref .watcher)} (hc : callback.Every P)
    (h : create (Engine.ofFuel n).compute m path callback w = some (res, w')) :
    w'.uses = w.uses ∧ (((∃ g, res = .error g) ∧ ∃ hs, w.Course P hs w') ∨
      ∃ p hs v, res = .ok w.watchers.fresh ∧
        w.Makes { model := m, path := p, callback } n hs v w') := by
  obtain ⟨g, hp, rfl⟩ | ⟨p, w₁, hp, h⟩ := Action.bind_eq_some h
  · cases hparse : Path.parse path <;> rw [hparse] at hp <;> cases hp
    exact ⟨rfl, .inl ⟨⟨_, rfl⟩, [], .nil w⟩⟩
  obtain rfl : w = w₁ := by
    cases hparse : Path.parse path <;> rw [hparse] at hp <;> cases hp
    rfl
  rw [Action.get_bind, Action.modify_bind] at h
  have hmove : w.Move P [] (w.addWatcher { model := m, path := p, callback }) := .prepare hc
  obtain ⟨g, hv, rfl⟩ | ⟨v, w₂, hv, h⟩ := Action.bind_eq_some h
  · obtain ⟨hs, hg⟩ := evaluate_glances n _ _ _ _ hv
    refine ⟨(World.Glances.sameFrame hg).uses, .inl ⟨⟨g, rfl⟩, [] ++ hs, ?_⟩⟩
    exact (World.Along.single hmove).trans (World.Glances.course hg)
  · obtain ⟨hs, hg⟩ := evaluate_glances n _ _ _ _ hv
    cases h
    exact ⟨(World.Glances.sameFrame hg).uses, .inr ⟨p, hs, v, rfl, .intro hg hv⟩⟩

end Watcher

theorem World.Makes.fresh {watcher : Watcher} {hs : List Happening} {v : Value}
    (h : w.Makes watcher n hs v w') :
    (w'.watchers.get w.watchers.fresh).callback = watcher.callback ∧
      (w'.watchers.get w.watchers.fresh).model = watcher.model := by
  cases h with
  | @intro w₁ h _ =>
    have hget : (w₁.watchers.get w.watchers.fresh) = watcher := by
      rw [(World.Glances.sameFrame h).watchers, World.addWatcher, Store.get_add, if_pos rfl]
    exact ⟨(World.callback_remember ..).trans (by rw [hget]),
      (World.model_remember ..).trans (by rw [hget])⟩

theorem ViewModel.watch_course {m : Ref .model} {path : String} (callback : Callback)
    {res : Except Fault (Ref .watcher)} (hc : callback.Every P)
    (h : ViewModel.watch (Engine.ofFuel n).compute m path callback w = some (res, w')) :
    w'.uses = w.uses ∧ (∃ hs, w.Course P hs w') ∧ ∀ r, res = .ok r →
      r.index < w'.watchers.size ∧ (w'.watchers.get r).callback = callback ∧
        (w'.watchers.get r).model = m := by
  obtain ⟨g, hcreate, rfl⟩ | ⟨r, w₁, hcreate, h⟩ := Action.bind_eq_some h
  · obtain ⟨hu, ⟨-, hcourse⟩ | ⟨_, _, _, he, -⟩⟩ := Watcher.create_cases callback hc hcreate
    · exact ⟨hu, hcourse, fun _ h => nomatch h⟩
    · cases he
  · obtain ⟨hu, ⟨⟨g, he⟩, -⟩ | ⟨p, hs, v, he, hmake⟩⟩ := Watcher.create_cases callback hc hcreate
    · cases he
    · cases he
      cases h
      have hmove : w.Move P (hs ++ [.made w.watchers.fresh v])
          (w₁.keepWatcher m w.watchers.fresh) := .watch hc hmake
      refine ⟨hu, ⟨_, .single hmove⟩, fun r hr => ?_⟩
      cases hr
      refine ⟨?_, hmake.fresh⟩
      show w.watchers.fresh.index < w₁.watchers.size
      rw [hmake.size]
      exact Nat.lt_succ_self _

theorem ViewModel.watch_proceeds (callback : Callback) (hc : callback.Every P) (n : Nat)
    (m : Ref .model) (path : String) :
    (ViewModel.watch (Engine.ofFuel n).compute m path callback).Proceeds P u := by
  intro w r w' hu _ h
  obtain ⟨hu', hcourse, -⟩ := ViewModel.watch_course callback hc h
  exact ⟨hu'.trans hu, hcourse⟩

theorem ViewModel.check_proceeds (m : Ref .model) : (ViewModel.check m).Proceeds P u := by
  intro w r w' hu _ h
  rw [ViewModel.check_apply] at h
  cases h
  exact ⟨hu, [], .nil w⟩

theorem Template.render_glances (n : Nat) (t : Template) (m : Ref .model) :
    (t.render (Engine.ofFuel n).compute m).Glances := by
  refine .bind (.mapM fun segment => ?_) fun _ => .pure _
  cases segment with
  | literal text => exact .pure text
  | path path =>
    exact .bind (ViewModel.read_proceeds (Engine.compute_proceeds n) m path).once fun _ => .pure _

theorem Face.write_course {r : Ref .watcher} {face : Face} {node : Ref .node} {text : String}
    {res : Except Fault Unit} (hm : (w.watchers.get r).model ∈ w.modelsInUse)
    (hb : w.MayShow r face node text)
    (h : face.write (w.watchers.get r).model node text w = some (res, w')) :
    w'.uses = w.uses ∧ ∃ hs, w.Course P hs w' := by
  cases h
  exact ⟨rfl, _, .single (.write hm hb)⟩

theorem Template.render_course {t : Template} {m : Ref .model} {r : Ref .watcher}
    {node : Ref .node} {res : Except Fault Unit} (hm : m ∈ w.modelsInUse)
    (hr : (w.watchers.get r).callback = .render node t) (hmodel : (w.watchers.get r).model = m)
    (h : (t.render (Engine.ofFuel n).compute m >>= Face.text.write m node) w = some (res, w')) :
    w'.uses = w.uses ∧ ∃ hs, w.Course P hs w' := by
  subst hmodel
  obtain ⟨g, hg, rfl⟩ | ⟨text, w₁, ht, h⟩ := Action.bind_eq_some h
  · obtain ⟨hs, hg⟩ := Template.render_glances n t _ _ _ _ hg
    exact ⟨(World.Glances.sameFrame hg).uses, hs, World.Glances.course hg⟩
  · obtain ⟨hs, hg⟩ := Template.render_glances n t _ _ _ _ ht
    have hf := World.Glances.sameFrame hg
    rw [← hf.modelsInUse, ← hf.watchers] at hm
    rw [← hf.watchers] at hr h
    obtain ⟨hu, hs', hc⟩ := Face.write_course (P := P) hm (.template text hr) h
    exact ⟨hu.trans hf.uses, _, (World.Glances.course hg).trans hc⟩

def Callback.rest (e : Engine) (m : Ref .model) (change : Change) : Callback → Action Unit
  | .run _ steps => e.call { model := m, change := change } steps
  | .write _ _ => return
  | .render node t => do
    ViewModel.check m
    Face.text.write m node (← t.render e.compute m)

theorem Callback.perform_apply (e : Engine) (r : Ref .watcher) (m : Ref .model) (change : Change)
    (callback : Callback) (w : World) : callback.perform e r m change w =
      callback.rest e m change (w.startCallback r m change callback) := by
  cases callback <;> rfl

theorem World.uses_startCallback (w : World) (r : Ref .watcher) (m : Ref .model)
    (change : Change) (callback : Callback) :
    ((w.remember r change.new).startCallback r m change callback).uses =
      w.uses := by
  cases callback <;> rfl

theorem leaveBehind_course (w : World) (key : Option String) (k : Nat) :
    (w.leaveBehind key k).uses = w.uses ∧ ∃ hs, w.Course P hs (w.leaveBehind key k) := by
  unfold World.leaveBehind
  split
  · exact ⟨rfl, _, .single (.show trivial)⟩
  · exact ⟨rfl, [], .nil w⟩

variable (he : Engine.Proceeds P (Engine.ofFuel n))
include he

theorem Callback.rest_course {m : Ref .model} {r : Ref .watcher} {callback : Callback}
    {res : Except Fault Unit} (hm : m ∈ w.modelsInUse) (change : Change)
    (hr : (w.watchers.get r).callback = callback) (hmodel : (w.watchers.get r).model = m)
    (hw : w.Stored P) (h : callback.rest (Engine.ofFuel n) m change w = some (res, w')) :
    w'.uses = w.uses ∧ ∃ hs, w.Course P hs w' := by
  have hc : callback.Every P := hr ▸ hw.callback r
  cases callback with
  | run id steps => exact he _ steps w.uses (fun m' h => by cases h; exact hm) hc w _ _ rfl hw h
  | write face node => exact pure () w _ _ rfl hw h
  | render node t =>
    obtain ⟨g, hg, rfl⟩ | ⟨_, w₁, hcheck, h⟩ := Action.bind_eq_some h
    · exact ViewModel.check_proceeds m w _ _ rfl hw hg
    · rw [ViewModel.check_apply] at hcheck
      obtain rfl := (Prod.mk.inj (Option.some.inj hcheck)).2
      exact Template.render_course hm hr hmodel h

theorem Watcher.call_course {w₀ : World} {r : Ref .watcher} {new : Value} {m : Ref .model}
    {res : Except Fault Unit} (hr : .watcher r ∈ w.subscribersInUse) (hm : m ∈ w.modelsInUse)
    (hmodel : (w.watchers.get r).model = m) (hw : w.Stored P)
    (hev : evaluate (Engine.ofFuel n).compute r w₀ = some (.ok new, w))
    (hn : (w.watchers.get r).value.same new = false)
    (h : (w.watchers.get r).callback.perform (Engine.ofFuel n) r m
      { new, old := (w.watchers.get r).value } (w.remember r new) = some (res, w')) :
    w'.uses = w.uses ∧ ∃ hs, w.Course P hs w' := by
  subst hmodel
  have hcall := World.Move.call (P := P) hr hm hev hn
  rw [Callback.perform_apply] at h
  have hu₁ := World.uses_startCallback w r (w.watchers.get r).model
    { new, old := (w.watchers.get r).value }
    (w.watchers.get r).callback
  obtain ⟨hum, -⟩ := Uses.mk.inj hu₁
  obtain ⟨hu, hs, hc⟩ := Callback.rest_course (r := r) he (hum ▸ hm) _
    (by rw [World.startCallback_watchers, World.callback_remember])
    (by rw [World.startCallback_watchers, World.model_remember]) (hcall.stored hw) h
  exact ⟨hu.trans hu₁, _, (World.Along.single hcall).trans hc⟩

/-- A watcher in use is updated: it looks, and if it sees a change its callback is called. Its
view-model is in use for as long as that takes. -/
theorem Watcher.update_proceeds {r : Ref .watcher} (hr : .watcher r ∈ u.subscribers) :
    (Watcher.update (Engine.ofFuel n) r).Proceeds P u := by
  intro w res w' hu hw h
  have hlook {look : Except Fault Value} {w₁ : World}
      (hm : w.modelAlive (w.watchers.get r).model)
      (hev : Watcher.evaluate (Engine.ofFuel n).compute r
        (w.useModel (w.watchers.get r).model) = some (look, w₁)) :
      World.SameFrame (w.useModel (w.watchers.get r).model) w₁ ∧ ∃ hs, w.Course P hs w₁ := by
    obtain ⟨hs, hg⟩ := Watcher.evaluate_glances n r _ _ _ hev
    exact ⟨World.Glances.sameFrame hg, hs,
      (World.Along.single (.useModel hm)).trans (World.Glances.course hg)⟩
  have hrelease {hs : List Happening} {w₁ : World} (hc : w.Course P hs w₁)
      (hused : w₁.uses = ⟨(w.watchers.get r).model :: w.modelsInUse, w.subscribersInUse⟩) :
      (w₁.releaseModel (w.watchers.get r).model).uses = u ∧
        ∃ hs, w.Course P hs (w₁.releaseModel (w.watchers.get r).model) :=
    ⟨(World.uses_releaseModel hused).trans hu, _, .snoc hc (.releaseModel w₁ _)⟩
  cases Watcher.Updated.of_update h with
  | gone => exact ⟨hu, [], .nil w⟩
  | fails hm hev =>
    obtain ⟨hf, hs, hc⟩ := hlook hm hev
    exact hrelease hc hf.uses
  | same hm hev =>
    obtain ⟨hf, hs, hc⟩ := hlook hm hev
    exact hrelease hc hf.uses
  | @calls new w₁ w₂ _ hm hev hn hp =>
    obtain ⟨hf, hs, hc⟩ := hlook hm hev
    obtain ⟨hum, hus⟩ := Uses.mk.inj hf.uses
    have hr₁ : .watcher r ∈ w₁.subscribersInUse := by
      rw [hus]
      exact (Uses.mk.inj hu).2 ▸ hr
    have hm₁ : (w.watchers.get r).model ∈ w₁.modelsInUse := by
      rw [hum]
      exact List.mem_cons_self
    have hmodel : (w₁.watchers.get r).model = (w.watchers.get r).model := by
      rw [hf.watchers]
      rfl
    obtain ⟨hu₂, hs₂, hc₂⟩ := Watcher.call_course he hr₁ hm₁ hmodel
      (World.Course.stored hc hw) hev hn hp
    exact hrelease (hc.trans hc₂) (hu₂.trans hf.uses)

theorem Subscriber.update_proceeds {s : Subscriber} (hs : s ∈ u.subscribers) :
    (Subscriber.update (Engine.ofFuel n) s).Proceeds P u := by
  cases s with
  | watcher r => exact Watcher.update_proceeds he hs
  | reaction r =>
    exact get fun w hw _ => bind (emit trivial) fun _ =>
      he {} _ u (fun _ h => nomatch h) (hw.reaction r)

theorem Subscriber.turn_course {s : Subscriber} {rest : List Subscriber} {w : World}
    {p : Except Fault Unit × World} (hu : w.uses = ⟨u.models, s :: rest ++ u.subscribers⟩)
    (hw : w.Stored P) (h : Subscriber.update (Engine.ofFuel n) s w = some p) :
    (World.afterTurn s p).uses = ⟨u.models, rest ++ u.subscribers⟩ ∧
      ∃ hs, w.Course P hs (World.afterTurn s p) := by
  obtain ⟨res, w₁⟩ := p
  have hs : s ∈ w.uses.subscribers := by
    rw [hu]
    exact List.mem_cons_self
  obtain ⟨hu₁, hs₁, hc₁⟩ := Subscriber.update_proceeds he hs w res w₁ rfl hw h
  have hu₁' := hu₁.trans hu
  cases res with
  | ok _ => exact ⟨World.uses_releaseSubscriber hu₁', _, .snoc hc₁ (.releaseSubscriber w₁ s)⟩
  | error f =>
    have hfailed : w₁.Move P [.showed (.updateFailed f)] (w₁.emit (.updateFailed f)) :=
      .show trivial
    exact ⟨World.uses_releaseSubscriber hu₁', _,
      .snoc (.snoc hc₁ hfailed) (.releaseSubscriber _ s)⟩

theorem updateEach_proceeds (ss : List Subscriber) {w : World} {r : Except Fault Nat}
    (hu : w.uses = ⟨u.models, ss ++ u.subscribers⟩) (hw : w.Stored P)
    (h : updateEach (Subscriber.update (Engine.ofFuel n)) ss w = some (r, w')) :
    w'.uses = u ∧ ∃ hs, w.Course P hs w' := by
  induction ss generalizing w r with
  | nil =>
    rw [updateEach_nil] at h
    cases h
    exact ⟨hu, [], .nil _⟩
  | cons s rest ih =>
    -- Those whose turn is still to come stay in use during this one.
    obtain ⟨p, k, hp, hk, -⟩ := updateEach_cons_eq_some h
    obtain ⟨hu₁, hs₁, hc₁⟩ := Subscriber.turn_course he hu hw hp
    obtain ⟨hu', hs', hc'⟩ := ih hu₁ (World.Course.stored hc₁ hw) hk
    exact ⟨hu', _, hc₁.trans hc'⟩

theorem updateEach_unfinished (ss : List Subscriber) {w : World}
    (hu : w.uses = ⟨u.models, ss ++ u.subscribers⟩) (hw : w.Stored P)
    (h : updateEach (Subscriber.update (Engine.ofFuel n)) ss w = none) :
    ∃ s ∈ ss, ∃ hs w', w.Course P hs w' ∧ Subscriber.update (Engine.ofFuel n) s w' = none := by
  induction ss generalizing w with
  | nil => cases h
  | cons s rest ih =>
    rw [updateEach_cons] at h
    cases hp : Subscriber.update (Engine.ofFuel n) s w with
    | none => exact ⟨s, List.mem_cons_self, [], w, .nil w, hp⟩
    | some p =>
      rw [hp, Option.bind_some, Option.map_eq_none_iff] at h
      obtain ⟨hu₁, hs₁, hc₁⟩ := Subscriber.turn_course he hu hw hp
      obtain ⟨t, ht, hs', w', hc', hnone⟩ := ih hu₁ (World.Course.stored hc₁ hw) h
      exact ⟨t, List.mem_cons_of_mem s ht, _, w', hc₁.trans hc', hnone⟩

theorem Registry.notify_proceeds (registry : Registry) :
    (registry.notify (Subscriber.update (Engine.ofFuel n))).Proceeds P u := by
  intro w r w' hu hw h
  have hmove : w.Move P [] (w.useSubscribers (registry.live w.alive)) :=
    .useSubscribers fun s hs => (List.mem_filter.1 hs).2
  have huse : (w.useSubscribers (registry.live w.alive)).uses =
      ⟨w.uses.models, registry.live w.alive ++ w.uses.subscribers⟩ := rfl
  obtain ⟨hu', hs, hc⟩ := updateEach_proceeds he _ huse (hmove.stored hw) h
  exact ⟨hu'.trans hu, _, (World.Along.single hmove).trans hc⟩

theorem Source.notify_proceeds (source : Source) (hs : ∀ o key, source ≠ .waiting o key) :
    (source.notify (Subscriber.update (Engine.ofFuel n))).Proceeds P u := by
  intro w r w' hu hw h
  have hmove : w.Move P [] (w.setRegistry source ((w.registry source).prune w.alive)) := .prune hs
  have huse := (World.SameFrame.setRegistry w source ((w.registry source).prune w.alive)).uses
  rw [Source.notify_eq] at h
  obtain ⟨hu', hs', hc⟩ := Registry.notify_proceeds he _ _ _ _ (huse.trans hu) (hmove.stored hw) h
  exact ⟨hu', _, (World.Along.single hmove).trans hc⟩

variable (hp : Writable P)
include hp

theorem Cell.write_proceeds (c : Ref .cell) (v : Value) :
    (Cell.write (Subscriber.update (Engine.ofFuel n)) c v).Proceeds P u := by
  intro w r w' hu hw h
  rw [Cell.write_apply] at h
  split at h
  · cases h
    exact ⟨hu, [], .nil w⟩
  · have hmove : w.Move P [] (w.store c v) := .store hp (Bool.eq_false_iff.2 ‹_›)
    obtain ⟨⟨k?, w₁⟩, hn, he'⟩ := Option.map_eq_some_iff.1 h
    cases he'
    obtain ⟨hu₁, hs, hc⟩ := Source.notify_proceeds he (.cell c) (fun _ _ h => nomatch h)
      (w.store c v) _ _ hu (hmove.stored hw) hn
    have hc₁ := (World.Along.single hmove).trans hc
    cases k? with
    | error g => exact ⟨hu₁, _, hc₁⟩
    | ok k =>
      obtain ⟨hu', hs', hc'⟩ := leaveBehind_course w₁ none k
      exact ⟨hu'.trans hu₁, _, hc₁.trans hc'⟩

theorem Object.insert_proceeds {o : Ref .object} {key : String} (v : Value) {w w' : World}
    {r : Except Fault Unit} (hu : w.uses = u) (hw : w.Stored P) (ho : w.slot? o key = none)
    (h : Object.insert (Subscriber.update (Engine.ofFuel n)) o key v w = some (r, w')) :
    w'.uses = u ∧ ∃ hs, w.Course P hs w' := by
  rw [Object.insert_apply] at h
  have hmove : w.Move P [] ((w.insertCell o key v).takeWaiting o key).2 := .insert v hp ho
  obtain ⟨⟨k?, w₁⟩, hn, he'⟩ := Option.map_eq_some_iff.1 h
  cases he'
  obtain ⟨hu₁, hs, hc⟩ := Registry.notify_proceeds he _
    ((w.insertCell o key v).takeWaiting o key).2 _ _ hu (hmove.stored hw) hn
  have hc₁ := (World.Along.single hmove).trans hc
  cases k? with
  | error g => exact ⟨hu₁, _, hc₁⟩
  | ok k =>
    obtain ⟨hu', hs', hc'⟩ := leaveBehind_course w₁ (some key) k
    exact ⟨hu'.trans hu₁, _, hc₁.trans hc'⟩

theorem Object.write_proceeds (o : Ref .object) (key : String) (v : Value) :
    (Object.write (Subscriber.update (Engine.ofFuel n)) o key v).Proceeds P u := by
  intro w r w' hu hw h
  cases hs : w.slot? o key with
  | none =>
    rw [Object.write_missing hs, Option.map_eq_some_iff] at h
    obtain ⟨⟨r, w₁⟩, hi, hr⟩ := h
    cases hr
    exact Object.insert_proceeds he hp v hu hw hs hi
  | some slot =>
    cases slot with
    | cell c =>
      rw [Object.write_cell hs] at h
      exact Cell.write_proceeds he hp c v _ _ _ hu hw h
    | computed p =>
      rw [Object.write_computed hs] at h
      exact throw _ _ _ _ hu hw h

theorem Path.assign_proceeds (p : Path) (root : Ref .object) (v : Value) :
    (p.assign (Engine.ofFuel n).compute (Subscriber.update (Engine.ofFuel n)) root v).Proceeds
      P u :=
  bind (Path.follow_proceeds (Engine.compute_proceeds n) p p.parents _).once.proceeds fun _ =>
    bind (ofExcept _) fun o => Object.write_proceeds he hp o p.last v

theorem ViewModel.write_proceeds (m : Ref .model) (path : String) (v : Value) :
    (ViewModel.write (Engine.ofFuel n).compute (Subscriber.update (Engine.ofFuel n)) m path
      v).Proceeds P u :=
  bind (ofExcept _) fun p => get fun _ _ _ => Path.assign_proceeds he hp p _ v

end ViewBinding
