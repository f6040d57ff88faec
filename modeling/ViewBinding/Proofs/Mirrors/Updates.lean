import ViewBinding.Proofs.Course.Updates
import ViewBinding.Proofs.Mirrors.Draws

/-! Watchers, updates, notifications and writes work on the view in strokes. -/

namespace ViewBinding

open Action.Draws World

variable {S P : Step → Prop} {T : Arrays} {w w' : World} {n : Nat} {m : Ref .model}

structure World.Watched (w : World) (m : Ref .model) (callback : Callback) (r : Ref .watcher)
    (w' : World) : Prop where
  fresh : r = w.watchers.fresh
  size : w'.watchers.size = w.watchers.size + 1
  callback : (w'.watchers.get r).callback = callback
  model : (w'.watchers.get r).model = m
  view : w'.view = w.view

theorem World.Makes.dab {watcher : Watcher} {hs : List Happening} {v : Value}
    (h : w.Makes watcher n hs v w') : w.Dab w' := by
  obtain ⟨-, hm, -, hv⟩ := h.frame
  exact .still hv ⟨Nat.le_of_lt (by rw [h.size]; exact Nat.lt_succ_self _),
    fun _ hr => h.get_watcher hr, Nat.le_of_eq (by rw [hm]), fun m r hr => by rwa [hm]⟩

namespace Watcher

theorem evaluate_draws (hw : w.Told S T) (r : Ref .watcher) :
    Action.Draws S P T w (evaluate (Engine.ofFuel n).compute r) fun v T' _ => v.Known T' := by
  exact .get <| .get <| track (Q := Value.KnownIn) hw
    (Path.follow_proceeds (Engine.compute_proceeds n) _ _ _)
    (Path.follow_yields (Engine.compute_yields n) hw.knows _ _ (Value.known_object _)) _

theorem create_draws (hw : w.Told S T) (path : String) {callback : Callback}
    (hc : callback.Every S) :
    Action.Draws S P T w (create (Engine.ofFuel n).compute m path callback)
      fun r _ w' => w.Watched m callback r w' ∧ w'.models = w.models := by
  refine .bind (ofExcept hw (Q := fun _ _ w' => w' = w) fun _ _ => rfl) fun p T₁ w₁ hd e => ?_
  subst e
  intro res w' h
  let watcher : Watcher := { model := m, path := p, callback }
  have hw₁ : (w₁.addWatcher watcher).Told S T₁ :=
    ⟨hd.told.stored.addWatcher hc, hd.told.knows.addWatcher Value.known_null⟩
  have hadded : w₁.Dab (w₁.addWatcher watcher) := by
    refine .still rfl ⟨?_, fun r hr => Store.get_add_of_lt _ _ hr, Nat.le_refl _, fun _ _ hr => hr⟩
    rw [size_addWatcher]
    exact Nat.le_succ _
  have h : (evaluate (Engine.ofFuel n).compute w₁.watchers.fresh >>= fun v =>
      setValue w₁.watchers.fresh v >>= fun _ =>
        Action.tell (.made w₁.watchers.fresh v) >>= fun _ => Pure.pure w₁.watchers.fresh)
        (w₁.addWatcher watcher) = some (res, w') := h
  obtain ⟨g, hv, rfl⟩ | ⟨v, w₂, hv, h⟩ := Action.bind_eq_some h
  · obtain ⟨T', hd', -⟩ := evaluate_draws (S := S) (P := P) hw₁ _ _ _ hv
    exact ⟨T', (Drawn.stroke hw₁ (.dab hadded)).trans hd', fun _ he => nomatch he⟩
  · -- Nothing is seen of the watcher before it has seen what its path leads to.
    obtain ⟨T', hd', hk⟩ := evaluate_draws (S := S) (P := P) hw₁ _ _ _ hv
    obtain ⟨hs, hg⟩ := evaluate_glances n _ _ _ _ hv
    have hmake : w₁.Makes watcher n hs v
        ((w₂.remember w₁.watchers.fresh v).tell (.made w₁.watchers.fresh v)) := .intro hg hv
    cases h
    have hknows : ((w₂.remember w₁.watchers.fresh v).tell (.made w₁.watchers.fresh v)).Knows T' :=
      (hd'.told.knows.remember w₁.watchers.fresh (hk v rfl)).of_same rfl (fun _ => rfl)
        (fun _ => rfl) rfl
    refine ⟨T', ⟨⟨hmake.stored hc hd.told.stored, hknows⟩, hd'.arrays, .single (.dab hmake.dab)⟩,
      fun r hr => ?_⟩
    cases hr
    obtain ⟨-, hmodels, -, hview⟩ := hmake.frame
    exact ⟨⟨rfl, hmake.size, hmake.fresh.1, hmake.fresh.2, hview⟩, hmodels⟩

end Watcher

namespace ViewModel

theorem watch_draws (hw : w.Told S T) (path : String) {callback : Callback}
    (hc : callback.Every S) :
    Action.Draws S P T w (watch (Engine.ofFuel n).compute m path callback) fun r _ w' =>
      w.Watched m callback r w' ∧ (m.index < w.models.size → r ∈ (w'.models.get m).watchers) := by
  refine .bind (Watcher.create_draws hw path hc) fun r T' w' hd hr => ?_
  refine .bind (.modify ((Aside.keepWatcher w' m r).drawn hd.told)
    (Q := fun _ _ w'' => w'' = w'.keepWatcher m r) rfl) fun _ T'' w'' hd' he => ?_
  subst he
  refine .pure hd'.told
    ⟨⟨hr.1.fresh, hr.1.size, hr.1.callback, hr.1.model, hr.1.view⟩, fun hm => ?_⟩
  have hm' : m.index < w'.models.size := by rwa [hr.2]
  rw [keepWatcher, Store.get_modify_self _ _ hm']
  exact List.mem_append_right _ (List.mem_singleton_self r)

theorem check_draws (hw : w.Told S T) (m : Ref .model) :
    Action.Draws S P T w (check m) fun _ _ w' => w' = w := by
  intro r w' h
  rw [check_apply] at h
  cases h
  exact ⟨T, .refl hw, fun _ _ => rfl⟩

end ViewModel

theorem Template.render_draws (hw : w.Told S T) (t : Template) (m : Ref .model) :
    Action.Draws S P T w (t.render (Engine.ofFuel n).compute m) Action.Any :=
  reply (mapM hw fun segment _ T' w' _ hw' => by
    cases segment with
    | literal text => exact .pure hw' trivial
    | path path =>
      exact reply (once (Q := Value.KnownIn) hw'
        (ViewModel.read_proceeds (Engine.compute_proceeds n) m path)
        (ViewModel.read_yields (Engine.compute_yields n) hw'.knows m path)))

theorem Template.write_draws (hw : w.Told S T) {t : Template} {node : Ref .node}
    {r : Ref .watcher} (hr : (w.watchers.get r).callback = .render node t)
    (hm : (w.watchers.get r).model = m) :
    Action.Draws S P T w (do Face.text.write m node (← t.render (Engine.ofFuel n).compute m))
      fun _ _ w' => w'.watchers = w.watchers := by
  intro res w' h
  obtain ⟨g, hg, rfl⟩ | ⟨text, w₁, hg, h⟩ := Action.bind_eq_some h
  · obtain ⟨T', hd, -⟩ := render_draws (S := S) (P := P) hw t m _ _ hg
    exact ⟨T', hd, fun _ he => nomatch he⟩
  · obtain ⟨T', hd, -⟩ := render_draws (S := S) (P := P) hw t m _ _ hg
    obtain ⟨hs, hglances⟩ := Template.render_glances n t m _ _ _ hg
    have hwatchers := (Glances.sameFrame hglances).watchers
    rw [← hwatchers] at hr hm
    have htold : (w₁.tell (.wrote m .text node text)).Told S T' := (Aside.tell w₁ _).told hd.told
    subst hm
    cases h
    exact ⟨T', hd.trans (.stroke (htold.view _) (.dab (.render text hr))), fun _ _ => hwatchers⟩

variable (P) in
def Engine.Draws (e : Engine) : Prop :=
  ∀ (f : Frame) (steps : List Step) (T : Arrays) (w : World), w.Told P T → f.Known T →
    Step.EveryAll P steps → Action.Draws P P T w (e.call f steps) Action.Any

namespace World

variable {r : Ref .watcher}

theorem Told.call (hw : w.Told P T) {new : Value} (hn : new.Known T) (r : Ref .watcher) :
    Drawn P P T w T ((w.remember r new).startCallback r (w.watchers.get r).model
      { new, old := (w.watchers.get r).value } (w.watchers.get r).callback) := by
  refine .stroke ⟨hw.stored.remember.startCallback _ _ _ _, ?_⟩ (.dab (.call r new))
  have hk := hw.knows.remember r hn
  generalize (w.watchers.get r).callback = callback
  cases callback <;> exact hk.of_same rfl (fun _ => rfl) (fun _ => rfl) rfl

theorem Told.store (hw : w.Told P T) (c : Ref .cell) {v : Value} (hv : v.Known T) :
    Drawn P P T w T (w.store c v) :=
  .stroke ⟨⟨hw.stored.callback, hw.stored.methods, hw.stored.reaction⟩, hw.knows.store c hv⟩
    (.dab (.still rfl (.of_same rfl rfl)))

theorem Told.insert (hw : w.Told P T) (o : Ref .object) (key : String) {v : Value}
    (hv : v.Known T) : Drawn P P T w T ((w.insertCell o key v).takeWaiting o key).2 :=
  .stroke ⟨⟨hw.stored.callback, hw.stored.methods, hw.stored.reaction⟩,
      (hw.knows.addCell hv).of_same rfl (fun _ => rfl) (fun _ => rfl) rfl⟩
    (.dab (.still rfl (.of_same rfl rfl)))

theorem Told.afterTurn {p : Except Fault Unit × World} (hw : p.2.Told S T) (s : Subscriber) :
    Drawn S P T p.2 T (afterTurn s p) := by
  obtain ⟨res, w⟩ := p
  cases res with
  | ok => exact (Aside.releaseSubscriber w s).drawn hw
  | error f =>
    have hd : Drawn S P T w T (w.emit (.updateFailed f)) := (Aside.tell w _).drawn hw
    exact hd.trans ((Aside.releaseSubscriber _ s).drawn hd.told)

theorem Told.leaveBehind (hw : w.Told S T) (key : Option String) (failed : Nat) :
    Drawn S P T w T (w.leaveBehind key failed) := by
  unfold World.leaveBehind
  split
  · exact (Aside.tell w _).drawn hw
  · exact .refl hw

end World

variable (he : Engine.Draws P (Engine.ofFuel n))
include he

theorem Callback.rest_draws (hw : w.Told P T) {r : Ref .watcher} {callback : Callback}
    (hr : (w.watchers.get r).callback = callback) (hm : (w.watchers.get r).model = m)
    {change : Change} (hn : change.new.Known T) (ho : change.old.Known T) :
    Action.Draws P P T w (callback.rest (Engine.ofFuel n) m change) Action.Any := by
  cases callback with
  | run id steps =>
    have hc := hw.stored.callback r
    rw [hr] at hc
    exact he _ steps T w hw (fun c h => by cases h; exact ⟨hn, ho⟩) hc
  | write face node => exact .pure hw trivial
  | render node t =>
    refine .bind (ViewModel.check_draws hw m) fun _ T' w' hd h => ?_
    subst h
    exact (Template.write_draws hd.told hr hm).any

theorem Callback.perform_draws (hw : w.Told P T) {new : Value} (hn : new.Known T) (r : Ref .watcher)
    (hm : (w.watchers.get r).model = m) {res : Except Fault Unit}
    (h : (w.watchers.get r).callback.perform (Engine.ofFuel n) r m
      { new, old := (w.watchers.get r).value } (w.remember r new) = some (res, w')) :
    ∃ T', Drawn P P T w T' w' := by
  subst hm
  have hd := hw.call hn r
  rw [Callback.perform_apply] at h
  obtain ⟨T', hd', -⟩ := rest_draws (r := r) he hd.told
    (by rw [startCallback_watchers, callback_remember])
    (by rw [startCallback_watchers, model_remember]) hn (hw.knows.seen r) _ _ h
  exact ⟨T', hd.trans hd'⟩

theorem Watcher.update_draws (hw : w.Told P T) (r : Ref .watcher) :
    Action.Draws P P T w (Watcher.update (Engine.ofFuel n) r) Action.Any := by
  intro res w' h
  suffices hd : ∃ T', Drawn P P T w T' w' from hd.imp fun _ hd => ⟨hd, fun _ _ => trivial⟩
  have hlook {look : Except Fault Value} {w₁ : World}
      (hev : Watcher.evaluate (Engine.ofFuel n).compute r
        (w.useModel (w.watchers.get r).model) = some (look, w₁)) :
      ∃ T₁, Drawn P P T w T₁ w₁ ∧ ∀ v, look = .ok v → v.Known T₁ := by
    have huse : Drawn P P T w T _ := (Aside.useModel w (w.watchers.get r).model).drawn hw
    obtain ⟨T₁, hd, hk⟩ := Watcher.evaluate_draws (P := P) huse.told r _ _ hev
    exact ⟨T₁, huse.trans hd, hk⟩
  have hrelease {T₁ : Arrays} {w₁ : World} (hd : Drawn P P T w T₁ w₁) :
      ∃ T', Drawn P P T w T' (w₁.releaseModel (w.watchers.get r).model) :=
    ⟨T₁, hd.trans ((Aside.releaseModel w₁ _).drawn hd.told)⟩
  cases Watcher.Updated.of_update h with
  | gone => exact ⟨T, .refl hw⟩
  | fails _ hev =>
    obtain ⟨T₁, hd, -⟩ := hlook hev
    exact hrelease hd
  | same _ hev =>
    obtain ⟨T₁, hd, -⟩ := hlook hev
    exact hrelease hd
  | @calls new w₁ _ _ _ hev _ hp =>
    obtain ⟨T₁, hd, hk⟩ := hlook hev
    obtain ⟨_, hg⟩ := Watcher.evaluate_glances n r _ _ _ hev
    have hm : (w₁.watchers.get r).model = (w.watchers.get r).model := by
      rw [(Glances.sameFrame hg).watchers]
      rfl
    obtain ⟨T₂, hd₂⟩ := Callback.perform_draws he hd.told (hk new rfl) r hm hp
    exact hrelease (hd.trans hd₂)

theorem Subscriber.update_draws (hw : w.Told P T) (s : Subscriber) :
    Action.Draws P P T w (Subscriber.update (Engine.ofFuel n) s) Action.Any := by
  cases s with
  | watcher r => exact Watcher.update_draws he hw r
  | reaction r =>
    refine .get <| .bind (tell hw _) fun _ T' w' hd _ => ?_
    exact he {} _ T' w' hd.told (Frame.known_of_change rfl) (hw.stored.reaction r)

theorem updateEach_draws (ss : List Subscriber) (hw : w.Told P T) :
    Action.Draws P P T w (updateEach (Subscriber.update (Engine.ofFuel n)) ss) Action.Any := by
  intro res w' h
  suffices hd : ∃ T', Drawn P P T w T' w' from hd.imp fun _ hd => ⟨hd, fun _ _ => trivial⟩
  induction ss generalizing T w res with
  | nil =>
    rw [updateEach_nil] at h
    cases h
    exact ⟨T, .refl hw⟩
  | cons s rest ih =>
    obtain ⟨⟨res', w₁⟩, k, hp, hk, -⟩ := updateEach_cons_eq_some h
    obtain ⟨T₁, hd₁, -⟩ := Subscriber.update_draws he hw s _ _ hp
    have hd₂ := hd₁.trans (Told.afterTurn hd₁.told (p := (res', w₁)) s)
    obtain ⟨T', hd'⟩ := ih hd₂.told k hk
    exact ⟨T', hd₂.trans hd'⟩

theorem Registry.notify_draws (hw : w.Told P T) (registry : Registry) :
    Action.Draws P P T w (registry.notify (Subscriber.update (Engine.ofFuel n))) Action.Any :=
  .get <| .bind (aside hw (.useSubscribers w _)) fun _ _ _ hd _ => updateEach_draws he _ hd.told

theorem Source.notify_draws (hw : w.Told P T) (source : Source) :
    Action.Draws P P T w (source.notify (Subscriber.update (Engine.ofFuel n))) Action.Any :=
  .get <| .bind (aside hw (.setRegistry w source _)) fun _ _ _ hd _ =>
    Registry.notify_draws he hd.told _

theorem Cell.write_draws (hw : w.Told P T) (c : Ref .cell) {v : Value} (hv : v.Known T) :
    Action.Draws P P T w (Cell.write (Subscriber.update (Engine.ofFuel n)) c v) Action.Any := by
  intro res w' h
  suffices hd : ∃ T', Drawn P P T w T' w' from hd.imp fun _ hd => ⟨hd, fun _ _ => trivial⟩
  rw [Cell.write_apply] at h
  split at h
  · cases h
    exact ⟨T, .refl hw⟩
  · have hstore := hw.store c hv
    obtain ⟨⟨k?, w₁⟩, hn, he'⟩ := Option.map_eq_some_iff.1 h
    cases he'
    obtain ⟨T₁, hd₁, -⟩ := Source.notify_draws he hstore.told (.cell c) _ _ hn
    have hd := hstore.trans hd₁
    cases k? with
    | error g => exact ⟨T₁, hd⟩
    | ok k => exact ⟨T₁, hd.trans (hd.told.leaveBehind none k)⟩

theorem Object.insert_draws (hw : w.Told P T) (o : Ref .object) (key : String) {v : Value}
    (hv : v.Known T) :
    Action.Draws P P T w (Object.insert (Subscriber.update (Engine.ofFuel n)) o key v)
      Action.Any := by
  intro res w' h
  suffices hd : ∃ T', Drawn P P T w T' w' from hd.imp fun _ hd => ⟨hd, fun _ _ => trivial⟩
  rw [Object.insert_apply] at h
  have hinsert := hw.insert o key hv
  obtain ⟨⟨k?, w₁⟩, hn, he'⟩ := Option.map_eq_some_iff.1 h
  cases he'
  obtain ⟨T₁, hd₁, -⟩ := Registry.notify_draws he hinsert.told _ _ _ hn
  have hd := hinsert.trans hd₁
  cases k? with
  | error g => exact ⟨T₁, hd⟩
  | ok k => exact ⟨T₁, hd.trans (hd.told.leaveBehind (some key) k)⟩

theorem Object.write_draws (hw : w.Told P T) (o : Ref .object) (key : String) {v : Value}
    (hv : v.Known T) :
    Action.Draws P P T w (Object.write (Subscriber.update (Engine.ofFuel n)) o key v)
      Action.Any := by
  refine .get ?_
  split
  · exact Cell.write_draws he hw _ hv
  · exact .throw hw _
  · exact reply (Object.insert_draws he hw o key hv)

theorem Path.assign_draws (hw : w.Told P T) (p : Path) (root : Ref .object) {v : Value}
    (hv : v.Known T) : Action.Draws P P T w
      (p.assign (Engine.ofFuel n).compute (Subscriber.update (Engine.ofFuel n)) root v)
        Action.Any := by
  refine .bind (once (Q := Value.KnownIn) hw
    (Path.follow_proceeds (Engine.compute_proceeds n) p p.parents _)
    (Path.follow_yields (Engine.compute_yields n) hw.knows p p.parents (Value.known_object root)))
    fun parent T₁ w₁ hd _ => ?_
  exact .bind (ofExcept hd.told (Q := Action.Any) fun _ _ => trivial) fun o _ _ hd' _ =>
    Object.write_draws he hd'.told o p.last (hv.mono (hd.arrays.trans hd'.arrays))

end ViewBinding
