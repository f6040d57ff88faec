import ViewBinding.Proofs.Course.Run
import ViewBinding.Proofs.Strata.Survey

/-! Whatever a deed leads to lies on the course of the deed: it begins after the deed has begun and
has ended when the deed ends. -/

namespace ViewBinding

variable {P : Step → Prop} {α β : Type} {n : Nat} {f : Frame} {w w' w'' : World}
  {x y : Deed × World}

variable (P) in
def Uncounted : Prop := ∀ k k' steps, P (.loop k steps) → P (.loop k' steps)

namespace World

variable (P) in
def Evolves (w w' : World) : Prop := ∃ hs, w.Course P hs w'

namespace Evolves

theorem refl (w : World) : w.Evolves P w := ⟨[], .nil w⟩

theorem trans (h : w.Evolves P w') (h' : w'.Evolves P w'') : w.Evolves P w'' := by
  obtain ⟨hs, hc⟩ := h
  obtain ⟨hs', hc'⟩ := h'
  exact ⟨hs ++ hs', hc.trans hc'⟩

theorem move {hs : List Happening} (h : w.Move P hs w') : w.Evolves P w' := ⟨hs, .single h⟩

theorem stored (h : w.Evolves P w') (hw : w.Stored P) : w'.Stored P := by
  obtain ⟨hs, hc⟩ := h
  exact hc.stored hw

end Evolves

end World

namespace Deed

/-- The world in which a deed has begun. The start of a callback is told of and shows something at
once. -/
def outset : Deed × World → World
  | (perform r m change callback, w) => w.startCallback r m change callback
  | (_, w) => w

def Ends (x : Deed × World) (u : World) : Prop :=
  ∃ n r, x.1.act (.ofFuel n) x.2 = some (r, u)

variable (P) in
def Allowed (w : World) : Deed → Prop
  | session steps => Step.EveryAll P steps
  | script f steps => f.InUse w.uses ∧ Step.EveryAll P steps
  | step f s => f.InUse w.uses ∧ s.Every P
  | call m _ _ => m ∈ w.modelsInUse ∧ Callable P
  | dispatch _ _ => Writable P ∧ Callable P
  | listen _ _ => Writable P ∧ Callable P
  | respond _ _ => Writable P ∧ Callable P
  | set _ _ _ => Writable P
  | assign _ _ _ => Writable P
  | property _ _ _ => Writable P
  | insert o key _ => Writable P ∧ w.slot? o key = none
  | store _ _ => Writable P
  | turns ss => ∃ others, w.subscribersInUse = ss ++ others
  | turn s => s ∈ w.subscribersInUse
  | perform r m _ callback => m ∈ w.modelsInUse ∧ (w.watchers.get r).model = m ∧
      (w.watchers.get r).callback = callback

variable (P) in
structure Ready (x : Deed × World) : Prop where
  stored : x.2.Stored P
  allowed : x.1.Allowed P x.2

/-- All that a deed does from its outset on is a course. -/
theorem Ready.evolves (hx : Ready P x) (h : Ends x w') : (outset x).Evolves P w' := by
  obtain ⟨d, w⟩ := x
  obtain ⟨hw, ha⟩ := hx
  obtain ⟨n, r, h⟩ := h
  have he : Engine.Proceeds P (Engine.ofFuel n) := Engine.proceeds n
  cases d with
  | session steps =>
    obtain ⟨⟨outcomes, w₁⟩, hs, he⟩ := Option.map_eq_some_iff.1 h
    cases he
    obtain ⟨hs, hc, -⟩ := World.steps_course hw ha hs
    exact ⟨hs, hc⟩
  | script f steps => exact (Step.runAll_proceeds he ha.1 steps ha.2 w r w' rfl hw h).2
  | step f s => exact (Step.run_proceeds he ha.1 s ha.2 w r w' rfl hw h).2
  | call m name event =>
    exact (ViewModel.call_proceeds he ha.2 ha.1 name event w r w' rfl hw h).2
  | dispatch node event =>
    exact ((Judgement.proceeds_acts he).dispatch ha.1 ha.2 node event w r w' rfl hw h).2
  | listen event listeners =>
    have hp : (listeners.forM (·.response.perform (Engine.ofFuel n) event)).Proceeds P w.uses :=
      .forM fun l _ => (Judgement.proceeds_acts he).perform ha.1 ha.2 event l.response
    exact (hp w r w' rfl hw h).2
  | respond event response =>
    exact ((Judgement.proceeds_acts he).perform ha.1 ha.2 event response w r w' rfl hw h).2
  | set m path v => exact (ViewModel.write_proceeds he ha m path v w r w' rfl hw h).2
  | assign p root v => exact (Path.assign_proceeds he ha p root v w r w' rfl hw h).2
  | property o key v => exact (Object.write_proceeds he ha o key v w r w' rfl hw h).2
  | insert o key v => exact (Object.insert_proceeds he ha.1 v rfl hw ha.2 h).2
  | store c v => exact (Cell.write_proceeds he ha c v w r w' rfl hw h).2
  | turns ss =>
    obtain ⟨others, ho⟩ := ha
    have hu : w.uses = ⟨w.modelsInUse, ss ++ others⟩ := by rw [World.uses, ho]
    exact (updateEach_proceeds (u := ⟨w.modelsInUse, others⟩) he ss hu hw h).2
  | turn s => exact (Subscriber.update_proceeds (u := w.uses) he ha w r w' rfl hw h).2
  | perform q m change callback =>
    obtain ⟨hm, hmodel, hcallback⟩ := ha
    have h : callback.perform (Engine.ofFuel n) q m change w = some (r, w') := h
    rw [Callback.perform_apply] at h
    refine (Callback.rest_course (r := q) he ?_ change ?_ ?_ (hw.startCallback _ _ _ _) h).2
    · cases callback <;> exact hm
    · rw [World.startCallback_watchers, hcallback]
    · rw [World.startCallback_watchers, hmodel]

end Deed

variable (P) in
structure Action.Meets (x : Action α) (w : World) (y : Deed × World) : Prop where
  ready : Deed.Ready P y
  before : w.Evolves P (Deed.outset y)
  after : ∀ r w', x w = some (r, w') → ∃ u, Deed.Ends y u ∧ u.Evolves P w'

namespace Action.Meets

variable {a : α} {g : α → Action β}

theorem self {d : Deed} {x : Action α} (hd : Deed.Ready P (d, w))
    (hb : w.Evolves P (Deed.outset (d, w)))
    (he : ∀ r w', x w = some (r, w') → Deed.Ends (d, w) w') : x.Meets P w (d, w) :=
  ⟨hd, hb, fun r w' h => ⟨w', he r w' h, .refl w'⟩⟩

theorem itself {d : Deed} (hd : Deed.Ready P (d, w)) (hb : w.Evolves P (Deed.outset (d, w))) :
    (d.act (.ofFuel n)).Meets P w (d, w) := .self hd hb fun r _ h => ⟨n, r, h⟩

theorem congr {x x' : Action α} (hx : x' w = x w) (h : x.Meets P w y) : x'.Meets P w y :=
  ⟨h.ready, h.before, fun r w' hr => h.after r w' (hx ▸ hr)⟩

theorem get {g : World → Action β} (h : (g w).Meets P w y) :
    (MonadState.get >>= g).Meets P w y := ⟨h.ready, h.before, h.after⟩

theorem later {x : Action α} (hx : x w = some (.ok a, w')) (he : w.Evolves P w')
    (h : (g a).Meets P w' y) : (x >>= g).Meets P w y where
  ready := h.ready
  before := he.trans h.before
  after r w'' hr := by
    rw [bind_apply, hx] at hr
    exact h.after r w'' hr

theorem here {x : Action α} (hx : x w = some (.ok a, w)) (h : (g a).Meets P w y) :
    (x >>= g).Meets P w y := later hx (.refl w) h

theorem first_of_evolves {x : Action α} (h : x.Meets P w y)
    (hg : ∀ a w' r w'', x w = some (.ok a, w') → g a w' = some (r, w'') → w'.Evolves P w'') :
    (x >>= g).Meets P w y where
  ready := h.ready
  before := h.before
  after r w'' hr := by
    obtain ⟨f, hf, -⟩ | ⟨a, w', ha, hr⟩ := bind_eq_some hr
    · exact h.after _ _ hf
    · obtain ⟨u, hu, he⟩ := h.after _ _ ha
      exact ⟨u, hu, he.trans (hg a w' r w'' ha hr)⟩

theorem reply {γ : α → β} {x : Action α} (h : x.Meets P w y) :
    (x >>= fun a => Pure.pure (γ a)).Meets P w y :=
  first_of_evolves h fun _ _ _ _ _ hr => by
    cases hr
    exact .refl _

theorem first {x : Action α} (h : x.Meets P w y) (hw : w.Stored P) (hx : x.Proceeds P w.uses)
    (hg : ∀ a, (g a).Proceeds P w.uses) : (x >>= g).Meets P w y :=
  first_of_evolves h fun a w' r w'' ha hr => by
    obtain ⟨hu, hs, hc⟩ := hx w _ w' rfl hw ha
    exact (hg a w' r w'' hu (hc.stored hw) hr).2

theorem discard {x : Action α} (h : x.Meets P w y) : (Functor.discard x).Meets P w y := by
  have he : Functor.discard x = x >>= fun _ => Pure.pure () := (bind_pure_comp _ x).symm
  rw [he]
  exact reply h

theorem faultOf {x : Action Unit} (h : x.Meets P w y) : x.faultOf.Meets P w y where
  ready := h.ready
  before := h.before
  after r w'' hr := by
    rw [faultOf_apply, Option.bind_eq_some_iff] at hr
    obtain ⟨⟨r', w'⟩, hx, hr⟩ := hr
    cases r' <;> cases hr <;> exact h.after _ _ hx

theorem usingModel {m : Ref .model} {x : Action α} (hm : w.modelAlive m)
    (h : x.Meets P (w.useModel m) y) : (Action.usingModel m x).Meets P w y where
  ready := h.ready
  before := (World.Evolves.move (.useModel hm)).trans h.before
  after r w'' hr := by
    rw [usingModel_apply, Option.map_eq_some_iff] at hr
    obtain ⟨⟨r', w'⟩, hx, he⟩ := hr
    cases he
    obtain ⟨u, hu, he⟩ := h.after _ _ hx
    exact ⟨u, hu, he.trans (.move (.releaseModel w' m))⟩

theorem of_after {x : Action α} {next : α → World → List (Deed × World)}
    (hw : w.Stored P) (hx : x.Proceeds P w.uses) (hy : y ∈ x.after w next)
    (h : ∀ a w', x w = some (.ok a, w') → w'.Stored P → w'.uses = w.uses → y ∈ next a w' →
      (g a).Meets P w' y) : (x >>= g).Meets P w y := by
  rw [Action.after] at hy
  split at hy
  · rename_i a w' ha
    obtain ⟨hu, he⟩ := hx w _ w' rfl hw ha
    exact later ha he (h a w' ha (World.Evolves.stored he hw) hu hy)
  · exact absurd hy List.not_mem_nil

theorem call {e : Frame} {steps : List Step} (hd : Deed.Ready P (.script e steps, w)) :
    ((Engine.ofFuel n).call e steps).Meets P w (.script e steps, w) := by
  refine .self hd (.refl w) fun r w' h => ?_
  cases n with
  | zero => cases h
  | succ n => exact ⟨n, r, h⟩

end Action.Meets

namespace Script

open Action.Meets

theorem withModel_meets {name : Option String} {x : Ref .model → Action α}
    {next : Ref .model → World → List (Deed × World)} (hw : w.Stored P) (hf : f.InUse w.uses)
    (hy : y ∈ inModel f name w next)
    (h : ∀ m, (w.useModel m).Stored P → f.InUse (w.useModel m).uses →
      y ∈ next m (w.useModel m) → (x m).Meets P (w.useModel m) y) :
    (withModel f name x).Meets P w y := by
  rw [inModel] at hy
  cases hm : f.findModel w name with
  | error g =>
    rw [hm] at hy
    exact absurd hy List.not_mem_nil
  | ok m =>
    rw [hm] at hy
    have halive : w.modelAlive m := Frame.modelAlive_of_findModel hf hm
    refine Action.Meets.congr ?_ (usingModel halive (h m ?_ (hf.cons m) hy))
    · rw [withModel, Action.get_bind, hm]
      rfl
    · exact ⟨hw.callback, hw.methods, hw.reaction⟩

theorem withObject_meets {place : Place} {x : Ref .object → Action α}
    {next : Ref .object → World → List (Deed × World)} (hw : w.Stored P) (hf : f.InUse w.uses)
    (hy : y ∈ inObject (Engine.ofFuel n) f place w next)
    (h : ∀ o w', w'.Stored P → f.InUse w'.uses → y ∈ next o w' → (x o).Meets P w' y) :
    (withObject (Engine.ofFuel n) f place x).Meets P w y := by
  cases place with
  | of expr =>
    refine of_after hw (value_proceeds n f expr) hy fun v w' _ hw' hu hy => ?_
    cases ho : v.object? with
    | none =>
      rw [ho] at hy
      exact absurd hy List.not_mem_nil
    | some o =>
      rw [ho] at hy
      exact h o w' hw' (hu ▸ hf) hy
  | root name =>
    refine withModel_meets hw hf hy fun m hw' hf' hy => ?_
    exact get (h _ _ hw' hf' hy)

theorem value_meets {expr : Expr} {g : Value → Action β}
    {next : Value → World → List (Deed × World)} (hw : w.Stored P)
    (hy : y ∈ (value (Engine.ofFuel n) f expr).after w next)
    (h : ∀ v w', w'.Stored P → w'.uses = w.uses → y ∈ next v w' → (g v).Meets P w' y) :
    (value (Engine.ofFuel n) f expr >>= g).Meets P w y :=
  of_after hw (value_proceeds n f expr) hy fun v w' _ => h v w'

theorem findNode_meets {k : Nat} {g : Ref .node → Action β}
    {next : Ref .node → World → List (Deed × World)} (hw : w.Stored P)
    (hy : y ∈ (findNode k).after w next)
    (h : ∀ w', w'.Stored P → w'.uses = w.uses → y ∈ next ⟨k⟩ w' → (g ⟨k⟩).Meets P w' y) :
    (findNode k >>= g).Meets P w y := by
  refine of_after hw (findNode_self_proceeds k) hy fun node w' hk hw' hu hy => ?_
  obtain ⟨known, hfind⟩ := findNode_apply k w
  have hnode : node = ⟨k⟩ := by
    rw [hfind] at hk
    split at hk <;> cases hk
    rfl
  subst hnode
  exact h w' hw' hu hy

end Script

theorem exists_of_mem_elim {γ : Type} {o : Option α} {g : α → List γ} {z : γ}
    (h : z ∈ o.elim [] g) : ∃ a, o = some a ∧ z ∈ g a := by
  cases o with
  | none => exact absurd h List.not_mem_nil
  | some a => exact ⟨a, rfl, h⟩

section Turns

variable {s : Subscriber} {p : Except Fault Unit × World} {ss : List Subscriber}

theorem World.afterTurn_evolves (s : Subscriber) (p : Except Fault Unit × World) :
    p.2.Evolves P (World.afterTurn s p) := by
  obtain ⟨res, w⟩ := p
  cases res with
  | ok => exact .move (.releaseSubscriber w s)
  | error g =>
    exact (Evolves.move (.show (e := .updateFailed g) trivial)).trans
      (.move (.releaseSubscriber _ s))

theorem Watcher.update_meets {r : Ref .watcher} {change : Change} (hw : w.Stored P)
    (hr : .watcher r ∈ w.subscribersInUse)
    (hs : Watcher.starts (Engine.ofFuel n).compute r w = some (change, w')) :
    (Watcher.update (Engine.ofFuel n) r).Meets P w (.perform r (w.watchers.get r).model change
      (w.watchers.get r).callback, w') := by
  have hm := Watcher.modelAlive_of_starts hs
  simp only [Watcher.starts, hm, if_true] at hs
  split at hs
  · rename_i new w₁ hev
    split at hs
    · cases hs
    rename_i hn
    cases hs
    have huse : w.Move P [] (w.useModel (w.watchers.get r).model) := .useModel hm
    obtain ⟨hs, hg⟩ := Watcher.evaluate_glances n r _ _ _ hev
    have hf := World.Glances.sameFrame hg
    have hwatcher : w₁.watchers.get r = w.watchers.get r := by
      rw [hf.watchers]
      rfl
    have hw₁ := hf.stored (huse.stored hw)
    have hused : (w.watchers.get r).model ∈ w₁.modelsInUse := by
      rw [hf.modelsInUse]
      exact List.mem_cons_self
    have hcall : w₁.Move P _ _ := .call (hf.subscribersInUse ▸ hr) (hwatcher.symm ▸ hused) hev
      (Bool.eq_false_iff.2 hn)
    rw [hwatcher] at hcall
    refine ⟨⟨hw₁.remember, hused, ?_, ?_⟩, ?_, fun res w' h => ?_⟩
    · rw [World.model_remember, hwatcher]
    · rw [World.callback_remember, hwatcher]
    · rw [hwatcher]
      exact (World.Evolves.move huse).trans
        (.trans ⟨hs, World.Glances.course hg⟩ (.move hcall))
    · cases Watcher.Updated.of_update h with
      | gone hm' => exact absurd hm hm'
      | fails _ hev' => cases hev.symm.trans hev'
      | same _ hev' hsame =>
        cases hev.symm.trans hev'
        exact absurd hsame hn
      | @calls _ _ w₂ _ _ hev' _ hp =>
        cases hev.symm.trans hev'
        rw [hwatcher] at hp ⊢
        exact ⟨w₂, ⟨n, res, hp⟩, .move (.releaseModel w₂ _)⟩
  · cases hs

theorem Source.notify_meets {r : Ref .registry} (hw : w.Stored P) :
    (Source.notify (Subscriber.update (Engine.ofFuel n)) (.registry r)).Meets P w
      (.turns (w.due (.registry r)), w.notified (.registry r)) := by
  have hprune : w.Move P [] (w.setRegistry (.registry r)
      ((w.registry (.registry r)).prune w.alive)) := .prune fun _ _ h => nomatch h
  have huse : World.Move P _ [] (w.notified (.registry r)) :=
    .useSubscribers (w := w.setRegistry (.registry r) ((w.registry (.registry r)).prune w.alive))
      fun s hs => World.alive_of_mem_due (w := w) hs
  have he := (World.Evolves.move hprune).trans (.move huse)
  refine ⟨⟨he.stored hw, w.subscribersInUse, rfl⟩, he, fun r' w' h => ⟨w', ⟨n, r', ?_⟩, .refl w'⟩⟩
  rw [Source.notify_apply] at h
  exact h

end Turns

open Action.Meets Script in
/-- What a step leads to lies on its course. -/
theorem Step.run_meets (hP : Uncounted P) (s : Step) (hw : w.Stored P) (hf : f.InUse w.uses)
    (hs : s.Every P)
    (hy : y ∈ s.parts (Engine.ofFuel n) f w) : (s.run (Engine.ofFuel n) f).Meets P w y := by
  have he : Engine.Proceeds P (Engine.ofFuel n) := Engine.proceeds n
  cases s with
  | write name path expr =>
    rw [parts] at hy
    refine withModel_meets hw hf hy fun m hw hf hy => value_meets hw hy fun v w' hw' _ hy => ?_
    rw [List.mem_singleton.1 hy]
    exact reply (itself (d := .set m path v) ⟨hw', _, hs.head, trivial⟩ (.refl w'))
  | setProperty place key expr =>
    refine withObject_meets hw hf hy fun o w hw hf hy => value_meets hw hy fun v w' hw' _ hy => ?_
    rw [List.mem_singleton.1 hy]
    exact reply (itself (d := .property o key v) ⟨hw', _, hs.head, trivial⟩ (.refl w'))
  | assign place path expr =>
    refine withObject_meets hw hf hy fun o w hw hf hy => ?_
    split at hy
    · rename_i p hp
      refine here (a := p) (by rw [hp]; rfl)
        (value_meets hw hy fun v w' hw' _ hy => ?_)
      rw [List.mem_singleton.1 hy]
      exact reply (itself (d := .assign p o v) ⟨hw', _, hs.head, trivial⟩ (.refl w'))
    · exact absurd hy List.not_mem_nil
  | setCell id expr =>
    obtain ⟨c, hc, hy⟩ := exists_of_mem_elim hy
    refine here (a := c) ?_ (value_meets hw hy fun v w' hw' _ hy => ?_)
    · rw [findCell, Action.get_bind, hc]
      rfl
    · rw [List.mem_singleton.1 hy]
      exact reply (itself (d := .store c v) ⟨hw', _, hs.head, trivial⟩ (.refl w'))
  | call name method kind text =>
    rw [parts] at hy
    refine withModel_meets hw hf hy fun m hw hf hy => ?_
    rw [List.mem_singleton.1 hy]
    exact reply (itself (d := .call m method { kind, value := text })
      ⟨hw, List.mem_cons_self, _, hs.head, trivial⟩ (.refl _))
  | input k text =>
    refine findNode_meets hw hy fun w' hw' _ hy => ?_
    rw [List.mem_singleton.1 hy]
    have hmove : w'.Move P [] _ := .edit (.typed hs.head)
    have hd : Deed.Ready P (.dispatch ⟨k⟩ { kind := "input", value := text }, _) :=
      ⟨hmove.stored hw', ⟨_, hs.head, trivial⟩, ⟨_, hs.head, trivial⟩⟩
    exact reply (later rfl (.move hmove) (itself hd (.refl _)))
  | dispatch k kind =>
    refine findNode_meets hw hy fun w' hw' _ hy => ?_
    rw [List.mem_singleton.1 hy]
    have hd : Deed.Ready P (.dispatch ⟨k⟩ { kind, value := (w'.view.node ⟨k⟩).value }, w') :=
      ⟨hw', ⟨_, hs.head, trivial⟩, ⟨_, hs.head, trivial⟩⟩
    exact later rfl (.refl w') (reply (itself hd (.refl w')))
  | event k kind text =>
    refine findNode_meets hw hy fun w' hw' _ hy => ?_
    rw [List.mem_singleton.1 hy]
    have hd : Deed.Ready P (.dispatch ⟨k⟩ { kind, value := text }, w') :=
      ⟨hw', ⟨_, hs.head, trivial⟩, ⟨_, hs.head, trivial⟩⟩
    exact reply (itself hd (.refl w'))
  | cond test yes no =>
    refine value_meets hw hy fun v w' hw' hu hy => ?_
    rw [List.mem_singleton.1 hy]
    split
    · exact reply (itself (d := .script f yes) ⟨hw', hu ▸ hf, hs.2.1⟩ (.refl w'))
    · exact reply (itself (d := .script f no) ⟨hw', hu ▸ hf, hs.2.2⟩ (.refl w'))
  | attempt steps =>
    rw [List.mem_singleton.1 hy]
    have hd : Deed.Ready P (.script f steps, w) := ⟨hw, hf, hs.2⟩
    refine first (faultOf (itself hd (.refl w))) hw
      (.faultOf (Step.runAll_proceeds he hf steps hs.2))
      fun fault => ?_
    cases fault with
    | none => exact .pure _
    | some fault => exact .reply (.emit trivial)
  | loop times steps =>
    cases times with
    | zero => exact absurd hy List.not_mem_nil
    | succ times =>
      have hp := Step.runAll_proceeds he hf steps hs.2
      obtain rfl | hy := List.mem_cons.1 hy
      · exact reply (first (itself (d := .script f steps) ⟨hw, hf, hs.2⟩ (.refl w)) hw hp
          fun _ => (Judgement.proceeds_acts he).times (x := fun e => Step.runAll e f steps)
            (fun _ hf' => Step.runAll_proceeds he hf' steps hs.2) hf times)
      · show Action.Meets P ((Step.runAll (Engine.ofFuel n) f steps >>= fun _ =>
          Action.times times (Step.runAll (Engine.ofFuel n) f steps)) >>= _) w y
        rw [bind_assoc]
        refine of_after hw hp hy fun _ w' _ hw' hu hy => ?_
        rw [List.mem_singleton.1 hy]
        exact itself (d := .step f (.loop times steps))
          ⟨hw', hu ▸ hf, hP _ _ _ hs.1, hs.2⟩ (.refl w')
  | watcherUpdate id =>
    obtain ⟨r, hr, hy⟩ := exists_of_mem_elim hy
    rw [List.mem_singleton.1 hy]
    have halive : w.alive (.watcher r) := World.alive_of_named hr
    have huse : w.Move P [] (w.useSubscribers [.watcher r]) :=
      .useSubscribers fun s hs => by rwa [List.mem_singleton.1 hs]
    have hd : Deed.Ready P (.turn (.watcher r), w.useSubscribers [.watcher r]) :=
      ⟨huse.stored hw, List.mem_cons_self⟩
    refine here (a := r) ?_ (reply ⟨hd, .move huse, fun res w' h => ?_⟩)
    · rw [findWatcher, Action.get_bind, hr]
      rfl
    · obtain ⟨⟨res₁, w₁⟩, hu, he⟩ := Option.map_eq_some_iff.1 h
      cases he
      exact ⟨w₁, ⟨n, _, hu⟩, .move (.releaseSubscriber w₁ _)⟩
  | notify id =>
    obtain ⟨r, hr, hy⟩ := exists_of_mem_elim hy
    rw [List.mem_singleton.1 hy]
    refine here (a := r) ?_ (reply (Source.notify_meets hw))
    rw [findRegistry, Action.get_bind, hr]
    rfl
  | _ => exact absurd hy List.not_mem_nil

end ViewBinding
