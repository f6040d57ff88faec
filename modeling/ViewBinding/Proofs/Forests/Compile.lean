import ViewBinding.Proofs.Course.Bindings
import ViewBinding.Proofs.Forests.Room
import ViewBinding.Proofs.Mount.Mounting

/-! Binding a view tree ends, stays below the root and keeps the view a forest. -/

namespace ViewBinding

variable {D : Sight → Prop} {U : Ref .node → Prop} {w w' w'' : World} {n : Ref .node} {k : Nat}

def Callback.node? : Callback → Option (Ref .node)
  | .run _ _ => none
  | .write _ n => some n
  | .render n _ => some n

/-- Whether the computed properties of every world whose data is as `D` says can be worked out, and
leave the data as `D` says. -/
def Computes (compute : Computed → Reading Value) (D : Sight → Prop) : Prop :=
  ∀ (w : World) o key p, D w.sight → w.slot? o key = some (.computed p) →
    ∀ e, ∃ r e' w', compute p e w = some ((r, e'), w') ∧ D w'.sight

section Readings

variable {α β : Type} {compute : Computed → Reading Value}

theorem Sight.computes {d : Sight} (hd : d.Steady)
    (h : ∀ o key p, d.slot? o key = some (.computed p) → (d.compute k p).run.isSome) :
    Computes (Engine.ofFuel k).compute (· = d) := by
  rintro w o key p rfl hp e
  obtain ⟨⟨r, ms⟩, hr⟩ := Option.isSome_iff_exists.1 (h o key p hp)
  rw [Reading.Sees.compute k p (hd o key p hp) e w hd, Look.leave, hr]
  exact ⟨_, _, _, rfl, Mark.sight_leaveAll ms (e, w)⟩

def Reading.Ends (x : Reading α) (D : Sight → Prop) : Prop :=
  ∀ (w : World) e, D w.sight → ∃ r e' w', x e w = some ((r, e'), w') ∧ D w'.sight

namespace Reading.Ends

theorem pure (a : α) : (Pure.pure a : Reading α).Ends D :=
  fun w e hw => ⟨.ok a, e, w, rfl, hw⟩

theorem ofExcept (r : Except Fault α) : (MonadExcept.ofExcept r : Reading α).Ends D := by
  intro w e hw
  cases r with
  | error f => exact ⟨.error f, e, w, rfl, hw⟩
  | ok a => exact ⟨.ok a, e, w, rfl, hw⟩

theorem bind {x : Reading α} {f : α → Reading β} (hx : x.Ends D) (hf : ∀ a, (f a).Ends D) :
    (x >>= f).Ends D := by
  intro w e hw
  obtain ⟨r, e₁, w₁, hr, hw₁⟩ := hx w e hw
  rw [bind_apply, hr]
  cases r with
  | error g => exact ⟨.error g, e₁, w₁, rfl, hw₁⟩
  | ok a => exact hf a w₁ e₁ hw₁

theorem getWorld {f : World → Reading α} (h : ∀ w, (f w).Ends D) :
    (getThe World >>= f).Ends D := fun w e hw => h w w e hw

theorem register (source : Source) : (Reading.register source).Ends D :=
  fun w e hw => ⟨_, _, _, register_apply source e w, by rwa [Mark.sight_leave]⟩

theorem cell (c : Ref .cell) : (Cell.read c).Ends D :=
  bind (register (.cell c)) fun _ => getWorld fun _ => pure _

theorem object (hc : Computes compute D) (o : Ref .object) (key : String) :
    (Object.read compute o key).Ends D := by
  intro w e hw
  rw [Object.read, getWorld_bind]
  cases hs : w.slot? o key with
  | none => exact bind (register (.waiting o key)) (fun _ => pure _) w e hw
  | some slot =>
    cases slot with
    | cell c => exact cell c w e hw
    | computed p => exact hc w o key p hw hs e

theorem follow (hc : Computes compute D) (p : Path) (segments : List String) (v : Value) :
    (p.follow compute segments v).Ends D := by
  induction segments generalizing v with
  | nil => exact pure v
  | cons segment rest ih => exact bind (ofExcept _) fun o => bind (object hc o segment) ih

theorem model (hc : Computes compute D) (m : Ref .model) (path : String) :
    (ViewModel.read compute m path).Ends D :=
  bind (ofExcept _) fun p => getWorld fun _ => follow hc p _ _

end Reading.Ends

end Readings

/-- A change of the world in which the view changes inside a part only, data that was as `D` says
stays so, and new watchers show something on nodes that were made. -/
structure World.Kept (D : Sight → Prop) (U : Ref .node → Prop) (w w' : World) : Prop where
  data : D w.sight → D w'.sight
  room : w'.view.Room U
  inside : w.view.Inside U w'.view
  watchers : w.watchers.size ≤ w'.watchers.size
  callback : ∀ r, r.index < w.watchers.size →
    (w'.watchers.get r).callback = (w.watchers.get r).callback
  bound : ∀ r, w.watchers.size ≤ r.index → r.index < w'.watchers.size →
    ∃ n, (w'.watchers.get r).callback.node? = some n ∧ n.index < w'.view.nodes.size

namespace World.Kept

theorem refl (hw : w.view.Room U) : w.Kept D U w :=
  ⟨id, hw, .refl _, Nat.le_refl _, fun _ _ => rfl,
    fun _ hr hr' => absurd hr' (Nat.not_lt.2 hr)⟩

theorem trans (h : w.Kept D U w') (h' : w'.Kept D U w'') : w.Kept D U w'' where
  data hd := h'.data (h.data hd)
  room := h'.room
  inside := h.inside.trans h'.inside
  watchers := Nat.le_trans h.watchers h'.watchers
  callback r hr := (h'.callback r (Nat.lt_of_lt_of_le hr h.watchers)).trans (h.callback r hr)
  bound r hr hr' := by
    by_cases hl : r.index < w'.watchers.size
    · obtain ⟨n, hn, hs⟩ := h.bound r hr hl
      exact ⟨n, by rw [h'.callback r hl, hn], Nat.lt_of_lt_of_le hs h'.inside.size⟩
    · exact h'.bound r (Nat.le_of_not_lt hl) hr'

theorem of_same (hw : w.view.Room U) (hd : D w.sight → D w'.sight) (hv : w'.view = w.view)
    (hws : w'.watchers = w.watchers) : w.Kept D U w' where
  data := hd
  room := hv ▸ hw
  inside := hv ▸ .refl _
  watchers := Nat.le_of_eq (by rw [hws])
  callback r _ := by rw [hws]
  bound r hr hr' := absurd hr' (Nat.not_lt.2 (by rwa [hws]))

theorem view (v : View) (h : v.Room U ∧ w.view.Inside U v) : w.Kept D U { w with view := v } where
  data := id
  room := h.1
  inside := h.2
  watchers := Nat.le_refl _
  callback _ _ := rfl
  bound _ hr hr' := absurd hr' (Nat.not_lt.2 hr)

theorem tell (hw : w.view.Room U) (x : Happening) : w.Kept D U (w.tell x) := of_same hw id rfl rfl

theorem addWatcher (hw : w.view.Room U) {watcher : Watcher}
    (hn : watcher.callback.node? = some n) (hl : n.index < w.view.nodes.size) :
    w.Kept D U (w.addWatcher watcher) where
  data := id
  room := hw
  inside := .refl _
  watchers := by
    rw [size_addWatcher]
    exact Nat.le_succ _
  callback r hr := by
    have hne : r ≠ w.watchers.fresh := by
      rintro rfl
      exact Nat.lt_irrefl _ hr
    rw [World.addWatcher, Store.get_add, if_neg hne]
  bound r hr hr' := by
    rw [size_addWatcher] at hr'
    obtain rfl : r = w.watchers.fresh := by
      have hi : r.index = w.watchers.size := by omega
      cases r
      exact congrArg Ref.mk hi
    rw [World.addWatcher, Store.get_add, if_pos rfl]
    exact ⟨n, hn, hl⟩

theorem remember (hw : w.view.Room U) (r : Ref .watcher) (v : Value) :
    w.Kept D U (w.remember r v) where
  data := id
  room := hw
  inside := .refl _
  watchers := Nat.le_of_eq (size_remember w r v).symm
  callback r' _ := callback_remember w r r' v
  bound r' hr hr' := by
    rw [size_remember] at hr'
    exact absurd hr' (Nat.not_lt.2 hr)

theorem keepWatcher (hw : w.view.Room U) (m : Ref .model) (r : Ref .watcher) :
    w.Kept D U (w.keepWatcher m r) :=
  of_same hw (fun hd => (sight_keepWatcher w m r).symm ▸ hd) rfl rfl

end World.Kept

/-- Whether an action ends if the data is as `D` says, and keeps to its part of the view whatever it
ends with. -/
def Action.Keeps {α : Type} (x : Action α) (D : Sight → Prop) (U : Ref .node → Prop) (w : World) :
    Prop :=
  w.view.Room U → (D w.sight → ∃ p, x w = some p) ∧ ∀ r w', x w = some (r, w') → w.Kept D U w'

namespace Action.Keeps

variable {α β : Type}

theorem pure (a : α) : (Pure.pure a : Action α).Keeps D U w := fun hw =>
  ⟨fun _ => ⟨_, rfl⟩, fun r w' h => by cases h; exact .refl hw⟩

theorem throw (f : Fault) : (MonadExcept.throw f : Action α).Keeps D U w := fun hw =>
  ⟨fun _ => ⟨_, rfl⟩, fun r w' h => by cases h; exact .refl hw⟩

theorem ofExcept (r : Except Fault α) : (MonadExcept.ofExcept r : Action α).Keeps D U w := by
  cases r with
  | error f => exact throw f
  | ok a => exact pure a

theorem require (f : Fault) (a? : Option α) : (Action.require f a?).Keeps D U w := by
  cases a? with
  | none => exact throw f
  | some a => exact pure a

theorem get {f : World → Action α} (h : (f w).Keeps D U w) :
    (MonadState.get >>= f : Action α).Keeps D U w := h

theorem modify {f : World → World} (h : w.view.Room U → w.Kept D U (f w)) :
    (MonadState.modifyGet fun w => ((), f w) : Action Unit).Keeps D U w := fun hw =>
  ⟨fun _ => ⟨_, rfl⟩, fun r w' hr => by cases hr; exact h hw⟩

theorem bind {x : Action α} {f : α → Action β} (hx : x.Keeps D U w)
    (hf : ∀ a w', w.Kept D U w' → (f a).Keeps D U w') : (x >>= f).Keeps D U w := by
  intro hw
  obtain ⟨hend, hkept⟩ := hx hw
  refine ⟨fun hd => ?_, fun r w' h => ?_⟩
  · obtain ⟨⟨r, w₁⟩, hr⟩ := hend hd
    have hk := hkept r w₁ hr
    rw [bind_apply, hr]
    cases r with
    | error g => exact ⟨_, rfl⟩
    | ok a => exact (hf a w₁ hk hk.room).1 (hk.data hd)
  · obtain ⟨g, hr, rfl⟩ | ⟨a, w₁, hr, h⟩ := Action.bind_eq_some h
    · exact hkept _ _ hr
    · have hk := hkept _ _ hr
      exact hk.trans ((hf a w₁ hk hk.room).2 r w' h)

theorem forM {l : List α} {f : α → Action Unit}
    (hf : ∀ a ∈ l, ∀ w', w.Kept D U w' → (f a).Keeps D U w') : (l.forM f).Keeps D U w := by
  intro hw
  induction l generalizing w with
  | nil => exact pure () hw
  | cons a l ih =>
    refine bind (hf a List.mem_cons_self w (.refl hw)) (fun _ w₁ hk hw₁ => ?_) hw
    exact ih (fun b hb w₂ hk' => hf b (List.mem_cons_of_mem a hb) w₂ (hk.trans hk')) hw₁

theorem mapM {l : List α} {f : α → Action β} (hf : ∀ a ∈ l, ∀ w, (f a).Keeps D U w) :
    (l.mapM f).Keeps D U w := by
  induction l generalizing w with
  | nil => exact pure []
  | cons a l ih =>
    rw [List.mapM_cons]
    exact bind (hf a List.mem_cons_self w) fun _ _ _ =>
      bind (ih fun b hb => hf b (List.mem_cons_of_mem a hb)) fun _ _ _ => pure _

theorem evaluate {x : Reading α} (hend : x.Ends D) (hx : x.Proceeds) (s : Option Subscriber) :
    (x.evaluate s).Keeps D U w := by
  refine fun hw => ⟨fun hd => ?_, fun r w' h => ?_⟩
  · obtain ⟨r, e, w', h, -⟩ := hend w _ hd
    exact ⟨_, congrArg (Option.map _) h⟩
  · obtain ⟨hs, hg⟩ := hx.evaluate s w r w' h
    have hf := World.Glances.sameFrame hg
    refine .of_same hw (fun hd => ?_) hf.view hf.watchers
    obtain ⟨r', e, w₁, h', hd'⟩ := hend w { subscriber := s } hd
    obtain ⟨p, hp, he⟩ := Option.map_eq_some_iff.1 h
    rw [h'] at hp
    cases hp
    cases he
    exact hd'

theorem once {x : Reading α} (hend : x.Ends D) (hx : x.Proceeds) : x.once.Keeps D U w :=
  bind (evaluate hend hx none) fun _ _ _ => ofExcept _

theorem track {x : Reading α} (hend : x.Ends D) (hx : x.Proceeds) (s : Subscriber) :
    (x.track s).Keeps D U w :=
  bind (evaluate hend hx (some s)) fun _ _ _ => ofExcept _

end Action.Keeps

section Binding

variable (hc : Computes (Engine.ofFuel k).compute D) {m : Ref .model}

theorem Face.write_keeps (face : Face) (hn : U n) (hl : n.index < w.view.nodes.size)
    (text : String) : (face.write m n text).Keeps D U w :=
  .bind (.modify fun hw => .tell hw _) fun _ _ hk =>
    .modify fun hw => .view _ (hw.write hn (Nat.lt_of_lt_of_le hl hk.inside.size) face text)

theorem Listener.attach_keeps (hn : U n) (l : Listener) : (l.attach n).Keeps D U w :=
  .bind (.modify fun hw => .tell hw _) fun _ _ _ => .modify fun hw => .view _ (hw.listen hn l)

include hc

theorem Watcher.evaluate_keeps (r : Ref .watcher) :
    (Watcher.evaluate (Engine.ofFuel k).compute r).Keeps D U w :=
  .get (.get (.track (.follow hc _ _ _) (Path.follow_proceeds (Engine.compute_proceeds k) _ _ _) _))

theorem ViewModel.watch_keeps (path : String) {callback : Callback}
    (hn : callback.node? = some n) (hl : n.index < w.view.nodes.size) :
    (ViewModel.watch (Engine.ofFuel k).compute m path callback).Keeps D U w := by
  refine .bind ?_ fun r w₁ _ => .bind (.modify fun hw => .keepWatcher hw m r) fun _ _ _ => .pure _
  refine .bind (.ofExcept _) fun p w₁ hk => .get ?_
  have hl₁ := Nat.lt_of_lt_of_le hl hk.inside.size
  refine .bind (.modify fun hw => .addWatcher hw hn hl₁) fun _ _ _ => ?_
  exact .bind (Watcher.evaluate_keeps hc _) fun v _ _ =>
    .bind (.modify fun hw => .remember hw _ v) fun _ _ _ =>
      .bind (.modify fun hw => .tell hw _) fun _ _ _ => .pure _

theorem Face.bind_keeps (face : Face) (hn : U n) (hl : n.index < w.view.nodes.size)
    (path : String) : (face.bind (Engine.ofFuel k).compute n m path).Keeps D U w :=
  .bind (ViewModel.watch_keeps hc path rfl hl) fun _ _ hk =>
    .get (face.write_keeps hn (Nat.lt_of_lt_of_le hl hk.inside.size) _)

theorem Directive.bind_keeps (u : Directive.Use) (value : String) (hn : U n)
    (hl : n.index < w.view.nodes.size) :
    (Directive.bind (Engine.ofFuel k).compute u value n m).Keeps D U w := by
  obtain ⟨directive, argument⟩ := u
  cases directive with
  | model =>
    exact .bind (Face.bind_keeps hc .value hn hl value) fun _ _ _ => Listener.attach_keeps hn _
  | html => exact Face.bind_keeps hc .html hn hl value
  | text => exact Face.bind_keeps hc .text hn hl value
  | on =>
    refine .bind (.require _ argument) fun event _ _ => .get ?_
    split
    · exact Listener.attach_keeps hn _
    · exact .bind (.throw _) fun _ _ _ => Listener.attach_keeps hn _

theorem Template.render_keeps (t : Template) (m : Ref .model) :
    (t.render (Engine.ofFuel k).compute m).Keeps D U w := by
  refine .bind (.mapM fun segment _ w => ?_) fun _ _ _ => .pure _
  cases segment with
  | literal text => exact .pure text
  | path path =>
    exact .bind (.once (.model hc m path)
      (ViewModel.read_proceeds (Engine.compute_proceeds k) m path)) fun _ _ _ => .pure _

theorem Template.bind_keeps (t : Template) (hn : U n) (hl : n.index < w.view.nodes.size) :
    (t.bind (Engine.ofFuel k).compute n m).Keeps D U w := by
  refine .bind (.forM fun path _ w' hk => .bind (ViewModel.watch_keeps hc path rfl
    (Nat.lt_of_lt_of_le hl hk.inside.size)) fun _ _ _ => .pure _) fun _ w₁ hk => ?_
  refine .bind (Template.render_keeps hc t m) fun text w₂ hk₂ => ?_
  exact Face.write_keeps .text hn (Nat.lt_of_lt_of_le hl (hk.trans hk₂).inside.size) text

variable (s : Settings)

namespace Settings

theorem bindAttrs_keeps (hn : U n) (hl : n.index < w.view.nodes.size) :
    (s.bindAttrs (Engine.ofFuel k).compute n m).Keeps D U w := by
  refine .get (.forM fun attr _ w' hk => .bind (.ofExcept _) fun u? w₁ hk₁ => ?_)
  cases u? with
  | none => exact .pure ()
  | some u =>
    exact Directive.bind_keeps hc u _ hn (Nat.lt_of_lt_of_le hl (hk.trans hk₁).inside.size)

theorem bindText_keeps (hn : U n) (hl : n.index < w.view.nodes.size) :
    (s.bindText (Engine.ofFuel k).compute n m).Keeps D U w := by
  refine .get ?_
  split
  · exact Template.bind_keeps hc _ hn hl
  · exact .pure ()

theorem bindNodes_keeps (depth : Nat) {ns : List (Ref .node)}
    (hns : ∀ n ∈ ns, U n ∧ n.index < w.view.nodes.size ∧ w.view.Fits depth n) :
    (s.bindNodes (Engine.ofFuel k).compute m depth ns).Keeps D U w := by
  induction depth generalizing ns w with
  | zero =>
    cases ns with
    | nil => exact .pure ()
    | cons n ns => exact absurd (hns n List.mem_cons_self).2.2 id
  | succ depth ih =>
    refine .forM fun n hn w' hk => .get ?_
    obtain ⟨hU, hl, hfit⟩ := hns n hn
    have hl' := Nat.lt_of_lt_of_le hl hk.inside.size
    have hfit' := hfit.inside hk.inside
    cases hs : (w'.view.node n).sort with
    | element =>
      refine .bind (s.bindAttrs_keeps hc hU hl') fun _ w₁ hk₁ => .get ?_
      refine fun hw₁ => ih (fun c hm => ⟨hw₁.closed n hU c hm, hw₁.forest.made n c hm, ?_⟩) hw₁
      obtain ⟨hd, hfits⟩ := hfit' hs
      obtain hm | hne := hk₁.inside.children n c hm
      · exact (hfits c hm).inside hk₁.inside
      · exact View.fits_of_ne hd hne
    | text => exact s.bindText_keeps hc hU hl'
    | other => exact .pure ()

end Settings

end Binding

section Update

variable {r : Ref .watcher} {m : Ref .model}

theorem Action.Keeps.usingModel {α : Type} {x : Action α}
    (hx : x.Keeps (fun _ => False) U (w.useModel m)) :
    (Action.usingModel m x).Keeps (fun _ => False) U w := by
  refine fun hw => ⟨fun hd => hd.elim, fun r w' h => ?_⟩
  have huse : w.Kept (fun _ => False) U (w.useModel m) := .of_same hw (fun hd => hd.elim) rfl rfl
  obtain ⟨⟨r', w₁⟩, hr, he⟩ := Option.map_eq_some_iff.1 h
  cases he
  have hk := (hx hw).2 r w₁ hr
  exact (huse.trans hk).trans (.of_same hk.room (fun hd => hd.elim) rfl rfl)

theorem ViewModel.check_keeps (m : Ref .model) : (ViewModel.check m).Keeps D U w := by
  refine .get ?_
  split
  · exact .pure ()
  · exact .throw _

theorem Callback.lt_of_node? (h : (w.watchers.get r).callback.node? = some n) :
    r.index < w.watchers.size := by
  by_contra hr
  rw [w.watchers.get_of_size_le (Nat.le_of_not_lt hr)] at h
  cases h

theorem Callback.perform_keeps {callback : Callback} (hr : callback.node? = some n) (hn : U n)
    (hl : n.index < w.view.nodes.size) (r : Ref .watcher) (m : Ref .model) (change : Change) :
    (callback.perform (Engine.ofFuel k) r m change).Keeps (fun _ => False) U w := by
  have hc : Computes (Engine.ofFuel k).compute fun _ => False := fun _ _ _ _ hd => hd.elim
  refine .bind (.modify fun hw => .tell hw _) fun _ _ hk₀ => ?_
  have hl := Nat.lt_of_lt_of_le hl hk₀.inside.size
  cases callback with
  | run id steps => cases hr
  | write face n' =>
    cases hr
    exact face.write_keeps hn hl _
  | render n' t =>
    cases hr
    refine .bind (ViewModel.check_keeps m) fun _ _ hk => ?_
    refine .bind (Template.render_keeps hc t m) fun text _ hk' => ?_
    exact Face.write_keeps .text hn (Nat.lt_of_lt_of_le hl (hk.trans hk').inside.size) text

theorem Watcher.update_keeps (hr : (w.watchers.get r).callback.node? = some n) (hn : U n)
    (hl : n.index < w.view.nodes.size) :
    (Watcher.update (Engine.ofFuel k) r).Keeps (fun _ => False) U w := by
  have hc : Computes (Engine.ofFuel k).compute fun _ => False := fun _ _ _ _ hd => hd.elim
  refine .get (.bind (ViewModel.check_keeps _) fun _ w₁ hk₁ => .usingModel ?_)
  refine .bind (Watcher.evaluate_keeps hc r) fun new w₂ hk₂ => .get ?_
  dsimp only
  split
  · exact .pure ()
  · have huse : w₁.Kept (fun _ => False) U (w₁.useModel (w.watchers.get r).model) :=
      .of_same hk₁.room (fun hd => hd.elim) rfl rfl
    have hk := hk₁.trans (huse.trans hk₂)
    rw [hk.callback r (Callback.lt_of_node? hr)]
    refine .bind (.modify fun hw => .remember hw r new) fun _ w₃ hk₃ => ?_
    exact Callback.perform_keeps hr hn (Nat.lt_of_lt_of_le hl (hk.trans hk₃).inside.size) _ _ _

end Update

theorem Settings.compile_unmade {root : Ref .node} (hroot : w.view.nodes.size ≤ root.index)
    (compute : Computed → Reading Value) (s : Settings) (m : Ref .model) :
    ∃ w', s.compile compute m root w = some (.ok (), w') ∧ w'.view = w.view ∧
      w'.watchers = w.watchers ∧ w'.models = w.models := by
  have hc := View.children_of_size_le hroot
  have hd : (w.view.detach root).2 = w.view := by
    rw [View.detach, hc]
    exact View.modify_of_size_le hroot _
  rw [s.compile_apply, hc, hd]
  exact ⟨_, rfl, View.modify_of_size_le hroot _, rfl, rfl⟩

/-- Binding what is below a node ends if computed properties do. Whatever it ends with, the node has
its children back, nothing but what was below it has changed, and the view is a forest, which it
stays when a binding is updated later. -/
theorem Settings.compile_restores (hv : w.view.Forest)
    (hc : Computes (Engine.ofFuel k).compute D) (hd : D w.sight) (s : Settings) (m : Ref .model)
    (root : Ref .node) :
    ∃ r w', s.compile (Engine.ofFuel k).compute m root w = some (r, w') ∧
      View.Restored root w.view w'.view ∧
      ∀ b, w.watchers.size ≤ b.index → b.index < w'.watchers.size →
        ∀ u, u.view.Forest → w'.view.nodes.size ≤ u.view.nodes.size →
          (u.watchers.get b).callback = (w'.watchers.get b).callback →
          ∀ k r u', Watcher.update (Engine.ofFuel k) b u = some (r, u') → u'.view.Forest := by
  by_cases hroot : root.index < w.view.nodes.size
  · let w₀ : World := { w with
      view := (w.view.detach root).2
      trace := w.trace.push (.showed (.detach root (w.view.children root))) }
    have hroom : w₀.view.Room (w.view.Beneath root) := hv.room_detach root
    -- While the children are bound they hang nowhere, so they are roots of what is beneath.
    have hns (n : Ref .node) (hn : n ∈ w.view.children root) : w.view.Beneath root n ∧
        n.index < w₀.view.nodes.size ∧ w₀.view.Fits (w₀.view.nodes.size + 1) n := by
      have hl : n.index < w₀.view.nodes.size :=
        Nat.lt_of_lt_of_eq (hv.made root n hn) (w.view.size_detach root).symm
      exact ⟨.inl (.single hn), hl, hroom.forest.fits hl⟩
    obtain ⟨hend, hkept⟩ := s.bindNodes_keeps hc (m := m) _ hns hroom
    obtain ⟨⟨r, w₁⟩, h₁⟩ := hend hd
    have hk := hkept r w₁ h₁
    refine ⟨r, _, (s.compile_apply m).trans (congrArg _ h₁), ?_,
      fun b hb hb' u hu hs hcb k r u' h => ?_⟩
    · exact hv.restored hroot hk.room hk.inside
    · obtain ⟨n, hn, hl⟩ := hk.bound b hb hb'
      have hl' : n.index < u.view.nodes.size :=
        Nat.lt_of_lt_of_le hl (by rwa [View.size_append] at hs)
      have hroom' : u.view.Room fun _ => True := ⟨hu, fun _ _ _ _ => trivial, fun _ _ => trivial⟩
      exact ((Watcher.update_keeps (by rw [hcb, hn]) trivial hl' hroom').2 r u' h).room.forest
  · obtain ⟨w', h, hview, hws, -⟩ :=
      s.compile_unmade (Nat.le_of_not_lt hroot) (Engine.ofFuel k).compute m
    refine ⟨_, w', h, ?_, fun b hb hb' => absurd hb' (by rw [hws]; exact Nat.not_lt.2 hb)⟩
    have hch := View.children_of_size_le (Nat.le_of_not_lt hroot)
    rw [hview]
    exact ⟨Nat.le_refl _, rfl, fun c hc => (by rw [hch] at hc; cases hc), fun _ _ _ => rfl, hv⟩

/-- A greeting that is the name. -/
def Computed.greeting : Computed := { name := "greeting", body := .get none "name", model := ⟨0⟩ }

def World.greeting : World where
  objects := ⟨#[{ slots :=
    ((∅ : Keyed Slot).insert "name" (.cell ⟨0⟩)).insert "greeting" (.computed .greeting) }]⟩
  cells := ⟨#[{ value := .string "Ann" }]⟩
  models := ⟨#[{ data := ⟨0⟩ }]⟩
  modelsInUse := [⟨0⟩]
  view := (View.create (.element "body" [] [.element "div" [] [
    .element "h1" [("directive-text", "greeting")] [.text "nobody", .comment ""],
    .element "p" [("directive-no", "name")] []], .text "end"]) {}).2

theorem World.greeting_computed {o : Ref .object} {key : String} {p : Computed}
    (h : World.greeting.sight.slot? o key = some (.computed p)) : p = .greeting := by
  obtain ⟨o⟩ := o
  cases o with
  | zero =>
    have hslot : World.greeting.sight.slot? ⟨0⟩ key = (((∅ : Keyed Slot).insert "name"
        (.cell ⟨0⟩)).insert "greeting" (.computed .greeting))[key]? := rfl
    rw [hslot, Std.ExtTreeMap.getElem?_insert, Std.ExtTreeMap.getElem?_insert] at h
    split at h
    · cases h
      rfl
    · split at h
      · cases h
      · rw [Std.ExtTreeMap.getElem?_empty] at h
        cases h
  | succ o =>
    have hslot : World.greeting.sight.slot? ⟨o + 1⟩ key = (∅ : Keyed Slot)[key]? := rfl
    rw [hslot, Std.ExtTreeMap.getElem?_empty] at h
    cases h

/-- The page is in order although one of its directives is unknown. -/
theorem Settings.compile_restores_greeting : ∃ w',
    ({} : Settings).compile (Engine.ofFuel 2).compute ⟨0⟩ ⟨4⟩ .greeting =
      some (.error (.unknownDirective "no"), w') ∧
    View.Restored ⟨4⟩ World.greeting.view w'.view := by
  have hsteady : World.greeting.sight.Steady := fun o key p h => by
    rw [World.greeting_computed h]
    exact trivial
  have hc : Computes (Engine.ofFuel 2).compute (· = World.greeting.sight) :=
    Sight.computes hsteady fun o key p h => by
      rw [World.greeting_computed h]
      decide +kernel
  obtain ⟨r, w', h, hr, -⟩ := Settings.compile_restores
    (w := .greeting) (View.Forest.create _ View.forest_empty).forest hc rfl {} ⟨0⟩ ⟨4⟩
  have hfault : (({} : Settings).compile (Engine.ofFuel 2).compute ⟨0⟩ ⟨4⟩ .greeting).map
      Prod.fst = some (.error (.unknownDirective "no")) := by decide +kernel
  rw [h] at hfault
  cases r with
  | error f =>
    cases hfault
    exact ⟨w', h, hr⟩
  | ok _ => cases hfault

end ViewBinding
