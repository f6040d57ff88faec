import ViewBinding.Proofs.Relics.Spared
import ViewBinding.Proofs.Run.Bindings

/-! Binding a view leaves alone the data that was there. It makes watchers, which register for what
they read, and shows values, however it ends. -/

namespace ViewBinding

variable {α β : Type} {b v v' w : World} {n : Nat} {m : Ref .model}

namespace Action.Spares

variable {x : Action α}

theorem pure (a : α) : (Pure.pure a : Action α).Spares b m := by
  intro v r v' hv h
  cases h
  exact hv

theorem throw (f : Fault) : (MonadExcept.throw f : Action α).Spares b m := by
  intro v r v' hv h
  cases h
  exact hv

theorem unfinished : (Action.unfinished : Action α).Spares b m := fun _ _ _ _ h => nomatch h

theorem ofExcept (r : Except Fault α) : (MonadExcept.ofExcept r : Action α).Spares b m := by
  cases r with
  | error f => exact throw f
  | ok a => exact pure a

theorem require (f : Fault) (a? : Option α) : (Action.require f a?).Spares b m := by
  cases a? with
  | none => exact throw f
  | some a => exact pure a

theorem bind {f : α → Action β} (hx : x.Spares b m) (hf : ∀ a, (f a).Spares b m) :
    (x >>= f).Spares b m := by
  intro v r v' hv h
  obtain ⟨g, hg, rfl⟩ | ⟨a, v₁, ha, h⟩ := bind_eq_some h
  · exact hx _ _ _ hv hg
  · exact hf a _ _ _ (hx _ _ _ hv ha) h

theorem map {f : α → β} (hx : x.Spares b m) : (f <$> x).Spares b m := by
  rw [← bind_pure_comp]
  exact bind hx fun a => pure (f a)

theorem get {f : World → Action α} (h : ∀ w, (f w).Spares b m) :
    (MonadState.get >>= f : Action α).Spares b m := fun v => h v v

theorem view {f : View → α × View} :
    (MonadState.modifyGet fun w => ((f w.view).1, { w with view := (f w.view).2 }) :
      Action α).Spares b m := by
  intro v r v' hv h
  cases h
  exact hv.view _

theorem tell (x : Happening) : (Action.tell x).Spares b m := by
  intro v r v' hv h
  cases h
  exact hv.tell x

theorem faultOf {x : Action Unit} (hx : x.Spares b m) : x.faultOf.Spares b m := by
  intro v r v' hv h
  rw [faultOf_apply, Option.bind_eq_some_iff] at h
  obtain ⟨⟨r', v₁⟩, hr, h⟩ := h
  have hv' := hx _ _ _ hv hr
  cases r' <;> cases h <;> exact hv'

theorem forM {l : List α} {f : α → Action Unit} (hf : ∀ a, (f a).Spares b m) :
    (l.forM f).Spares b m := by
  induction l with
  | nil => exact pure ()
  | cons a l ih => exact bind (hf a) fun _ => ih

theorem mapM {l : List α} {f : α → Action β} (hf : ∀ a, (f a).Spares b m) :
    (l.mapM f).Spares b m := by
  induction l with
  | nil => exact pure []
  | cons a l ih =>
    rw [List.mapM_cons]
    exact bind (hf a) fun _ => bind ih fun _ => pure _

theorem once {x : Reading α} (hx : x.Spares b m) : x.once.Spares b m := by
  intro v r v' hv h
  rw [Reading.once_eq_map, Option.map_eq_some_iff] at h
  obtain ⟨⟨⟨r', e'⟩, v₁⟩, hr, he⟩ := h
  cases he
  exact (hx _ _ _ _ _ hv (fun s hs => by cases hs) hr).1

end Action.Spares

theorem Face.write_spares (face : Face) (node : Ref .node) (text : String) :
    (face.write m node text).Spares b m :=
  .bind (.tell _) fun _ => .view (f := fun view => ((), view.write face node text))

theorem Listener.attach_spares (l : Listener) (node : Ref .node) : (l.attach node).Spares b m :=
  .bind (.tell _) fun _ => .view (f := fun view => ((), view.listen node l))

section

variable {compute : Computed → Reading Value} (hc : ∀ p, (compute p).Spares b m)

include hc

theorem Template.render_spares (t : Template) :
    (t.render compute m).Spares b m := by
  refine .bind (.mapM fun segment => ?_) fun _ => .pure _
  cases segment with
  | literal text => exact .pure text
  | path path => exact .bind (.once (.model hc m path)) fun _ => .pure _

theorem Watcher.evaluate_spares {r : Ref .watcher} {res : Except Fault Value}
    (hv : b.Spared m v) (hr : r.Between b.watchers.size v.watchers.size)
    (h : evaluate compute r v = some (res, v')) :
    b.Spared m v' ∧ v'.watchers.size = v.watchers.size := by
  obtain ⟨⟨res', v₁⟩, hread, he⟩ := Option.bind_eq_some_iff.1 h
  obtain ⟨⟨⟨res', e'⟩, v₂⟩, hread, hp⟩ := Option.map_eq_some_iff.1 hread
  cases hp
  obtain ⟨hv', -, hsize⟩ := Reading.Spares.follow hc _ _ _ _ _ _ _ _ hv
    (fun s hs => by cases hs; exact hr) hread
  cases res' <;> cases he <;> exact ⟨hv', hsize⟩

theorem Watcher.create_spares (path : String) (callback : Callback) :
    (Watcher.create compute m path callback).Spares b m := by
  refine .bind (.ofExcept _) fun p v r v' hv h => ?_
  rw [Action.get_bind, Action.modify_bind] at h
  obtain ⟨hadd, hr⟩ := hv.addWatcher { model := m, path := p, callback }
  obtain ⟨g, hg, rfl⟩ | ⟨u, v₁, hu, h⟩ := Action.bind_eq_some h
  · exact (evaluate_spares hc hadd hr hg).1
  · cases h
    obtain ⟨hv₁, hsize⟩ := evaluate_spares hc hadd hr hu
    exact (hv₁.remember (hsize ▸ hr) u).tell _

theorem ViewModel.watch_spares (path : String) (callback : Callback) :
    (ViewModel.watch compute m path callback).Spares b m := by
  refine .bind (Watcher.create_spares hc path callback) fun r v _ v' hv h => ?_
  cases h
  exact hv.keepWatcher r

theorem Face.bind_spares (face : Face) (node : Ref .node) (path : String) :
    (face.bind compute node m path).Spares b m :=
  .bind (ViewModel.watch_spares hc path _) fun _ => .get fun _ => Face.write_spares face node _

theorem Directive.bind_spares (u : Directive.Use) (value : String) (node : Ref .node) :
    (Directive.bind compute u value node m).Spares b m := by
  obtain ⟨directive, argument⟩ := u
  cases directive with
  | model =>
    exact .bind (Face.bind_spares hc .value node value) fun _ => Listener.attach_spares _ node
  | html => exact Face.bind_spares hc .html node value
  | text => exact Face.bind_spares hc .text node value
  | on =>
    refine .bind (.require _ argument) fun event => .get fun w => ?_
    split
    · exact Listener.attach_spares _ node
    · exact .bind (.throw _) fun _ => Listener.attach_spares _ node

theorem Template.bind_spares (t : Template) (node : Ref .node) :
    (t.bind compute node m).Spares b m :=
  .bind (.forM fun path => .map (ViewModel.watch_spares hc path _)) fun _ =>
    .bind (Template.render_spares hc t) fun _ => Face.write_spares .text node _

namespace Settings

variable (s : Settings)

theorem bindAttrs_spares (node : Ref .node) :
    (s.bindAttrs compute node m).Spares b m := by
  refine .get fun _ => .forM fun attr => .bind (.ofExcept _) fun u? => ?_
  cases u? with
  | none => exact .pure ()
  | some u => exact Directive.bind_spares hc u _ node

theorem bindText_spares (node : Ref .node) :
    (s.bindText compute node m).Spares b m := by
  refine .get fun _ => ?_
  split
  · exact Template.bind_spares hc _ node
  · exact .pure ()

theorem bindNodes_spares (depth : Nat) (nodes : List (Ref .node)) :
    (s.bindNodes compute m depth nodes).Spares b m := by
  induction depth generalizing nodes with
  | zero =>
    rw [bindNodes]
    split
    · exact .pure ()
    · exact .unfinished
  | succ depth ih =>
    refine .forM fun node => .get fun w => ?_
    split
    · exact .bind (s.bindAttrs_spares hc node) fun _ => .get fun _ => ih _
    · exact s.bindText_spares hc node
    · exact .pure ()

theorem compile_spares (root : Ref .node) :
    (s.compile compute m root).Spares b m := by
  refine .bind (.view (f := (·.detach root))) fun children => .bind (.tell _) fun _ => ?_
  refine .get fun w => .bind (.faultOf (s.bindNodes_spares hc _ children)) fun outcome => ?_
  refine .bind (.tell _) fun _ =>
    .bind (.view (f := fun view => ((), view.append root children))) fun _ => ?_
  cases outcome with
  | none => exact .pure ()
  | some f => exact .throw f

end Settings

end

end ViewBinding
