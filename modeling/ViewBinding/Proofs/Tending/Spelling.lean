import ViewBinding.Proofs.Mount.Mounting
import ViewBinding.Proofs.Tending.Steps

/-! Only text nodes are bound to templates. A text node takes the text itself, so it always has a
place for what its template renders. -/

namespace ViewBinding

variable {w w' w'' : World} {n : Ref .node} {m : Ref .model} {k : Nat} {f : Frame}

theorem View.sort_detach (v : View) (root n : Ref .node) :
    ((v.detach root).2.node n).sort = (v.node n).sort :=
  (View.moved_setParent _ none (v.children root) n).sort.trans (v.sort_modify root n fun _ => rfl)

theorem View.sort_append (v : View) (root n : Ref .node) (ns : List (Ref .node)) :
    ((v.append root ns).node n).sort = (v.node n).sort := by
  refine (sort_modify _ root n ?_).trans (moved_setParent v (some root) ns n).sort
  exact fun _ => rfl

namespace World

/-- A change after which text nodes are text nodes still, and all watchers of templates that are new
are for text nodes. -/
structure Spells (w w' : World) : Prop where
  texts : ∀ n, (w.view.node n).sort = .text → (w'.view.node n).sort = .text
  templates : ∀ r n t, (w'.watchers.get r).callback = .render n t →
    (w.watchers.get r).callback = .render n t ∨ (w'.view.node n).sort = .text

namespace Spells

theorem of_watchers (hw : w'.watchers = w.watchers)
    (hv : ∀ n, (w.view.node n).sort = .text → (w'.view.node n).sort = .text) : w.Spells w' := by
  refine ⟨hv, fun r n t hr => ?_⟩
  rw [hw] at hr
  exact .inl hr

theorem still (hw : w'.watchers = w.watchers) (hv : w'.view = w.view) : w.Spells w' :=
  of_watchers hw fun n hn => by rwa [hv]

theorem trans (h : w.Spells w') (h' : w'.Spells w'') : w.Spells w'' where
  texts n hn := h'.texts n (h.texts n hn)
  templates r n t hr := by
    obtain hr' | hs := h'.templates r n t hr
    · exact (h.templates r n t hr').imp_right (h'.texts n)
    · exact .inr hs

theorem sort_of_size_le (h : w.Spells w') {r : Ref .watcher} {t : Template}
    (hr : w.watchers.size ≤ r.index) (hc : (w'.watchers.get r).callback = .render n t) :
    (w'.view.node n).sort = .text := by
  refine (h.templates r n t hc).resolve_left fun hold => ?_
  rw [w.watchers.get_of_size_le hr] at hold
  cases hold

end Spells

end World

open World

namespace Action

variable {α β : Type} {x : Action α}

def Spells (w : World) (x : Action α) : Prop :=
  ∀ a w', x w = some (.ok a, w') → w.Spells w'

theorem Glances.spells (hx : x.Glances) : x.Spells w := by
  intro a w' h
  obtain ⟨hs, hg⟩ := hx w _ w' h
  have hf := World.Glances.sameFrame hg
  exact .still hf.watchers hf.view

namespace Spells

theorem pure (a : α) : (Pure.pure a : Action α).Spells w := (Glances.pure a).spells

theorem throw (f : Fault) : (MonadExcept.throw f : Action α).Spells w := (Glances.throw f).spells

theorem unfinished : (Action.unfinished : Action α).Spells w := by
  intro a w' h
  cases h

theorem get {f : World → Action α} (h : (f w).Spells w) :
    (MonadState.get >>= f : Action α).Spells w := h

theorem bind {f : α → Action β} (hx : x.Spells w)
    (hf : ∀ a w', w.Spells w' → (f a).Spells w') : (x >>= f).Spells w := by
  intro b w'' h
  obtain ⟨g, -, he⟩ | ⟨a, w', ha, h⟩ := bind_eq_some h
  · cases he
  · have hw := hx a w' ha
    exact hw.trans (hf a w' hw b w'' h)

theorem discard (hx : x.Spells w) : (Functor.discard x).Spells w := by
  have he : Functor.discard x = x >>= fun _ => Pure.pure () := (bind_pure_comp _ x).symm
  rw [he]
  exact bind hx fun _ _ _ => pure ()

theorem forM {l : List β} {f : β → Action Unit}
    (hf : ∀ b ∈ l, ∀ w', w.Spells w' → (f b).Spells w') : (l.forM f).Spells w := by
  induction l generalizing w with
  | nil => exact pure ()
  | cons b l ih =>
    refine bind (hf b List.mem_cons_self w (.still rfl rfl)) fun _ w' hw => ih ?_
    intro c hc w'' hw'
    exact hf c (List.mem_cons_of_mem b hc) w'' (hw.trans hw')

end Spells

end Action

theorem ViewModel.watch_spells {callback : Callback} (path : String)
    (hc : ∀ n t, callback = .render n t → (w.view.node n).sort = .text) :
    (ViewModel.watch (Engine.ofFuel k).compute m path callback).Spells w := by
  intro r w' h
  obtain ⟨g, -, he⟩ | ⟨r', w₁, hcreate, h⟩ := Action.bind_eq_some h
  · cases he
  have hevery : callback.Every fun _ => True := by
    cases callback with
    | run id steps => exact Step.everyAll_of_forall (fun _ => trivial) steps
    | _ => trivial
  obtain ⟨-, ⟨⟨g, he⟩, -⟩ | ⟨p, hs, v, -, hmake⟩⟩ := Watcher.create_cases callback hevery hcreate
  · cases he
  have hview : w₁.view = w.view := hmake.frame.2.2.2
  have hmade : w.Spells w₁ := by
    refine ⟨fun n hn => by rwa [hview], fun r n t hr => ?_⟩
    by_cases hl : r.index < w.watchers.size
    · rw [hmake.get_watcher hl] at hr
      exact .inl hr
    · have hshows : (w₁.watchers.get r).callback.shows? ≠ none := by
        rw [hr]
        exact Option.some_ne_none _
      obtain rfl := hmake.eq_fresh (Nat.le_of_not_lt hl) (made_of_shows hshows)
      rw [hmake.fresh.1] at hr
      rw [hview]
      exact .inr (hc n t hr)
  cases h
  exact hmade.trans (.still rfl rfl)

theorem Face.write_spells (face : Face) (n : Ref .node) (text : String) :
    (face.write m n text).Spells w := by
  intro a w' h
  cases h
  refine .of_watchers rfl fun n' hn' => ?_
  have hlt := View.lt_of_sort (v := w.view) (n := n') (by rw [hn']; decide)
  exact (View.sort_write hlt face n text).trans hn'

theorem Listener.attach_spells (l : Listener) (n : Ref .node) : (l.attach n).Spells w := by
  intro a w' h
  cases h
  refine .of_watchers rfl fun n' hn' => (View.sort_modify w.view n n' ?_).trans hn'
  exact fun _ => rfl

theorem Face.bind_spells (face : Face) (n : Ref .node) (path : String) :
    (face.bind (Engine.ofFuel k).compute n m path).Spells w :=
  .bind (ViewModel.watch_spells path fun _ _ h => nomatch h) fun _ _ _ =>
    .get (Face.write_spells face n _)

theorem Directive.bind_spells (u : Directive.Use) (value : String) (n : Ref .node) :
    (Directive.bind (Engine.ofFuel k).compute u value n m).Spells w := by
  obtain ⟨directive, argument⟩ := u
  cases directive with
  | model => exact .bind (Face.bind_spells .value n value) fun _ _ _ => Listener.attach_spells _ n
  | html => exact Face.bind_spells .html n value
  | text => exact Face.bind_spells .text n value
  | on =>
    refine .bind (Action.Glances.require _ argument).spells fun event w' _ => .get ?_
    split
    · exact Listener.attach_spells _ n
    · exact .bind (.throw _) fun _ _ _ => Listener.attach_spells _ n

theorem Template.bind_spells (t : Template) (hn : (w.view.node n).sort = .text) :
    (t.bind (Engine.ofFuel k).compute n m).Spells w := by
  refine .bind (.forM fun path _ w' hw => .discard (ViewModel.watch_spells path ?_)) fun _ w' _ =>
    .bind (Template.render_glances k t m).spells fun text _ _ => Face.write_spells .text n text
  intro n' t' h
  cases h
  exact hw.texts n hn

namespace Settings

variable (s : Settings)

theorem bindAttrs_spells (n : Ref .node) :
    (s.bindAttrs (Engine.ofFuel k).compute n m).Spells w := by
  refine .get (.forM fun attr _ w' _ => .bind (Action.Glances.ofExcept _).spells fun u? _ _ => ?_)
  cases u? with
  | none => exact .pure ()
  | some u => exact Directive.bind_spells u attr.2 n

theorem bindText_spells (hn : (w.view.node n).sort = .text) :
    (s.bindText (Engine.ofFuel k).compute n m).Spells w := by
  refine .get ?_
  split
  · exact Template.bind_spells _ hn
  · exact .pure ()

theorem bindNodes_spells (depth : Nat) (ns : List (Ref .node)) :
    (s.bindNodes (Engine.ofFuel k).compute m depth ns).Spells w := by
  induction depth generalizing w ns with
  | zero =>
    unfold bindNodes
    split
    · exact .pure ()
    · exact .unfinished
  | succ depth ih =>
    refine .forM fun n _ w' _ => .get ?_
    -- The text of a node is read only where the node is a text node.
    cases hn : (w'.view.node n).sort with
    | element => exact .bind (s.bindAttrs_spells n) fun _ _ _ => .get (ih _)
    | text => exact s.bindText_spells hn
    | other => exact .pure ()

theorem compile_spells (root : Ref .node) :
    (s.compile (Engine.ofFuel k).compute m root).Spells w := by
  intro a w' h
  rw [s.compile_apply m] at h
  obtain ⟨⟨r, w₁⟩, h₁, he⟩ := Option.map_eq_some_iff.1 h
  cases he
  have hbound := s.bindNodes_spells _ _ a w₁ h₁
  refine ⟨fun n hn => ?_, fun r n t hr => ?_⟩
  · rw [View.sort_append]
    exact hbound.texts n ((View.sort_detach w.view root n).trans hn)
  · rw [View.sort_append]
    exact hbound.templates r n t hr

end Settings

namespace Script

theorem nameModel_spells (name : Option String) (m : Ref .model) :
    (nameModel name m).Spells w := fun _ _ h => by
  cases h
  exact .still rfl rfl

theorem findNode_spells (i : Nat) : (findNode i).Spells w := fun _ _ h => by
  obtain ⟨known, hk⟩ := findNode_apply i w
  obtain rfl := (Prod.mk.inj (Option.some.inj (hk.symm.trans h))).2
  exact .still rfl rfl

theorem mountAt_spells (point : MountPoint) (s : Setup) (settings : Settings)
    (name : Option String) : (ViewModel.mount (Engine.ofFuel k).compute point s settings
      (nameModel name)).Spells w := by
  have hnew (root : Ref .node) (w' : World) :
      (ViewModel.create s >>= fun m => Action.usingModel m
        (settings.compile (Engine.ofFuel k).compute m root >>= fun _ => nameModel name m) >>=
          fun _ => Pure.pure m).Spells w' := by
    refine .bind (fun m w'' h => ?_) fun m w'' _ => .bind (fun a w₃ h => ?_) fun _ _ _ => .pure m
    · obtain ⟨hwatchers, hview⟩ := create_still h
      exact .still hwatchers hview
    · rw [Action.usingModel_apply] at h
      obtain ⟨⟨r, w₄⟩, h₄, he⟩ := Option.map_eq_some_iff.1 h
      cases he
      have hused : w''.Spells (w''.useModel m) := .still rfl rfl
      have hcompiled : (w''.useModel m).Spells w₄ :=
        Action.Spells.bind (settings.compile_spells root) (fun _ _ _ => nameModel_spells name m)
          a w₄ h₄
      exact (hused.trans hcompiled).trans (.still rfl rfl)
  cases point with
  | node root => exact .bind (.pure root) fun root w' _ => hnew root w'
  | selector text =>
    exact .get (.bind (Action.Glances.require _ _).spells fun root w' _ => hnew root w')

theorem mount_spells (name : Option String) (target : Target) (data : Option Expr)
    (computed : List (String × Expr)) (methods : List (String × List Step))
    (settings : Settings) :
    (mount (Engine.ofFuel k) f name target data computed methods settings).Spells w := by
  refine .bind (setup_glances data computed methods).spells fun s w₁ _ => ?_
  have hmount (point : MountPoint) (w₂ : World) :
      (ViewModel.mount (Engine.ofFuel k).compute point s settings (nameModel name) >>= fun m =>
        watcherCount m >>= fun i => Pure.pure (Answer.watchers i)).Spells w₂ :=
    .bind (mountAt_spells point s settings name) fun _ _ _ => .get (.pure _)
  cases target with
  | selector text => exact hmount (.selector text) w₁
  | node i =>
    refine .bind (fun point w₂ h => ?_) fun point w₂ _ => hmount point w₂
    rw [← bind_pure_comp] at h
    exact Action.Spells.bind (findNode_spells i) (fun _ _ _ => .pure _) point w₂ h

end Script

end ViewBinding
