import ViewBinding.Proofs.Course.Updates

/-! Listeners, bindings and new view-models proceed in moves. -/

namespace ViewBinding

variable {P : Step → Prop} {u : Uses} {n : Nat} {w w' : World} {m : Ref .model}

theorem ViewModel.hasMethod_of_getElem? {name : String} {steps : List Step}
    (h : (w.models.get m).methods[name]? = some steps) : hasMethod w m name :=
  decide_eq_true (Std.ExtTreeMap.mem_iff_isSome_getElem?.2 (by rw [h]; rfl))

section Events

theorem Action.Proceeds.whileAlive {x : Action Unit}
    (hx : x.Proceeds P ⟨m :: u.models, u.subscribers⟩) :
    (MonadState.get >>= fun w : World =>
      if w.modelAlive m then Action.usingModel m x else Pure.pure ()).Proceeds P u := by
  intro w r w' hu hw h
  rw [Action.get_bind] at h
  by_cases hm : w.modelAlive m
  · rw [if_pos hm] at h
    exact Action.Proceeds.usingModel hu hw hm hx h
  · rw [if_neg hm] at h
    exact Action.Proceeds.pure () w r w' hu hw h

variable (he : Engine.Proceeds P (Engine.ofFuel n))
include he

theorem ViewModel.call_proceeds (hc : Callable P) (hm : m ∈ u.models) (name : String)
    (event : Event) : (ViewModel.call (Engine.ofFuel n) m name event).Proceeds P u := by
  intro w r w' hu hw h
  rw [ViewModel.call, Action.get_bind] at h
  cases hs : (w.models.get m).methods[name]? with
  | none =>
    rw [hs] at h
    exact Action.Proceeds.throw (α := Unit) _ w r w' hu hw h
  | some steps =>
    rw [hs] at h
    have hmethod := ViewModel.hasMethod_of_getElem? hs
    subst hu
    have hmove : w.Move P [.method m name event] (w.tell (.method m name event)) :=
      .method event hm hmethod
    obtain ⟨hu', hs', hc'⟩ := he { model := some m, event := some event } steps w.uses
      (fun m' h => by cases h; exact hm) (hw.methods hc m name steps hs) (w.tell _) r w' rfl
      (hmove.stored hw) h
    exact ⟨hu', _, (World.Along.single hmove).trans hc'⟩

end Events

theorem Listener.attach_proceeds (l : Listener) (node : Ref .node) :
    (l.attach node).Proceeds P u := by
  intro w r w' hu _ h
  cases h
  exact ⟨hu, _, .single (.listen w l node)⟩

section Bound

variable (hm : m ∈ u.models)
include hm

/-- A face is bound: its watcher is made first, so it is written on behalf of a binding. -/
theorem Face.bind_proceeds (face : Face) (node : Ref .node) (path : String) :
    (face.bind (Engine.ofFuel n).compute node m path).Proceeds P u := by
  intro w r w' hu _ h
  obtain ⟨g, hb, rfl⟩ | ⟨r', w₁, hb, h⟩ := Action.bind_eq_some h
  · obtain ⟨hu', hc, -⟩ := ViewModel.watch_course (P := P) (.write face node) trivial hb
    exact ⟨hu'.trans hu, hc⟩
  · obtain ⟨hu₁, ⟨hs, hc⟩, hr⟩ :=
      ViewModel.watch_course (P := P) (.write face node) trivial hb
    rw [Action.get_bind] at h
    obtain ⟨-, hcallback, hmodel⟩ := hr r' rfl
    rw [← hu₁.trans hu] at hm
    subst hmodel
    obtain ⟨hu', hs', hc'⟩ := Face.write_course (P := P) hm (.value hcallback) h
    exact ⟨(hu'.trans hu₁).trans hu, _, hc.trans hc'⟩

theorem Directive.bind_proceeds (d : Directive.Use) (value : String) (node : Ref .node) :
    (Directive.bind (Engine.ofFuel n).compute d value node m).Proceeds P u := by
  obtain ⟨directive, argument⟩ := d
  cases directive with
  | model =>
    exact .bind (Face.bind_proceeds hm .value node value) fun _ => Listener.attach_proceeds _ node
  | html => exact Face.bind_proceeds hm .html node value
  | text => exact Face.bind_proceeds hm .text node value
  | on =>
    refine .bind (.require _ argument) fun event => .get fun w _ _ => ?_
    split
    · exact Listener.attach_proceeds _ node
    · exact .bind (.throw _) fun _ => Listener.attach_proceeds _ node

omit hm in
theorem Template.paths_ne_nil {d : Delimiters} {text : String} {t : Template}
    (h : Template.parse d text = some t) : t.paths ≠ [] := by
  obtain ⟨⟨before, content, rest⟩, hs, rfl⟩ := Option.map_eq_some_iff.1 h
  rw [paths, Template.split]
  split
  · rename_i hn
    cases hs.symm.trans hn
  · simp

omit hm in
theorem Template.watch_course {t : Template} {node : Ref .node} {paths : List String}
    (hp : paths ≠ []) (hw : w.Stored P) (h : (paths.forM fun path => discard
      (ViewModel.watch (Engine.ofFuel n).compute m path (.render node t))) w = some (.ok (), w')) :
    ∃ r, (w'.watchers.get r).callback = .render node t ∧ (w'.watchers.get r).model = m := by
  obtain ⟨path, rest, rfl⟩ := List.exists_cons_of_ne_nil hp
  obtain ⟨g, -, he⟩ | ⟨_, w₁, hd, hrest⟩ := Action.bind_eq_some
    (x := discard (ViewModel.watch (Engine.ofFuel n).compute m path (.render node t))) h
  · cases he
  obtain ⟨g, -, he⟩ | ⟨r, w₂, hwatch, hd⟩ := Action.bind_eq_some
    (x := ViewModel.watch (Engine.ofFuel n).compute m path (.render node t)) hd
  · cases he
  cases hd
  obtain ⟨-, ⟨hs, hc⟩, hr⟩ := ViewModel.watch_course (P := P) (.render node t) trivial hwatch
  obtain ⟨hlt, hcallback, hmodel⟩ := hr r rfl
  have hforM : Action.Proceeds P w₁.uses (rest.forM fun path => discard
      (ViewModel.watch (Engine.ofFuel n).compute m path (.render node t))) :=
    .forM fun path _ => .map (ViewModel.watch_proceeds (.render node t) trivial n m path)
  obtain ⟨-, hs', hc'⟩ := hforM w₁ _ w' rfl (World.Course.stored hc hw) hrest
  obtain ⟨-, hcallback', hmodel'⟩ := World.Course.same_watcher hc' hlt
  exact ⟨r, hcallback'.trans hcallback, hmodel'.trans hmodel⟩

theorem Template.bind_proceeds {t : Template} (ht : t.paths ≠ []) (node : Ref .node) :
    (t.bind (Engine.ofFuel n).compute node m).Proceeds P u := by
  have hforM : Action.Proceeds P u (t.paths.forM fun path => discard
      (ViewModel.watch (Engine.ofFuel n).compute m path (.render node t))) :=
    .forM fun path _ => .map (ViewModel.watch_proceeds (.render node t) trivial n m path)
  intro w r w' hu hw h
  obtain ⟨g, hd, rfl⟩ | ⟨_, w₁, hd, h⟩ := Action.bind_eq_some h
  · exact hforM w _ w' hu hw hd
  · obtain ⟨hu₁, hs, hc⟩ := hforM w _ w₁ hu hw hd
    obtain ⟨r', hcallback, hmodel⟩ := Template.watch_course ht hw hd
    subst hu₁
    obtain ⟨hu', hs', hc'⟩ := Template.render_course (P := P) hm hcallback hmodel h
    exact ⟨hu', _, hc.trans hc'⟩

namespace Settings

variable (s : Settings)

theorem bindAttrs_proceeds (node : Ref .node) :
    (s.bindAttrs (Engine.ofFuel n).compute node m).Proceeds P u := by
  refine .get fun w _ _ => .forM fun attr _ => .bind (.ofExcept _) fun d? => ?_
  cases d? with
  | none => exact .pure ()
  | some d => exact Directive.bind_proceeds hm d _ node

theorem bindText_proceeds (node : Ref .node) :
    (s.bindText (Engine.ofFuel n).compute node m).Proceeds P u := by
  refine .get fun w _ _ => ?_
  split
  · exact Template.bind_proceeds hm (Template.paths_ne_nil ‹_›) node
  · exact .pure ()

theorem bindNodes_proceeds (depth : Nat) (nodes : List (Ref .node)) :
    (s.bindNodes (Engine.ofFuel n).compute m depth nodes).Proceeds P u := by
  induction depth generalizing nodes with
  | zero =>
    unfold bindNodes
    split
    · exact .pure ()
    · exact .unfinished
  | succ depth ih =>
    refine .forM fun node _ => .get fun w _ _ => ?_
    split
    · exact .bind (s.bindAttrs_proceeds hm node) fun _ => .get fun _ _ _ => ih _
    · exact s.bindText_proceeds hm node
    · exact .pure ()

theorem compile_proceeds (root : Ref .node) :
    (s.compile (Engine.ofFuel n).compute m root).Proceeds P u := by
  refine .bind (.modifyGet (fun _ => rfl) fun w _ _ => ⟨_, .edit (.detach root)⟩) fun children => ?_
  refine .bind (.emit trivial) fun _ => .get fun w _ _ => ?_
  refine .bind (.faultOf (s.bindNodes_proceeds hm _ children)) fun outcome => ?_
  refine .bind (.emit trivial) fun _ => .bind (.modify (fun _ => rfl) fun w _ _ =>
    ⟨_, .edit (.append root children)⟩) fun _ => ?_
  cases outcome with
  | none => exact .pure ()
  | some f => exact .throw f

end Settings

end Bound

namespace World

theorem uses_define (w : World) (data : Ref .object) (m : Ref .model)
    (computed : List (String × Expr)) : (w.define data m computed).uses = w.uses := by
  induction computed generalizing w with
  | nil => rfl
  | cons c computed ih => exact ih _

theorem define_course (w : World) (data : Ref .object) (m : Ref .model)
    {computed : List (String × Expr)} (hc : computed ≠ [] → Definable P) :
    ∃ hs, w.Course P hs (w.define data m computed) := by
  induction computed generalizing w with
  | nil => exact ⟨[], .nil w⟩
  | cons c computed ih =>
    have hp : Definable P := hc (List.cons_ne_nil c computed)
    have hmove := Move.define (w := w) data { name := c.1, body := c.2, model := m } hp
    obtain ⟨hs, h⟩ := ih (w.setComputed data { name := c.1, body := c.2, model := m }) fun _ => hp
    exact ⟨_, (Along.single hmove).trans h⟩

end World

end ViewBinding
