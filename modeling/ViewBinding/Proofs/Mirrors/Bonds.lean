import ViewBinding.Proofs.Forests.Compile
import ViewBinding.Proofs.Mirrors.Updates

/-! Bindings in a part of a forest. Each face that is bound shows what its new watcher saw, and goes
on to do so while the rest of the part is bound. -/

namespace ViewBinding

open Action.Draws World

variable {S : Step → Prop} {U : Ref .node → Prop} {T T' : Arrays} {w w' w'' : World}
  {n : Ref .node} {ns : List (Ref .node)} {m : Ref .model} {k : Nat} {A A' : Prop}

namespace World

/-- A part of the view is bound: only there the view has changed, and each new watcher of a face is
the binding of a face there. -/
structure Bonded (U : Ref .node → Prop) (w w' : World) : Prop where
  kept : w.Kept (fun _ => False) U w'
  presents : ∀ r face n, w.watchers.size ≤ r.index →
    (w'.watchers.get r).callback = .write face n →
      ∃ ns, (∀ c ∈ n :: ns, U c) ∧ w'.Presents r face n ns

namespace Bonded

theorem of_kept (h : w.Kept (fun _ => False) U w')
    (hn : ∀ r face n, w.watchers.size ≤ r.index → (w'.watchers.get r).callback ≠ .write face n) :
    w.Bonded U w' := ⟨h, fun r face n hr hc => absurd hc (hn r face n hr)⟩

theorem of_watchers (h : w.Kept (fun _ => False) U w') (hw : w'.watchers = w.watchers) :
    w.Bonded U w' := by
  refine of_kept h fun r face n hr hc => ?_
  rw [hw, Store.get_of_size_le _ hr] at hc
  cases hc

theorem refl (hw : w.view.Room U) : w.Bonded U w := of_watchers (.refl hw) rfl

theorem trans (h : w.Bonded U w') (h' : w'.Bonded U w'') (hd : w'.Dabs w'') : w.Bonded U w'' := by
  refine ⟨h.kept.trans h'.kept, fun r face n hr hc => ?_⟩
  by_cases hr' : r.index < w'.watchers.size
  · rw [(hd.watcher hr').2.1] at hc
    obtain ⟨ns, hns, hb⟩ := h.presents r face n hr hc
    exact ⟨ns, hns, hb.dabs hd⟩
  · exact h'.presents r face n (Nat.le_of_not_lt hr') hc

end Bonded

structure Plot (U : Ref .node → Prop) (m : Ref .model) (ns : List (Ref .node)) (w : World) :
    Prop where
  room : w.view.Room U
  model : m.index < w.models.size
  inside : ∀ n ∈ ns, U n
  made : ∀ n ∈ ns, n.index < w.view.nodes.size

theorem Plot.bonded (h : w.Plot U m ns) (hb : w.Bonded U w') (hd : w.Dabs w') :
    w'.Plot U m ns where
  room := hb.kept.room
  model := Nat.lt_of_lt_of_le h.model hd.models
  inside := h.inside
  made n hn := Nat.lt_of_lt_of_le (h.made n hn) hb.kept.inside.size

theorem Watched.eq_of_shows {callback : Callback} {r r' : Ref .watcher}
    (h : w.Watched m callback r w') (hr : w.watchers.size ≤ r'.index)
    (hs : (w'.watchers.get r').callback.shows? ≠ none) : r' = r := by
  have hl := made_of_shows hs
  rw [h.size] at hl
  have hi : r'.index = w.watchers.size := by omega
  rw [h.fresh]
  cases r'
  exact congrArg Ref.mk hi

end World

variable (S U A) in
def Action.Bonds {α : Type} (T : Arrays) (w : World) (x : Action α) : Prop :=
  Action.Draws S (fun _ => False) T w x fun _ _ w' => A → w.Bonded U w'

namespace Action.Bonds

variable {α β : Type} {x : Action α}

theorem imp (h : x.Bonds S U A T w) (hA : A' → A) : x.Bonds S U A' T w := fun r w' hr =>
  (h r w' hr).imp fun _ h => ⟨h.1, fun a ha hA' => h.2 a ha (hA hA')⟩

theorem pure (hw : w.Told S T) (hr : A → w.view.Room U) (a : α) :
    (Pure.pure a : Action α).Bonds S U A T w :=
  Draws.pure hw fun hA => .refl (hr hA)

theorem get {f : World → Action α} (h : (f w).Bonds S U A T w) :
    (MonadState.get >>= f : Action α).Bonds S U A T w := h

theorem after (h : x.Bonds S U A' T' w') (hA : A → A' ∧ w.Bonded U w') :
    Action.Draws S (fun _ => False) T' w' x fun _ _ w'' => A → w.Bonded U w'' := by
  intro r w'' hr
  obtain ⟨T'', hd, hq⟩ := h r w'' hr
  refine ⟨T'', hd, fun a ha hAw => ?_⟩
  obtain ⟨h', hb⟩ := hA hAw
  exact hb.trans (hq a ha h') (.of_strokes hd.strokes)

theorem bind {f : α → Action β} (hx : x.Bonds S U A T w)
    (hf : ∀ a T' w', Drawn S (fun _ => False) T w T' w' →
      (f a).Bonds S U (A ∧ w.Bonded U w') T' w') : (x >>= f).Bonds S U A T w :=
  Draws.bind hx fun a T' w' hd hb => (hf a T' w' hd).after fun hA => ⟨⟨hA, hb hA⟩, hb hA⟩

theorem forM {l : List β} {f : β → Action Unit} (hw : w.Told S T) (hr : A → w.view.Room U)
    (hf : ∀ b ∈ l, ∀ T' w', Drawn S (fun _ => False) T w T' w' →
      (f b).Bonds S U (A ∧ w.Bonded U w') T' w') : (l.forM f).Bonds S U A T w := by
  induction l generalizing T w A with
  | nil => exact .pure hw hr ()
  | cons b l ih =>
    refine .bind ((hf b List.mem_cons_self T w (.refl hw)).imp fun hA => ⟨hA, .refl (hr hA)⟩)
      fun _ T₁ w₁ hd₁ => ?_
    refine ih hd₁.told (fun hA => hA.2.kept.room) fun c hc T₂ w₂ hd₂ => ?_
    refine (hf c (List.mem_cons_of_mem b hc) T₂ w₂ (hd₁.trans hd₂)).imp fun hA => ⟨hA.1.1, ?_⟩
    exact hA.1.2.trans hA.2 (.of_strokes hd₂.strokes)

end Action.Bonds

section Binding

theorem computes_false (compute : Computed → Reading Value) : Computes compute fun _ => False :=
  fun _ _ _ _ hd => hd.elim

theorem Listener.attach_bonds (hw : w.Told S T) (l : Listener) :
    (l.attach n).Bonds S U (w.Plot U m [n]) T w := by
  intro r w' h
  have hk := fun hs : w.Plot U m [n] =>
    (Listener.attach_keeps (D := fun _ => False) (hs.inside n List.mem_cons_self) l hs.room).2 r w'
      h
  cases h
  have hemit : (w.emit (.listen n l.event)).Told S T := (Aside.tell w _).told hw
  exact ⟨T, .stroke (hemit.view _) (.dab (.listen l n)), fun _ _ hs => .of_watchers (hk hs) rfl⟩

theorem Face.bind_bonds (hw : w.Told S T) (face : Face) (path : String) :
    (face.bind (Engine.ofFuel k).compute n m path).Bonds S U
      (w.Plot U m [n] ∧ (w.view.node n).sort = .element) T w := by
  intro res w' h
  have hk := fun hs : w.Plot U m [n] => (Face.bind_keeps (computes_false _) face
    (hs.inside n List.mem_cons_self) (hs.made n List.mem_cons_self) path hs.room).2 res w' h
  have hc : (Callback.write face n).Every S := trivial
  obtain ⟨g, hb, rfl⟩ | ⟨r, w₁, hb, h⟩ := Action.bind_eq_some h
  · obtain ⟨T', hd, -⟩ := ViewModel.watch_draws (P := fun _ => False) hw path hc _ _ hb
    exact ⟨T', hd, fun _ he => nomatch he⟩
  · obtain ⟨T', hd, hq⟩ := ViewModel.watch_draws (P := fun _ => False) hw path hc _ _ hb
    obtain ⟨hr, hkept⟩ := hq r rfl
    let text := (w₁.watchers.get r).value.text
    have hemit : (w₁.tell (.wrote (w₁.watchers.get r).model face n text)).Told S T' :=
      (Aside.tell w₁ _).told hd.told
    rw [← hr.model] at h
    cases h
    refine ⟨T', hd.trans (.stroke (hemit.view _) (.dab (.write hr.callback))),
      fun _ _ hs => ⟨hk hs.1, fun r' face' n' hr' hc => ?_⟩⟩
    obtain ⟨hs, he⟩ := hs
    have hc' : (w₁.watchers.get r').callback = .write face' n' := hc
    obtain rfl : r' = r := hr.eq_of_shows hr' (by rw [hc']; exact Option.some_ne_none _)
    obtain ⟨rfl, rfl⟩ : face = face' ∧ n = n' := Callback.write.inj (hr.callback.symm.trans hc')
    have hforest : w₁.view.Forest := hr.view ▸ hs.room.forest
    have hl : n.index < w₁.view.nodes.size := hr.view ▸ hs.made n List.mem_cons_self
    have he₁ : (w₁.view.node n).sort = .element := hr.view ▸ he
    obtain ⟨ns, hdisplays, hchildren⟩ := View.Displays.write_forest hforest face hl he₁ text
    have hU := hs.inside n List.mem_cons_self
    refine ⟨ns, List.forall_mem_cons.2 ⟨hU, fun c hcs => ?_⟩, made_of_shows ?_, hc', ?_, text,
      hdisplays, fun _ => rfl⟩
    · exact (hk hs).room.closed n hU c (hchildren c hcs)
    · rw [hc]
      exact Option.some_ne_none _
    · show r' ∈ (w₁.models.get (w₁.watchers.get r').model).watchers
      rw [hr.model]
      exact hkept hs.model

theorem Directive.bind_bonds (hw : w.Told S T) (u : Directive.Use) (value : String) :
    (Directive.bind (Engine.ofFuel k).compute u value n m).Bonds S U
      (w.Plot U m [n] ∧ (w.view.node n).sort = .element) T w := by
  obtain ⟨directive, argument⟩ := u
  cases directive with
  | model =>
    refine .bind (Face.bind_bonds hw .value value) fun _ T' w' hd => ?_
    exact (Listener.attach_bonds hd.told _).imp fun h => h.1.1.bonded h.2 (.of_strokes hd.strokes)
  | html => exact Face.bind_bonds hw .html value
  | text => exact Face.bind_bonds hw .text value
  | on =>
    refine Action.Draws.bind (require hw _ (Q := fun _ _ w' => w' = w) fun _ _ => rfl)
      fun event T' w' hd he => .get ?_
    subst he
    split
    · exact (Listener.attach_bonds hd.told _).imp And.left
    · intro r w'' h
      cases h
      exact ⟨_, .refl hd.told, fun _ he => nomatch he⟩

theorem ViewModel.watch_bonds (hw : w.Told S T) (t : Template) (path : String) :
    Action.Draws S (fun _ => False) T w
      (ViewModel.watch (Engine.ofFuel k).compute m path (.render n t)) fun r _ w' =>
        ((w'.watchers.get r).callback = .render n t ∧ (w'.watchers.get r).model = m) ∧
          (w.Plot U m [n] → w.Bonded U w') := by
  intro res w' h
  have hc : (Callback.render n t).Every S := trivial
  obtain ⟨T', hd, hq⟩ := ViewModel.watch_draws (P := fun _ => False) hw path hc _ _ h
  refine ⟨T', hd, fun r hr => ⟨⟨(hq r hr).1.callback, (hq r hr).1.model⟩, fun hs => ?_⟩⟩
  have hk := (ViewModel.watch_keeps (computes_false (Engine.ofFuel k).compute) path rfl
    (hs.made n List.mem_cons_self) hs.room).2 res w' h
  refine .of_kept hk fun r' face n' hr' hc' => ?_
  obtain rfl : r' = r := (hq r hr).1.eq_of_shows hr' (by rw [hc']; exact Option.some_ne_none _)
  cases (hq r' hr).1.callback.symm.trans hc'

theorem ViewModel.watchAll_bonds (hw : w.Told S T) (t : Template) (paths : List String) :
    Action.Draws S (fun _ => False) T w (paths.forM fun path =>
      discard <| ViewModel.watch (Engine.ofFuel k).compute m path (.render n t)) fun _ _ w' =>
        (paths ≠ [] → ∃ r, (w'.watchers.get r).callback = .render n t ∧
          (w'.watchers.get r).model = m) ∧ (w.Plot U m [n] → w.Bonded U w') := by
  induction paths generalizing T w with
  | nil => exact .pure hw ⟨fun h => absurd rfl h, fun hs => .refl hs.room⟩
  | cons path paths ih =>
    refine .bind (Action.Draws.discard (ViewModel.watch_bonds (U := U) hw t path))
      fun _ T₁ w₁ hd₁ hq₁ => ?_
    obtain ⟨r, ⟨hr, hm⟩, hb₁⟩ := hq₁
    intro res w' h
    obtain ⟨T', hd, hq⟩ := ih hd₁.told res w' h
    have hdabs : w₁.Dabs w' := .of_strokes hd.strokes
    refine ⟨T', hd, fun a ha => ⟨fun _ => ⟨r, ?_⟩, fun hs => ?_⟩⟩
    · obtain ⟨-, hcallback, hmodel⟩ :=
        hdabs.watcher (made_of_shows (by rw [hr]; exact Option.some_ne_none _))
      exact ⟨hcallback.trans hr, hmodel.trans hm⟩
    · have hs₁ := hs.bonded (hb₁ hs) (.of_strokes hd₁.strokes)
      exact (hb₁ hs).trans ((hq a ha).2 hs₁) hdabs

theorem Template.bind_bonds (hw : w.Told S T) {t : Template} (ht : t.paths ≠ []) :
    (t.bind (Engine.ofFuel k).compute n m).Bonds S U (w.Plot U m [n]) T w := by
  refine Action.Draws.bind (ViewModel.watchAll_bonds (U := U) hw t t.paths)
    fun _ T₁ w₁ hd₁ hq₁ => ?_
  obtain ⟨r, hr, hm⟩ := hq₁.1 ht
  have hwrite : Action.Bonds S U (w₁.Plot U m [n]) T₁ w₁
      (do Face.text.write m n (← t.render (Engine.ofFuel k).compute m)) := by
    intro res w' h
    obtain ⟨T', hd, hq⟩ := Template.write_draws (P := fun _ => False) hd₁.told hr hm res w' h
    refine ⟨T', hd, fun a ha hs => .of_watchers ?_ (hq a ha)⟩
    have hU := hs.inside n List.mem_cons_self
    have hl := hs.made n List.mem_cons_self
    exact ((Action.Keeps.bind (Template.render_keeps (computes_false _) t m) fun text _ hk =>
      Face.write_keeps .text hU (Nat.lt_of_lt_of_le hl hk.inside.size) text) hs.room).2 res w' h
  exact hwrite.after fun hs => ⟨hs.bonded (hq₁.2 hs) (.of_strokes hd₁.strokes), hq₁.2 hs⟩

namespace Settings

variable (s : Settings)

theorem bindAttrs_bonds (hw : w.Told S T) :
    (s.bindAttrs (Engine.ofFuel k).compute n m).Bonds S U
      (w.Plot U m [n] ∧ (w.view.node n).sort = .element) T w := by
  refine .get <| .forM hw (fun h => h.1.room) fun attr _ T₁ w₁ hd₁ => ?_
  refine Action.Draws.bind (ofExcept hd₁.told (Q := fun _ _ w' => w' = w₁) fun _ _ => rfl)
    fun u? T₂ w₂ hd₂ e => ?_
  subst e
  have hdabs : w.Dabs w₂ := .of_strokes hd₁.strokes
  cases u? with
  | none => exact Action.Bonds.pure hd₂.told (fun h => h.2.kept.room) ()
  | some u =>
    refine (Directive.bind_bonds hd₂.told u attr.2).imp fun h => ⟨h.1.1.bonded h.2 hdabs, ?_⟩
    rw [(hdabs.sort (h.1.1.made n List.mem_cons_self)).2]
    exact h.1.2

theorem bindText_bonds (hw : w.Told S T) :
    (s.bindText (Engine.ofFuel k).compute n m).Bonds S U (w.Plot U m [n]) T w := by
  refine .get ?_
  split
  · exact Template.bind_bonds hw (Template.paths_ne_nil ‹_›)
  · exact .pure hw Plot.room ()

theorem bindNodes_bonds (hw : w.Told S T) (depth : Nat) (ns : List (Ref .node)) :
    (s.bindNodes (Engine.ofFuel k).compute m depth ns).Bonds S U (w.Plot U m ns) T w := by
  induction depth generalizing ns w T with
  | zero =>
    unfold bindNodes
    split
    · exact .pure hw Plot.room ()
    · exact unfinished
  | succ depth ih =>
    refine .forM hw Plot.room fun n hn T₁ w₁ hd₁ => .get ?_
    have hplot (h : w.Plot U m ns ∧ w.Bonded U w₁) : w₁.Plot U m [n] := by
      have hs := h.1.bonded h.2 (.of_strokes hd₁.strokes)
      exact ⟨hs.room, hs.model, by simpa using hs.inside n hn, by simpa using hs.made n hn⟩
    cases he : (w₁.view.node n).sort with
    | element =>
      refine .bind ((s.bindAttrs_bonds hd₁.told).imp fun h => ⟨hplot h, he⟩)
        fun _ T₂ w₂ hd₂ => .get <| (ih hd₂.told _).imp fun h => ?_
      have hs := (hplot h.1).bonded h.2 (.of_strokes hd₂.strokes)
      exact ⟨hs.room, hs.model, hs.room.closed n (hs.inside n List.mem_cons_self),
        hs.room.forest.made n⟩
    | text => exact (s.bindText_bonds hd₁.told).imp hplot
    | other => exact .pure hd₁.told (fun h => h.2.kept.room) ()

end Settings

end Binding

def World.Displayed (w w' : World) : Prop :=
  ∀ r face n, w.watchers.size ≤ r.index → (w'.watchers.get r).callback = .write face n →
    ∃ ns, w'.Presents r face n ns

/-- Binding what is below a node is one stroke. What is bound is still shown when it is put back. -/
theorem Settings.compile_draws {P : Step → Prop} {s : Step} {root : Ref .node} (hw : w.Told S T)
    (hs : P s) (hb : s.BindsBelow root) (settings : Settings) (m : Ref .model) :
    Action.Draws S P T w (settings.compile (Engine.ofFuel k).compute m root) fun _ _ w' =>
      w.view.Forest → m.index < w.models.size → w.Displayed w' := by
  intro res w' h
  have hcompile := h
  rw [settings.compile_apply m] at h
  obtain ⟨⟨res', w₁⟩, h₁, he⟩ := Option.map_eq_some_iff.1 h
  cases he
  let wₗ : World := { w with view := (w.view.detach root).2 }
  have hw₀ : (wₗ.emit (.detach root (w.view.children root))).Told S T :=
    (Aside.tell wₗ _).told (hw.view _)
  obtain ⟨T', hd, hq⟩ := settings.bindNodes_bonds (U := w.view.Beneath root) (m := m) hw₀ _ _ _ _ h₁
  have hput : w₁.Aside (w₁.emit (.append root (w.view.children root))) := .tell w₁ _
  have hdabs : wₗ.Dabs (w₁.emit (.append root (w.view.children root))) :=
    (Relation.ReflTransGen.head (Aside.tell wₗ _).dab (Dabs.of_strokes hd.strokes)).tail hput.dab
  refine ⟨T', ⟨(hput.told hd.told).view _, hd.arrays, .single (.bind hs hb hdabs)⟩,
    fun a ha hf hm r face n hr hc => ?_⟩
  -- A node that was never made has no children, so nothing is bound then.
  by_cases hroot : root.index < w.view.nodes.size
  · have hplot : Plot (w.view.Beneath root) m (w.view.children root)
        (wₗ.emit (.detach root (w.view.children root))) :=
      ⟨hf.room_detach root, hm, fun n hn => .inl (.single hn), fun n hn =>
        Nat.lt_of_lt_of_eq (hf.made root n hn) (w.view.size_detach root).symm⟩
    have hbonded := hq a ha hplot
    obtain ⟨ns, hU, hpresents⟩ := hbonded.presents r face n hr hc
    obtain ⟨text, hdisplays, -⟩ := hpresents.displays
    refine ⟨ns, (hpresents.dab hput.dab).avoids (.append _ (fun _ hmem => ?_) fun c hc' hch => ?_)⟩
    · exact hf.not_beneath hroot (hU root hmem)
    · -- What is put back has no parent until then.
      have hparent : (wₗ.view.node c).parent = none := by
        rw [View.parent_detach, if_pos hch]
      have hl : c.index < wₗ.view.nodes.size :=
        Nat.lt_of_lt_of_eq (hf.made root c hch) (w.view.size_detach root).symm
      exact hbonded.kept.room.forest.not_child (hbonded.kept.inside.parentless c hl hparent)
        (hdisplays.child c hc')
  · obtain ⟨w₂, h₂, -, hws, -⟩ := settings.compile_unmade (m := m) (Nat.le_of_not_lt hroot)
      (Engine.ofFuel k).compute
    rw [hcompile] at h₂
    cases h₂
    rw [hws, Store.get_of_size_le _ hr] at hc
    cases hc

end ViewBinding
