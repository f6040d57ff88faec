import ViewBinding.Binding
import ViewBinding.Proofs.Run.Watchers

/-! View-models that are made and bound. -/

namespace ViewBinding

variable {w w' : World} {n : Nat}

theorem ViewModel.create_apply (setup : Setup) (w : World) :
    ViewModel.create setup w =
      match setup.data.object? with
      | none => some (.error (.rootNotObject setup.data.sort), w)
      | some data => some (.ok w.models.fresh,
          { w.define data w.models.fresh setup.computed with
            models := w.models.add { data, methods := setup.methodTable } }) := by
  rw [ViewModel.create]
  cases setup.data.object? with
  | none => rfl
  | some data =>
    have hf (m : Ref .model) (computed : List (String × Expr)) (w : World) :
        (computed.forM (fun c =>
          modify (·.setComputed data { name := c.1, body := c.2, model := m }) :
            _ → Action Unit)) w =
          some (.ok (), w.define data m computed) := by
      induction computed generalizing w with
      | nil => rfl
      | cons c computed ih => exact ih _
    show ((setup.computed.forM _ >>= _ : Action (Ref .model)) w) = _
    rw [Action.bind_apply, hf]
    simp only [Action.modify_bind, World.models_define]
    rfl

theorem Setup.methodTable_forall {setup : Setup} {Q : List Step → Prop}
    (hm : ∀ method ∈ setup.methods, Q method.2) (name : String) (steps : List Step)
    (h : setup.methodTable[name]? = some steps) : Q steps := by
  have hf (methods : List (String × List Step)) (table : Keyed (List Step))
      (h : (methods.foldl (fun table method => table.insert method.1 method.2) table)[name]? =
        some steps) : table[name]? = some steps ∨ ∃ method ∈ methods, method.2 = steps := by
    induction methods generalizing table with
    | nil => exact .inl h
    | cons method methods ih =>
      obtain h | ⟨method', hm', rfl⟩ := ih _ h
      · rw [Std.ExtTreeMap.getElem?_insert] at h
        split at h
        · exact .inr ⟨method, List.mem_cons_self, Option.some.inj h⟩
        · exact .inl h
      · exact .inr ⟨method', List.mem_cons_of_mem _ hm', rfl⟩
  obtain h | ⟨method, hmem, rfl⟩ := hf setup.methods ∅ h
  · simp at h
  · exact hm method hmem

theorem ViewModel.create_grown (setup : Setup) {data : Ref .object} (hg : w.Grown w')
    (hd : setup.data.object? = some data) (hl : w.objects.size ≤ data.index)
    (hu : data.index < w'.objects.size) (hc : ∀ c ∈ setup.computed, c.2.Tracked)
    (hm : ∀ method ∈ setup.methods, Step.AllPlain method.2) :
    ∃ w'', ViewModel.create setup w' = some (.ok w'.models.fresh, w'') ∧ w.Grown w'' ∧
      w'.models.fresh.index < w''.models.size := by
  refine ⟨_, by rw [ViewModel.create_apply, hd], ?_, ?_⟩
  · rw [World.define_models]
    refine (hg.addModel { data, methods := setup.methodTable } hu rfl
      (Setup.methodTable_forall hm)).define hl ?_ hc
    show _ < (w'.models.add _).size
    rw [Store.size_add]
    exact Nat.lt_succ_self _
  · show _ < (w'.models.add _).size
    rw [Store.size_add]
    exact Nat.lt_succ_self _

theorem Listener.attach_goes (l : Listener) (node : Ref .node) (hw : w.Valid) :
    (l.attach node).Goes w fun _ _ => True :=
  .bind (.emit hw _) fun _ _ ho _ => .modify ((World.Noted.view _ _).onward ho.valid) trivial

section

variable {m : Ref .model}

theorem Face.bind_goes (face : Face) (node : Ref .node) (path : String) (hw : w.Valid)
    (hm : m.index < w.models.size) :
    (face.bind (Engine.ofFuel n).compute node m path).Goes w fun _ _ => True :=
  .bind (ViewModel.watch_goes hw hm path fun _ _ h => nomatch h) fun _ _ ho _ =>
    .get (Face.write_goes face m node _ ho.valid)

theorem Directive.bind_goes (u : Directive.Use) (value : String) (node : Ref .node) (hw : w.Valid)
    (hm : m.index < w.models.size) :
    (Directive.bind (Engine.ofFuel n).compute u value node m).Goes w fun _ _ => True := by
  obtain ⟨directive, argument⟩ := u
  cases directive with
  | model =>
    exact .bind (Face.bind_goes .value node value hw hm) fun _ _ ho _ =>
      Listener.attach_goes _ node ho.valid
  | html => exact Face.bind_goes .html node value hw hm
  | text => exact Face.bind_goes .text node value hw hm
  | on =>
    refine .bind (Q := fun _ _ => True) (.require hw _ fun _ _ => trivial) fun event w' ho _ =>
      .get ?_
    split
    · exact Listener.attach_goes _ node ho.valid
    · exact .bind (Q := fun _ _ => True) (.throw ho.valid _) fun _ _ ho' _ =>
        Listener.attach_goes _ node ho'.valid

theorem Template.bind_goes (t : Template) (node : Ref .node) (hw : w.Valid)
    (hm : m.index < w.models.size) :
    (t.bind (Engine.ofFuel n).compute node m).Goes w fun _ _ => True := by
  refine .bind (.forM hw fun path _ w' ho => ?_) fun _ w' ho _ => ?_
  · have hm' := Nat.lt_of_lt_of_le hm ho.models
    exact .map (ViewModel.watch_goes ho.valid hm' path fun _ _ h => nomatch h) fun _ _ _ => trivial
  · have hm' := Nat.lt_of_lt_of_le hm ho.models
    exact .bind (Template.render_goes ho.valid t hm') fun _ _ ho' _ =>
      Face.write_goes .text m node _ ho'.valid

namespace Settings

variable (s : Settings)

theorem bindAttrs_goes (node : Ref .node) (hw : w.Valid) (hm : m.index < w.models.size) :
    (s.bindAttrs (Engine.ofFuel n).compute node m).Goes w fun _ _ => True := by
  refine .get (.forM hw fun attr _ w' ho => ?_)
  refine .bind (Q := fun _ _ => True) (.ofExcept ho.valid fun _ _ => trivial) fun u? w'' ho' _ => ?_
  have hm' := Nat.lt_of_lt_of_le hm (ho.trans ho').models
  cases u? with
  | none => exact .pure ho'.valid trivial
  | some u => exact Directive.bind_goes u _ node ho'.valid hm'

theorem bindText_goes (node : Ref .node) (hw : w.Valid) (hm : m.index < w.models.size) :
    (s.bindText (Engine.ofFuel n).compute node m).Goes w fun _ _ => True := by
  refine .get ?_
  split
  · exact Template.bind_goes _ node hw hm
  · exact .pure hw trivial

theorem bindNodes_goes (depth : Nat) (nodes : List (Ref .node)) (hw : w.Valid)
    (hm : m.index < w.models.size) :
    (s.bindNodes (Engine.ofFuel n).compute m depth nodes).Goes w fun _ _ => True := by
  induction depth generalizing nodes w with
  | zero =>
    rw [bindNodes]
    split
    · exact .pure hw trivial
    · exact .unfinished
  | succ depth ih =>
    refine .forM hw fun node _ w' ho => .get ?_
    have hm' := Nat.lt_of_lt_of_le hm ho.models
    split
    · exact .bind (s.bindAttrs_goes node ho.valid hm') fun _ _ ho' _ =>
        .get (ih _ ho'.valid (Nat.lt_of_lt_of_le hm' ho'.models))
    · exact s.bindText_goes node ho.valid hm'
    · exact .pure ho.valid trivial

theorem compile_goes (root : Ref .node) (hw : w.Valid) (hm : m.index < w.models.size) :
    (s.compile (Engine.ofFuel n).compute m root).Goes w fun _ _ => True := by
  have hv := (World.Noted.view w (w.view.detach root).2).onward hw
  refine .bind (Q := fun _ _ => True) (.modifyGet hv trivial) fun children w₁ ho₁ _ => ?_
  refine .bind (.emit ho₁.valid _) fun _ w₂ ho₂ _ => .get ?_
  have hm₂ := Nat.lt_of_lt_of_le hm (ho₁.trans ho₂).models
  refine .bind (.faultOf (s.bindNodes_goes _ _ ho₂.valid hm₂)) fun outcome w₃ ho₃ _ => ?_
  refine .bind (.emit ho₃.valid _) fun _ w₄ ho₄ _ => ?_
  refine .bind (Q := fun _ _ => True) (.modify ((World.Noted.view w₄ _).onward ho₄.valid) trivial)
    fun _ w₅ ho₅ _ => ?_
  cases outcome with
  | none => exact .pure ho₅.valid trivial
  | some f => exact .throw ho₅.valid f

end Settings

end

theorem ViewModel.mount_onward {setup : Setup} {r : Except Fault (Ref .model)}
    {w'' : World} {point : MountPoint} {s : Settings} {keep : Ref .model → Action Unit}
    (hw : w.Valid) (hg : w.Grown w')
    (hd : ∀ o, setup.data.object? = some o → w.objects.size ≤ o.index ∧ o.index < w'.objects.size)
    (hc : ∀ c ∈ setup.computed, c.2.Tracked)
    (hm : ∀ method ∈ setup.methods, Step.AllPlain method.2)
    (hk : ∀ m w, w.Valid → w.modelAlive m → (keep m).Goes w fun _ _ => True)
    (h : ViewModel.mount (Engine.ofFuel n).compute point setup s keep w' = some (r, w'')) :
    w.Onward w'' := by
  have hat (node : Ref .node) {r : Except Fault (Ref .model)} {w'' : World}
      (h : (ViewModel.create setup >>= fun m => Action.usingModel m
        (s.compile (Engine.ofFuel n).compute m node >>= fun _ => keep m) >>= fun _ => pure m)
          w' = some (r, w'')) : w.Onward w'' := by
    rw [Action.bind_apply] at h
    cases ho : setup.data.object? with
    | none =>
      rw [ViewModel.create_apply, ho] at h
      cases h
      exact hg.onward hw
    | some data =>
      obtain ⟨w₂, hcr, hg₂, hlt⟩ :=
        ViewModel.create_grown setup hg ho (hd data ho).1 (hd data ho).2 hc hm
      have hp := hg₂.passes_useModel hw hg.models hlt
      rw [hcr] at h
      have hgo : Action.Goes (s.compile (Engine.ofFuel n).compute w'.models.fresh node >>= fun _ =>
          keep w'.models.fresh) (w₂.useModel w'.models.fresh) fun _ _ => True := by
        refine .bind (s.compile_goes node hp.valid hlt) fun _ w₃ ho _ => hk _ w₃ ho.valid ?_
        rw [World.modelAlive_iff, ho.used]
        exact .inr List.mem_cons_self
      obtain ⟨g, hb, rfl⟩ | ⟨_, w₃, hb, h⟩ := Action.bind_eq_some h
      · exact Action.Goes.onward_usingModel hp hg₂.modelsInUse hgo hb
      · cases h
        exact Action.Goes.onward_usingModel hp hg₂.modelsInUse hgo hb
  cases point with
  | node node => exact hat node h
  | selector text =>
    rw [ViewModel.mount, Action.get_bind] at h
    cases hq : w'.view.query text with
    | none =>
      rw [hq] at h
      cases h
      exact hg.onward hw
    | some node =>
      rw [hq] at h
      exact hat node h

end ViewBinding
