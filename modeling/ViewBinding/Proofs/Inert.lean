import ViewBinding.Proofs.Calls

/-! View-models that are gone. Once nothing keeps a view-model alive, nothing brings it back: none
of its callbacks, methods and computed properties starts any more, its bindings show nothing, and
what is left of it answers that it is gone. -/

namespace ViewBinding

def Response.owner : Response → Ref .model
  | .assign m _ _ => m
  | .call m _ => m

/-- Whether a happening leaves a view-model out: it is no call of a watcher, no method and no
computed property of it, and nothing that one of its bindings showed. -/
def Happening.Spares (w : World) (m : Ref .model) : Happening → Prop
  | called r _ _ => r.index < w.watchers.size ∧ (w.watchers.get r).model ≠ m
  | wrote m' _ _ _ => m' ≠ m
  | computed p => p.model ≠ m
  | method m' _ _ => m' ≠ m
  | _ => True

namespace World

variable {P : Step → Prop} {w w' : World} {hs : List Happening} {m : Ref .model}

/-- A view-model that was made and that nothing keeps alive: no name stands for it, and it is not in
use. -/
structure Gone (w : World) (m : Ref .model) : Prop where
  made : m.index < w.models.size
  dead : ¬w.modelAlive m

/-- What is left of a view-model that is gone. -/
structure Inert (w : World) (m : Ref .model) : Prop extends w.Gone m where
  /-- Its listeners do nothing, and succeed. -/
  listener : ∀ e event response, response.owner = m →
    Response.perform e event response w = some (.ok (), w)
  /-- Its watchers cannot be updated. -/
  update : ∀ e r, (w.watchers.get r).model = m →
    Watcher.update e r w = some (.error .detached, w)
  /-- Its computed properties cannot be read, on whatever object they are. -/
  property : ∀ n o key p e, w.slot? o key = some (.computed p) → p.model = m →
    Object.read (Engine.ofFuel (n + 1)).compute o key e w = some ((.error .detached, e), w)

theorem Gone.inert (h : w.Gone m) : w.Inert m where
  toGone := h
  listener e event response hm := by
    subst hm
    cases response <;>
      exact congrArg (fun x : Action Unit => x w) (if_neg h.dead)
  update e r hm := by
    subst hm
    rw [Watcher.update_apply]
    exact if_neg h.dead
  property n o key p e hs hm := by
    subst hm
    have hread : Object.read (Engine.ofFuel (n + 1)).compute o key e w =
        Computed.eval (Engine.ofFuel n).compute p e w := by
      rw [Object.read, Reading.getWorld_bind, hs]
      rfl
    rw [hread, Computed.eval, Reading.getWorld_bind, if_neg h.dead]
    rfl

namespace Gone

theorem ne_of_used (h : w.Gone m) {m' : Ref .model} (hm : m' ∈ w.modelsInUse) : m' ≠ m := by
  rintro rfl
  exact h.dead ((modelAlive_iff _).2 (.inr hm))

theorem ne_fresh (h : w.Gone m) : w.models.fresh ≠ m := by
  rintro rfl
  exact fresh_not_lt _ h.made

theorem of_alive (h : w.Gone m) (hmodels : w.models.size ≤ w'.models.size)
    (ha : w'.names.models.holds m ∨ m ∈ w'.modelsInUse →
      w.names.models.holds m ∨ m ∈ w.modelsInUse) : w'.Gone m :=
  ⟨Nat.lt_of_lt_of_le h.made hmodels,
    fun hm => h.dead ((modelAlive_iff m).2 (ha ((modelAlive_iff m).1 hm)))⟩

theorem same (h : w.Gone m) (hmodels : w'.models.size = w.models.size)
    (hn : w'.names.models = w.names.models) (hu : w'.modelsInUse = w.modelsInUse) : w'.Gone m :=
  h.of_alive (Nat.le_of_eq hmodels.symm) (by rw [hn, hu]; exact id)

theorem sameFrame (h : w.Gone m) (hf : w.SameFrame w') : w'.Gone m :=
  h.same (by rw [hf.models]) (by rw [hf.names]) hf.modelsInUse

end Gone

theorem Makes.gone {watcher : Watcher} {n : Nat} {v : Value} (h : w.Makes watcher n hs v w')
    (hg : w.Gone m) : w'.Gone m := by
  cases h with
  | intro h _ =>
    have hadd : (w.addWatcher watcher).Gone m := ⟨hg.made, hg.dead⟩
    obtain ⟨hmade, hdead⟩ := hadd.sameFrame (Glances.sameFrame h)
    exact ⟨hmade, hdead⟩

theorem Renamed.holds {names : Names} (h : w.Renamed names) (hm : names.models.holds m) :
    w.names.models.holds m ∨ m ∈ w.modelsInUse := by
  cases h with
  | model name hu =>
    rcases Holder.holds_bind _ _ hm with rfl | hm
    · exact .inr hu
    · exact .inl hm
  | dropModel name => exact .inl (Holder.holds_drop _ _ hm)
  | _ => exact .inl hm

/-- Nothing that is done brings a view-model back. -/
theorem Move.gone (h : w.Move P hs w') (hg : w.Gone m) : w'.Gone m := by
  cases h with
  | glance h => exact hg.sameFrame h.sameFrame
  | prune => exact hg.sameFrame (.setRegistry w _ _)
  | watch _ h => exact (h.gone hg).same (Store.size_modify ..) rfl rfl
  | hold _ _ h => exact (h.gone hg).same rfl rfl rfl
  | call =>
    generalize (w.watchers.get _).callback = callback
    cases callback <;> exact hg.same rfl rfl rfl
  | build _ model name =>
    refine hg.of_alive (by rw [Store.size_add]; exact Nat.le_succ _) (Or.imp_left fun hm => ?_)
    exact (Holder.holds_bind _ _ hm).resolve_left fun e => hg.ne_fresh e.symm
  | mount _ model =>
    refine hg.of_alive (Nat.le_of_lt ?_) (Or.imp_right fun hm => ?_)
    · show w.models.size < (w.models.add model).size
      rw [Store.size_add]
      exact Nat.lt_succ_self _
    · exact (List.mem_cons.1 hm).resolve_left fun e => hg.ne_fresh e.symm
  | useModel ha =>
    refine hg.of_alive (Nat.le_refl _) (Or.imp_right fun hm => ?_)
    refine (List.mem_cons.1 hm).resolve_left ?_
    rintro rfl
    exact hg.dead ha
  | releaseModel =>
    exact hg.of_alive (Nat.le_refl _) (Or.imp_right List.mem_of_mem_erase)
  | rename h => exact hg.of_alive (Nat.le_refl _) fun hm => hm.elim h.holds .inr
  | _ => exact hg.same rfl rfl rfl

theorem Glances.spares (h : w.Glances hs w') (hg : w.Gone m) (v : World) :
    ∀ x ∈ hs, x.Spares v m := by
  induction h with
  | nil => exact List.forall_mem_nil _
  | snoc hbefore hglance ih =>
    refine List.forall_mem_append.2 ⟨ih, ?_⟩
    cases hglance with
    | computed ha =>
      refine List.forall_mem_singleton.2 ?_
      rintro rfl
      exact (hg.sameFrame (Glances.sameFrame hbefore)).dead ha
    | _ => exact List.forall_mem_nil _

theorem Makes.spares {watcher : Watcher} {n : Nat} {v : Value} (h : w.Makes watcher n hs v w')
    (hg : w.Gone m) (u : World) : ∀ x ∈ hs ++ [.made w.watchers.fresh v], x.Spares u m := by
  cases h with
  | intro h _ =>
    have hadd : (w.addWatcher watcher).Gone m := ⟨hg.made, hg.dead⟩
    exact List.forall_mem_append.2 ⟨Glances.spares h hadd u, List.forall_mem_singleton.2 trivial⟩

theorem Callback.start_spares {r : Ref .watcher} (hr : r.index < w.watchers.size)
    (hm : (w.watchers.get r).model ≠ m) (change : Change) (callback : Callback) :
    ∀ x ∈ callback.start r (w.watchers.get r).model change, x.Spares w m := by
  cases callback with
  | write face n => exact List.forall_mem_cons.2 ⟨⟨hr, hm⟩, List.forall_mem_singleton.2 hm⟩
  | _ => exact List.forall_mem_singleton.2 ⟨hr, hm⟩

/-- Whoever starts something has its view-model in use, which one that is gone never is. -/
theorem Move.spares (h : w.Move P hs w') (hg : w.Gone m)
    (hused : ∀ r, .watcher r ∈ w.subscribersInUse → r.index < w.watchers.size) :
    ∀ x ∈ hs, x.Spares w m := by
  cases h with
  | glance h => exact Glances.spares (.single h) hg w
  | watch _ h => exact h.spares hg w
  | hold _ _ h => exact h.spares hg w
  | call hr hm => exact Callback.start_spares (hused _ hr) (hg.ne_of_used hm) _ _
  | method _ hm => exact List.forall_mem_singleton.2 (hg.ne_of_used hm)
  | write hm => exact List.forall_mem_singleton.2 (hg.ne_of_used hm)
  | define => exact List.forall_mem_singleton.2 trivial
  | listen => exact List.forall_mem_singleton.2 trivial
  | «show» => exact List.forall_mem_singleton.2 trivial
  | _ => exact List.forall_mem_nil _

theorem Move.spares_onward (h : w.Move P hs w') {x : Happening} (hx : x.Spares w m) :
    x.Spares w' m := by
  have stays {r : Ref .watcher} (hr : r.index < w.watchers.size ∧ (w.watchers.get r).model ≠ m) :
      r.index < w'.watchers.size ∧ (w'.watchers.get r).model ≠ m := by
    obtain ⟨hr', -, hmodel⟩ := h.same_watcher hr.1
    exact ⟨hr', by rw [hmodel]; exact hr.2⟩
  cases x with
  | called => exact stays hx
  | _ => exact hx

theorem spares_of_course {v : World} (hv : v.Past) (hg : v.Gone m)
    (h : v.Course (fun _ => True) hs w) : w.Gone m ∧ ∀ x ∈ hs, x.Spares w m := by
  have hkeeps := Along.keeps
    (I := fun so w => World.Past w ∧ w.Gone m ∧ ∀ x ∈ so, x.Spares w m)
    (fun so w hs w' hmove ⟨hp, hg, hso⟩ => by
      have hused (r : Ref .watcher) (hr : .watcher r ∈ w.subscribersInUse) :
          r.index < w.watchers.size := by
        obtain ⟨first, hmade⟩ := hp.linked.1.used r hr
        exact hp.linked.2.made r first hmade
      refine ⟨hp.trans (.single hmove), hmove.gone hg, List.forall_mem_append.2
        ⟨fun x hx => hmove.spares_onward (hso x hx), fun x hx => ?_⟩⟩
      exact hmove.spares_onward (hmove.spares hg hused x hx)) [] h
  obtain ⟨-, hg', hall⟩ := hkeeps ⟨hv, hg, List.forall_mem_nil _⟩
  exact ⟨hg', hall⟩

/-- Once nothing keeps a view-model alive, at whatever moment of a run that is, it is inert for the
rest of the run, at every moment of it, and everything that happens leaves it out: no callback of
its watchers starts, none of its methods and computed properties does, and none of its bindings
shows anything. -/
theorem inert_of_gone {trees : List Markup} {steps : List Step} {w₀ : World}
    {x y : Deed × World} (h₀ : World.ofTrees trees = some w₀)
    (hxy : Deed.Before (.session steps, w₀) x y) (hg : (Deed.outset x).Gone m) :
    (Deed.outset y).Inert m ∧ ∃ hs,
      (Deed.outset y).trace.toList = (Deed.outset x).trace.toList ++ hs ∧
        ∀ h ∈ hs, h.Spares (Deed.outset y) m := by
  have hready : Deed.Ready (fun _ => True) (.session steps, w₀) :=
    ⟨(ofTrees_course h₀).2.1, Step.everyAll_of_forall (fun _ => trivial) steps⟩
  obtain ⟨hs, hc⟩ := hxy.evolves (fun _ _ _ h => h) hready
  obtain ⟨hg', hspares⟩ := spares_of_course (hxy.reaches.past h₀) hg hc
  exact ⟨hg'.inert, hs, Course.trace hc, hspares⟩

/-- A view-model is dropped whose data lives on in another one, while a watcher of it is held. -/
def bereft : List Step :=
  [.build (some "a") (some (.data (.object [("x", .string "1")]))) [("c", .get none "x")]
      [("m", [])],
    .build (some "b") (some (.root "a")) [] [],
    .watcher (some "a") "u" "x" [],
    .dropModel (some "a")]

/-- The data is written, the watcher is updated, and the computed property is read. -/
def bereftLater : List Step :=
  [.write (some "b") "x" (.data (.string "2")), .watcherUpdate "u", .read (some "b") "c"]

theorem inert_of_gone_bereft : ∃ (w₀ v w : World) (outcomes outcomes' : List Outcome),
    World.ofTrees [] = some w₀ ∧ w₀.steps (Engine.ofFuel 4) bereft = some (outcomes, v) ∧
      v.steps (Engine.ofFuel 4) bereftLater = some (outcomes', w) ∧
      Deed.Before (.session (bereft ++ bereftLater), w₀) (.session bereftLater, v)
        (.session [], w) ∧
      v.Gone ⟨0⟩ ∧ v.alive (.watcher ⟨0⟩) ∧ (v.watchers.get ⟨0⟩).model = ⟨0⟩ ∧
      w.Inert ⟨0⟩ ∧ ∃ hs, w.trace.toList = v.trace.toList ++ hs ∧
        ∀ h ∈ hs, h.Spares w ⟨0⟩ := by
  have hrun : ((World.ofTrees []).bind fun w =>
      (w.steps (Engine.ofFuel 4) bereft).bind fun p =>
        (p.2.steps (Engine.ofFuel 4) bereftLater).map fun _ =>
          p.2.models.size == 2 && (!p.2.modelAlive ⟨0⟩ && (p.2.alive (.watcher ⟨0⟩) &&
            (p.2.watchers.get ⟨0⟩).model == ⟨0⟩))) = some true := by
    decide +kernel
  obtain ⟨w₀, h₀, h⟩ := Option.bind_eq_some_iff.1 hrun
  obtain ⟨⟨outcomes, v⟩, hv, h⟩ := Option.bind_eq_some_iff.1 h
  obtain ⟨⟨outcomes', w⟩, hw, hc⟩ := Option.map_eq_some_iff.1 h
  simp only [Bool.and_eq_true, beq_iff_eq, Bool.not_eq_true'] at hc
  obtain ⟨hsize, hdead, ha, hmodel⟩ := hc
  have hg : v.Gone ⟨0⟩ := ⟨by rw [hsize]; decide, by simp [hdead]⟩
  have hbefore : Deed.Before (.session (bereft ++ bereftLater), w₀) (.session bereftLater, v)
      (.session [], w) := .within (Deed.reaches_rest hv bereftLater) (Deed.reaches_end hw)
  obtain ⟨hinert, hspares⟩ := inert_of_gone h₀ hbefore hg
  exact ⟨w₀, v, w, outcomes, outcomes', h₀, hv, hw, hbefore, hg, ha, hmodel, hinert, hspares⟩

end World

end ViewBinding
