import ViewBinding.Proofs.Passes

/-! What each change of names, uses, subscribers and data keeps. -/

namespace ViewBinding.World

variable {w : World}

theorem onward_rename (hw : w.Valid) (names : Names)
    (hm : ∀ m, names.models.holds m → w.modelAlive m)
    (hr : ∀ r, names.watchers.holds r →
      w.names.watchers.holds r ∨ r.index < w.watchers.size ∧ w.Settled r)
    (hv : ∀ (name : String) v, names.values[name]? = some v → v.Within w.objects.size) :
    w.Onward { w with names } where
  used := rfl
  toPasses := by
    have hm' (m : Ref .model) (h : World.modelAlive { w with names } m) : w.modelAlive m := by
      obtain h | h := (modelAlive_iff m).1 h
      · exact hm m h
      · exact (modelAlive_iff m).2 (.inr h)
    have hs : w.Shift [] { w with names } :=
      .of_data rfl rfl rfl (fun _ _ => rfl) (fun _ _ => rfl) fun m h => .inl (hm' m h)
    refine hs.passes hw ?_ (Nat.le_refl _) (Nat.le_refl _) (Nat.le_refl _) fun r h => ?_
    · exact
        { hw with
          namedModel := fun m h => hw.lt_of_modelAlive (hm m h)
          namedWatcher := fun r h => (hr r h).elim (hw.namedWatcher r) (·.1)
          saved := hv }
    · obtain hu | hn | ⟨ha, ho⟩ := (alive_iff r).1 h
      · exact .inl ((alive_iff r).2 (.inl hu))
      · obtain hn | ⟨hlt, hset⟩ := hr r hn
        · exact .inl ((alive_iff r).2 (.inr (.inl hn)))
        · exact .inr (hs.settled hw hlt h List.not_mem_nil hset)
      · exact .inl ((alive_iff r).2 (.inr (.inr ⟨hm' _ ha, ho⟩)))

section Uses

theorem modelAlive_useModel {m : Ref .model} (hm : w.modelAlive m) (m' : Ref .model) :
    (w.useModel m).modelAlive m' ↔ w.modelAlive m' := by
  rw [modelAlive_iff, modelAlive_iff, useModel, List.mem_cons]
  constructor
  · rintro (h | rfl | h)
    · exact .inl h
    · exact (modelAlive_iff _).1 hm
    · exact .inr h
  · exact Or.imp_right .inr

theorem passes_useModel (hw : w.Valid) {m : Ref .model} (hm : w.modelAlive m) :
    w.Passes [] [] (w.useModel m) := by
  have hm' (m' : Ref .model) := (modelAlive_useModel hm m').1
  have hs : w.Shift [] (w.useModel m) :=
    .of_data rfl rfl rfl (fun _ _ => rfl) (fun _ _ => rfl) fun m' h => .inl (hm' m' h)
  refine hs.passes hw ?_ (Nat.le_refl _) (Nat.le_refl _) (Nat.le_refl _) fun r h => .inl ?_
  · refine { hw with usedModel := fun m' h => ?_ }
    obtain rfl | h := List.mem_cons.1 h
    · exact hw.lt_of_modelAlive hm
    · exact hw.usedModel m' h
  · exact alive_of h id id rfl (hm' _) id

theorem passes_releaseModel (hw : w.Valid) (m : Ref .model) :
    w.Passes [] [] (w.releaseModel m) := by
  have hu : (w.modelsInUse.erase m) ⊆ w.modelsInUse := List.erase_subset
  have hm (m' : Ref .model) (h : (w.releaseModel m).modelAlive m') : w.modelAlive m' := by
    rw [modelAlive_iff] at h ⊢
    exact h.imp_right (hu ·)
  have hs : w.Shift [] (w.releaseModel m) :=
    .of_data rfl rfl rfl (fun _ _ => rfl) (fun _ _ => rfl) fun m' h => .inl (hm m' h)
  refine hs.passes hw ?_ (Nat.le_refl _) (Nat.le_refl _) (Nat.le_refl _) fun r h => .inl ?_
  · exact { hw with usedModel := fun m' h => hw.usedModel m' (hu h) }
  · exact alive_of h id id rfl (hm _) id

theorem onward_useSubscribers (hw : w.Valid) (ss : List Subscriber) (hss : ∀ s ∈ ss, w.alive s) :
    w.Onward (w.useSubscribers ss) where
  used := rfl
  toPasses := by
    have hs : w.Shift [] (w.useSubscribers ss) :=
      .of_data rfl rfl rfl (fun _ _ => rfl) (fun _ _ => rfl) fun m' h => .inl h
    refine hs.passes hw ?_ (Nat.le_refl _) (Nat.le_refl _) (Nat.le_refl _) fun r h => .inl ?_
    · refine { hw with usedWatcher := fun r h => ?_ }
      obtain h | h := List.mem_append.1 h
      · exact hw.lt_of_alive (hss _ h)
      · exact hw.usedWatcher r h
    · obtain h | h := (alive_iff r).1 h
      · obtain h | h := List.mem_append.1 h
        · exact hss _ h
        · exact (alive_iff r).2 (.inl h)
      · exact (alive_iff r).2 (.inr h)

theorem onward_releaseSubscriber (hw : w.Valid) (s : Subscriber) :
    w.Onward (w.releaseSubscriber s) where
  used := rfl
  toPasses := by
    have hu : (w.subscribersInUse.erase s) ⊆ w.subscribersInUse := List.erase_subset
    have hs : w.Shift [] (w.releaseSubscriber s) :=
      .of_data rfl rfl rfl (fun _ _ => rfl) (fun _ _ => rfl) fun m' h => .inl h
    refine hs.passes hw ?_ (Nat.le_refl _) (Nat.le_refl _) (Nat.le_refl _) fun r h => .inl ?_
    · exact { hw with usedWatcher := fun r h => hw.usedWatcher r (hu h) }
    · exact alive_of h (hu ·) id rfl id id

end Uses

section Subscribers

theorem onward_addWatcher (hw : w.Valid) (watcher : Watcher)
    (hm : watcher.model.index < w.models.size) (hv : watcher.value.Within w.objects.size)
    (hc : ∀ id steps, watcher.callback = .run id steps → Step.AllPlain steps) :
    w.Onward { w with watchers := w.watchers.add watcher } where
  used := rfl
  toPasses := by
    have hg (r : Ref .watcher) := w.watchers.get_add watcher r
    have hlt (r : Ref .watcher) (h : r.index < w.watchers.size) :=
      w.watchers.get_add_of_lt watcher h
    have hsz : w.watchers.size ≤ (w.watchers.add watcher).size := by
      rw [Store.size_add]
      exact Nat.le_succ _
    have hs : w.Shift [] { w with watchers := w.watchers.add watcher } :=
      .of_data rfl rfl rfl hlt (fun _ _ => rfl) fun m h => .inl h
    refine hs.passes hw ?_ (Nat.le_refl _) hsz (Nat.le_refl _) fun r h => .inl ?_
    · refine { hw with
        owned := fun m r h => Nat.lt_of_lt_of_le (hw.owned m r h) hsz
        namedWatcher := fun r h => Nat.lt_of_lt_of_le (hw.namedWatcher r h) hsz
        usedWatcher := fun r h => Nat.lt_of_lt_of_le (hw.usedWatcher r h) hsz
        model := fun r h => ?_, seen := fun r => ?_, callback := fun r => ?_ }
      · simp only [hg]
        split
        · exact hm
        · rename_i hne
          refine hw.model r (Nat.lt_of_le_of_ne (Nat.le_of_lt_succ ?_) fun e => hne ?_)
          · rwa [Store.size_add] at h
          · exact congrArg Ref.mk e
      · simp only [hg]
        split
        · exact hv
        · exact hw.seen r
      · simp only [hg]
        split
        · exact hc
        · exact hw.callback r
    -- Nothing keeps the new one alive, so whoever is alive was so before.
    · have hr : r.index < w.watchers.size := by
        obtain h | h | h := (alive_iff r).1 h
        · exact hw.usedWatcher r h
        · exact hw.namedWatcher r h
        · exact hw.owned _ r h.2
      exact alive_of h id id (by rw [hlt r hr]) id id

def remember (w : World) (r : Ref .watcher) (v : Value) : World :=
  { w with watchers := w.watchers.modify r fun watcher => { watcher with value := v } }

theorem remember_cases (w : World) (r r' : Ref .watcher) (v : Value) :
    (w.remember r v).watchers.get r' = w.watchers.get r' ∨
      r = r' ∧ (w.remember r v).watchers.get r' = { w.watchers.get r' with value := v } :=
  (w.watchers.get_modify_cases r r' fun watcher => { watcher with value := v }).imp_right
    fun ⟨hr, _, e⟩ => ⟨hr, e⟩

theorem model_remember (w : World) (r r' : Ref .watcher) (v : Value) :
    ((w.remember r v).watchers.get r').model = (w.watchers.get r').model := by
  obtain e | ⟨-, e⟩ := w.remember_cases r r' v <;> rw [e]

theorem path_remember (w : World) (r r' : Ref .watcher) (v : Value) :
    ((w.remember r v).watchers.get r').path = (w.watchers.get r').path := by
  obtain e | ⟨-, e⟩ := w.remember_cases r r' v <;> rw [e]

theorem value_remember_self (w : World) {r : Ref .watcher} (hr : r.index < w.watchers.size)
    (v : Value) : ((w.remember r v).watchers.get r).value = v := by
  rw [remember, w.watchers.get_modify_self _ hr]

theorem shift_remember (r : Ref .watcher) (v : Value) : w.Shift [.watcher r] (w.remember r v) where
  slot _ _ _ h := h
  cell _ _ := .inl rfl
  missing _ _ _ h := .inl h
  order _ _ h _ := .inl h
  model r' _ := w.model_remember r r' v
  path r' _ := w.path_remember r r' v
  value r' _ := by
    obtain e | ⟨rfl, -⟩ := w.remember_cases r r' v
    · exact .inl (congrArg Watcher.value e)
    · exact .inr (List.mem_singleton_self _)
  root _ _ := rfl
  modelAlive _ h := .inl h

theorem passes_remember (hw : w.Valid) (r : Ref .watcher) {v : Value}
    (hv : v.Within w.objects.size) : w.Passes [] [.watcher r] (w.remember r v) := by
  have hsz : (w.remember r v).watchers.size = w.watchers.size := Store.size_modify ..
  refine (shift_remember r v).passes hw ?_ (Nat.le_refl _) (Nat.le_of_eq hsz.symm) (Nat.le_refl _)
    fun r' h => .inl (alive_of h id id (w.model_remember r r' v) id id)
  refine { hw with
    owned := fun m r' h => Nat.lt_of_lt_of_eq (hw.owned m r' h) hsz.symm
    namedWatcher := fun r' h => Nat.lt_of_lt_of_eq (hw.namedWatcher r' h) hsz.symm
    usedWatcher := fun r' h => Nat.lt_of_lt_of_eq (hw.usedWatcher r' h) hsz.symm
    model := fun r' h => ?_, seen := fun r' => ?_, callback := fun r' => ?_ }
  · rw [model_remember]
    exact hw.model r' (Nat.lt_of_lt_of_eq h hsz)
  · obtain e | ⟨-, e⟩ := w.remember_cases r r' v <;> rw [e]
    · exact hw.seen r'
    · exact hv
  · obtain e | ⟨-, e⟩ := w.remember_cases r r' v <;> rw [e]
    · exact hw.callback r'
    · exact hw.callback r'

theorem settled_remember {r : Ref .watcher} (hr : r.index < w.watchers.size) {v : Value}
    (h : w.Tracks r (.ok v)) : (w.remember r v).Settled r := by
  obtain ⟨n, ms, hl, ho⟩ := h
  refine ⟨.ok v, ⟨n, ms, ?_, ho⟩, fun u hu => ?_⟩
  · rw [look, path_remember, model_remember]
    exact hl
  · cases hu
    rw [value_remember_self w hr]
    exact v.agrees_self

theorem onward_keepWatcher (hw : w.Valid) (m : Ref .model) {r : Ref .watcher}
    (hr : r.index < w.watchers.size) (hset : w.Settled r) :
    w.Onward { w with models := w.models.modify m fun model =>
      { model with watchers := model.watchers ++ [r] } } where
  used := rfl
  toPasses := by
    have hg (m' : Ref .model) := w.models.get_modify_cases m m' fun model =>
      { model with watchers := model.watchers ++ [r] }
    have hsz : (w.models.modify m fun model =>
      { model with watchers := model.watchers ++ [r] }).size = w.models.size := Store.size_modify ..
    have hd (m' : Ref .model) : ((w.models.modify m fun model =>
        { model with watchers := model.watchers ++ [r] }).get m').data =
          (w.models.get m').data := by
      obtain e | ⟨-, -, e⟩ := hg m' <;> rw [e]
    have hs : w.Shift [] { w with models := w.models.modify m fun model =>
        { model with watchers := model.watchers ++ [r] } } :=
      .of_data rfl rfl rfl (fun _ _ => rfl) (fun m' _ => hd m') fun m h => .inl h
    refine hs.passes hw ?_ (Nat.le_refl _) (Nat.le_refl _) (Nat.le_of_eq hsz.symm) fun r' h => ?_
    · refine { hw with
        computed := fun o key p h => (hw.computed o key p h).imp_left
          (Nat.lt_of_lt_of_eq · hsz.symm)
        root := by simpa only [hsz, hd] using hw.root
        model := by simpa only [hsz] using hw.model
        namedModel := by simpa only [hsz] using hw.namedModel
        usedModel := by simpa only [hsz] using hw.usedModel
        methods := fun m' => ?_, owned := fun m' => ?_ }
      · obtain e | ⟨-, -, e⟩ := hg m' <;> simp only [e]
        · exact hw.methods m'
        · exact hw.methods m'
      · obtain e | ⟨-, -, e⟩ := hg m' <;> simp only [e]
        · exact hw.owned m'
        · intro r' h
          obtain h | h := List.mem_append.1 h
          · exact hw.owned m' r' h
          · rwa [List.mem_singleton.1 h]
    · by_cases hne : r' = r
      -- It may come alive by being kept, but it has seen what there is to see.
      · subst hne
        exact .inr (hs.settled hw hr h List.not_mem_nil hset)
      · refine .inl (alive_of h id id rfl id fun ho => ?_)
        obtain e | ⟨-, -, e⟩ := hg (w.watchers.get r').model <;> simp only [e] at ho
        · exact ho
        · exact (List.mem_append.1 ho).resolve_right fun h => hne (List.mem_singleton.1 h)

theorem onward_addReaction (hw : w.Valid) {reaction : Reaction}
    (h : Step.AllPlain reaction.steps) :
    w.Onward { w with reactions := w.reactions.add reaction } where
  used := rfl
  toPasses := by
    have hs : w.Shift [] { w with reactions := w.reactions.add reaction } :=
      .of_data rfl rfl rfl (fun _ _ => rfl) (fun _ _ => rfl) fun m h => .inl h
    refine hs.passes hw ?_ (Nat.le_refl _) (Nat.le_refl _) (Nat.le_refl _) fun r h =>
      .inl (alive_of h id id rfl id id)
    refine { hw with reaction := fun r => ?_ }
    simp only [Store.get_add]
    split
    · exact h
    · exact hw.reaction r

end Subscribers

end ViewBinding.World
