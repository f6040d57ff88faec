import ViewBinding.Proofs.Inert

/-! Watchers that nothing keeps alive. Nothing that is done brings one of them back. -/

namespace ViewBinding

namespace World

variable {P : Step → Prop} {w w' : World} {hs : List Happening}

/-- A watcher that was made and that nothing keeps alive. -/
structure Lost (w : World) (r : Ref .watcher) : Prop where
  made : r.index < w.watchers.size
  dead : w.alive (.watcher r) = false

section Lost

variable {r : Ref .watcher} {m : Ref .model}

theorem lt_of_mem_watchers (h : r ∈ (w.models.get m).watchers) : m.index < w.models.size := by
  by_contra hle
  rw [w.models.get_of_size_le (Nat.le_of_not_lt hle)] at h
  cases h

theorem Move.kept (h : w.Move P hs w') (hr : r.index < w.watchers.size)
    (hk : r ∈ (w'.models.get m).watchers) : r ∈ (w.models.get m).watchers := by
  have added (model : ViewModel) (hnone : model.watchers = [])
      (hk : r ∈ ((w.models.add model).get m).watchers) : r ∈ (w.models.get m).watchers := by
    rw [Store.get_add] at hk
    split at hk
    · rw [hnone] at hk
      cases hk
    · exact hk
  cases h with
  | glance h => exact h.sameFrame.models ▸ hk
  | prune => exact (SameFrame.setRegistry w _ _).models ▸ hk
  | watch _ h =>
    obtain ⟨-, hm, -⟩ := h.frame
    rw [keepWatcher, hm] at hk
    obtain e | ⟨-, -, e⟩ := Store.get_modify_cases _ _ m fun model : ViewModel =>
      { model with watchers := model.watchers ++ [w.watchers.fresh] }
    · exact e ▸ hk
    · rw [e] at hk
      refine (List.mem_append.1 hk).resolve_right fun hnew => ?_
      rw [List.mem_singleton.1 hnew] at hr
      exact fresh_not_lt _ hr
  | hold _ _ h =>
    obtain ⟨-, hm, -⟩ := h.frame
    exact hm ▸ hk
  | call =>
    generalize (w.watchers.get _).callback = callback at hk
    cases callback <;> exact hk
  | build _ model _ hnone => exact added model hnone hk
  | mount _ model hnone => exact added model hnone hk
  | _ => exact hk

theorem Move.named (h : w.Move P hs w') (hr : r.index < w.watchers.size)
    (hn : w'.names.watchers.holds r) : w.names.watchers.holds r := by
  cases h with
  | glance h => exact h.sameFrame.names ▸ hn
  | prune => exact (SameFrame.setRegistry w _ _).names ▸ hn
  | watch _ h =>
    obtain ⟨hnames, -⟩ := h.frame
    exact hnames ▸ hn
  | hold _ _ h =>
    obtain ⟨hnames, -⟩ := h.frame
    refine hnames ▸ (Holder.holds_bind _ _ hn).resolve_left ?_
    rintro rfl
    exact fresh_not_lt _ hr
  | call =>
    generalize (w.watchers.get _).callback = callback at hn
    cases callback <;> exact hn
  | rename h =>
    cases h with
    | dropWatcher => exact Holder.holds_drop _ _ hn
    | _ => exact hn
  | _ => exact hn

theorem Move.used {s : Subscriber} (h : w.Move P hs w') (hu : s ∈ w'.subscribersInUse) :
    w.alive s := by
  have unused (h : w'.subscribersInUse = w.subscribersInUse) : w.alive s :=
    alive_of_mem_inUse (h ▸ hu)
  cases h with
  | glance h => exact unused h.sameFrame.subscribersInUse
  | prune => exact unused (SameFrame.setRegistry w _ _).subscribersInUse
  | watch _ h => exact unused h.frame.2.2.1
  | hold _ _ h => exact unused h.frame.2.2.1
  | call =>
    generalize (w.watchers.get _).callback = callback at unused
    cases callback <;> exact unused rfl
  | useSubscribers hlive => exact (List.mem_append.1 hu).elim (hlive s) alive_of_mem_inUse
  | releaseSubscriber => exact alive_of_mem_inUse (List.mem_of_mem_erase hu)
  | _ => exact unused rfl

/-- Nothing that is done brings a watcher back. -/
theorem Move.lost (h : w.Move P hs w') (hr : w.Lost r) : w'.Lost r := by
  obtain ⟨hmade, -, hmodel⟩ := h.same_watcher hr.made
  refine ⟨hmade, Bool.eq_false_iff.2 fun ha => Bool.eq_false_iff.1 hr.dead ?_⟩
  obtain hused | hnamed | ⟨hm, hkept⟩ := (alive_iff r).1 ha
  · exact h.used hused
  · exact (alive_iff r).2 (.inr (.inl (h.named hr.made hnamed)))
  · rw [hmodel] at hm hkept
    -- A view-model that keeps it was made, so if that was gone it still is.
    have hkept := h.kept hr.made hkept
    refine (alive_iff r).2 (.inr (.inr ⟨?_, hkept⟩))
    by_contra hgone
    exact (h.gone ⟨lt_of_mem_watchers hkept, hgone⟩).dead hm

end Lost

end World

end ViewBinding
