import ViewBinding.Proofs.Run.Scripts

/-! The moments of a run at which no notification is in progress. At each of them the world is valid
and everyone who is alive is settled. -/

namespace ViewBinding

/-- A world in which no notification is in progress, and a script that goes on from there. -/
inductive Moment : Frame → World → Prop
  /-- There is only a view. -/
  | start {trees : List Markup} {w : World} : World.ofTrees trees = some w → Moment {} w
  | value {f : Frame} {w w' : World} {n : Nat} {x : Expr} {r : Except Fault Value} : Moment f w →
      Script.value (Engine.ofFuel n) f x w = some (r, w') → Moment f w'
  /-- A step of the script is over, whether it succeeded or failed. -/
  | step {f : Frame} {w w' : World} {n : Nat} {s : Step} {r : Except Fault Answer} : Moment f w →
      s.Plain → s.run (Engine.ofFuel n) f w = some (r, w') → Moment f w'
  /-- A listener has responded to an event. -/
  | response {f : Frame} {w w' : World} {n : Nat} {event : Event} {response : Response}
      {r : Except Fault Unit} : Moment f w →
      response.perform (Engine.ofFuel n) event w = some (r, w') → Moment f w'
  | use {f : Frame} {w : World} {m : Ref .model} : Moment f w → w.modelAlive m →
      Moment f (w.useModel m)
  | keep {f : Frame} {w : World} {s : Subscriber} : Moment f w → w.alive s →
      Moment f (w.useSubscribers [s])
  /-- A method of a view-model in use begins. -/
  | method {f : Frame} {w : World} {m : Ref .model} {name : String} {steps : List Step}
      {event : Event} : Moment f w → m ∈ w.modelsInUse →
      (w.models.get m).methods[name]? = some steps →
      Moment { model := some m, event := some event } w
  /-- A watcher that is updated on its own has seen something, and its callback begins. -/
  | callback {f : Frame} {w w' : World} {n : Nat} {r : Ref .watcher} {new : Value} : Moment f w →
      w.alive (.watcher r) → w.modelAlive (w.watchers.get r).model →
      Watcher.evaluate (Engine.ofFuel n).compute r (w.useModel (w.watchers.get r).model) =
        some (.ok new, w') →
      Moment { model := some (w.watchers.get r).model,
               change := some { new, old := (w'.watchers.get r).value } } (w'.remember r new)
  | view {f : Frame} {w : World} (v : View) : Moment f w → Moment f { w with view := v }
  | knownNodes {f : Frame} {w : World} (ns : Std.ExtTreeSet Nat) : Moment f w →
      Moment f { w with knownNodes := ns }
  | trace {f : Frame} {w : World} (es : Array Happening) : Moment f w →
      Moment f { w with trace := es }

variable {w w' : World} {f : Frame}

structure World.Quiet (w : World) : Prop where
  valid : w.Valid
  current : w.Current []

namespace World

theorem Passes.quiet (h : w.Passes [] [] w') (hw : w.Quiet) : w'.Quiet :=
  ⟨h.valid, h.current [] hw.current⟩

theorem empty_quiet : ({} : World).Quiet := by
  -- Nothing was made, so whatever is looked up is what there is by default.
  have ho (o : Ref .object) : ({} : Store .object Object).get o = {} :=
    Store.get_of_size_le _ (Nat.zero_le _)
  have hm (m : Ref .model) : ({} : Store .model ViewModel).get m = default :=
    Store.get_of_size_le _ (Nat.zero_le _)
  have hr (r : Ref .watcher) : ({} : Store .watcher Watcher).get r = default :=
    Store.get_of_size_le _ (Nat.zero_le _)
  have hh {k : Kind} (r : Ref k) : ¬({} : Holder k).holds r := by
    intro h
    obtain ⟨name, h⟩ := (Holder.holds_iff _ r).1 h
    simp at h
  have hs (o : Ref .object) (key : String) : ({} : World).slot? o key = none := by
    simp [slot?, ho]
  have hv : ({} : World).Valid :=
    { cell := fun o key c h => by simp [hs] at h
      computed := fun o key p h => by simp [hs] at h
      value := fun c => by
        rw [show ({} : World).cells.get c = {} from Store.get_of_size_le _ (Nat.zero_le _)]
        exact Value.within_of_object? rfl
      root := fun m h => absurd h (Nat.not_lt_zero _)
      methods := fun m name steps h => by
        rw [hm] at h
        simp [default, instInhabitedViewModel.default] at h
      owned := fun m r h => by
        rw [hm] at h
        exact absurd h List.not_mem_nil
      model := fun r h => absurd h (Nat.not_lt_zero _)
      seen := fun r => by
        rw [hr]
        exact Value.within_of_object? rfl
      callback := fun r id steps h => by
        rw [hr] at h
        cases h
        trivial
      reaction := fun r => by
        rw [show ({} : World).reactions.get r = default from Store.get_of_size_le _ (Nat.zero_le _)]
        trivial
      namedModel := fun m h => absurd h (hh m)
      usedModel := fun m h => absurd h List.not_mem_nil
      namedWatcher := fun r h => absurd h (hh r)
      usedWatcher := fun r h => absurd h List.not_mem_nil
      saved := fun name v h => by simp at h
      sound := fun source => by
        rw [registry_of_not_within]
        · exact .empty
        · cases source <;> exact Nat.not_lt_zero _ }
  exact ⟨hv, fun r h _ => absurd (hv.lt_of_alive h) (Nat.not_lt_zero _)⟩

theorem ofTrees_quiet {trees : List Markup} (h : World.ofTrees trees = some w) : w.Quiet := by
  obtain ⟨⟨r, w₁⟩, hr, rfl⟩ := Option.map_eq_some_iff.1 h
  have hp : (trees.forM fun tree => discard (Script.plant tree)).Goes {} fun _ _ => True :=
    .forM empty_quiet.valid fun tree _ _ ho =>
      .map (Script.plant_goes ho.valid tree) fun _ _ _ => trivial
  exact (hp r w₁ hr).1.quiet empty_quiet

end World

namespace Moment

/-- What holds at every moment, whatever led to it. -/
theorem quiet_valid (h : Moment f w) : w.Quiet ∧ f.Valid w := by
  have onward {f : Frame} {w w' : World} (ih : w.Quiet ∧ f.Valid w) (ho : w.Onward w') :
      w'.Quiet ∧ f.Valid w' := ⟨ho.quiet ih.1, ih.2.onward ho⟩
  induction h with
  | start h => exact ⟨World.ofTrees_quiet h, ⟨fun _ h => (nomatch h), fun _ h => (nomatch h)⟩⟩
  | value _ h ih => exact onward ih (Script.value_goes ih.1.valid ih.2 _ _ _ h).1
  | step _ hs h ih => exact onward ih (Step.run_goes (Engine.calls _) _ ih.1.valid ih.2 hs _ _ h).1
  | response _ h ih =>
    exact onward ih (Response.perform_goes (Engine.calls _) ih.1.valid _ _ _ _ h).1
  | use _ hm ih => exact ⟨(World.passes_useModel ih.1.valid hm).quiet ih.1, ih.2.useModel _⟩
  | keep _ hs ih =>
    exact onward ih (World.onward_useSubscribers ih.1.valid _ fun t ht => by
      rwa [List.mem_singleton.1 ht])
  | method _ hm _ ih => exact ⟨ih.1, ⟨fun m' h => by cases h; exact hm, fun _ h => (nomatch h)⟩⟩
  | @callback f w w' n r new _ hr hm h ih =>
    have hu := World.passes_useModel ih.1.valid hm
    obtain ⟨hn, ht, hv⟩ := Watcher.evaluate_notes hu.valid (ih.1.valid.lt_of_alive hr) h
    have ho := hn.onward hu.valid
    have hr' := Nat.lt_of_lt_of_le (ih.1.valid.lt_of_alive hr) (hu.trans ho.toPasses).watchers
    have hrem := World.passes_remember ho.valid r (hv new rfl)
    refine ⟨⟨hrem.valid, (hrem.current [] (ho.quiet (hu.quiet ih.1)).current).drop ?_⟩, ⟨?_, ?_⟩⟩
    · exact fun r' h _ => by cases h; exact World.settled_remember hr' ht
    · rintro m hm'
      cases hm'
      show _ ∈ w'.modelsInUse
      rw [ho.used]
      exact List.mem_cons_self
    · rintro c hc
      cases hc
      exact ⟨hv new rfl, ho.valid.seen r⟩
  | view v _ ih => exact onward ih ((World.Noted.view _ v).onward ih.1.valid)
  | knownNodes ns _ ih => exact onward ih ((World.Noted.knownNodes _ ns).onward ih.1.valid)
  | trace es _ ih => exact onward ih ((World.Noted.trace _ es).onward ih.1.valid)

theorem quiet (h : Moment f w) : w.Quiet := h.quiet_valid.1

/-- After each step of a run there is a moment. -/
theorem steps {n : Nat} {steps : List Step} (h : Moment {} w) (hs : Step.AllPlain steps)
    {outcomes : List Outcome} (hw : w.steps (Engine.ofFuel n) steps = some (outcomes, w')) :
    Moment {} w' := by
  induction steps generalizing w outcomes with
  | nil => cases hw; exact h
  | cons s rest ih =>
    obtain ⟨⟨outcome, w₁⟩, h₁, hw⟩ := Option.bind_eq_some_iff.1 hw
    obtain ⟨⟨outcomes', w₂⟩, h₂, he⟩ := Option.bind_eq_some_iff.1 hw
    obtain ⟨⟨r, w₃⟩, h₃, he₃⟩ := Option.bind_eq_some_iff.1 h₁
    cases he
    cases he₃
    exact ih (.knownNodes _ (.step h hs.1 h₃)) hs.2 h₂

theorem exists_of_run (n : Nat) (trees : List Markup) (steps : List Step) (check : World → Bool)
    (hs : Step.AllPlain steps) (h : ((World.ofTrees trees).bind fun w =>
      (w.steps (Engine.ofFuel n) steps).map fun p => check p.2) = some true) :
    ∃ w, Moment {} w ∧ check w := by
  obtain ⟨w₀, h₀, h⟩ := Option.bind_eq_some_iff.1 h
  obtain ⟨⟨outcomes, w⟩, hw, hc⟩ := Option.map_eq_some_iff.1 h
  exact ⟨w, (Moment.start h₀).steps hs hw, hc⟩

end Moment

end ViewBinding
