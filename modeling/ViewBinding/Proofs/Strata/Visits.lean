import ViewBinding.Proofs.Strata.Passages

/-! The moments of a run: the outsets of the deeds that the run leads to, in the order in which they
come. -/

namespace ViewBinding

open Action.Meets World

variable {P : Step → Prop} {n : Nat} {w : World} {x y z a b : Deed × World}

theorem leaveBehind_evolves (w : World) (key : Option String) (k : Except Fault Nat) :
    w.Evolves P (k.toOption.elim w fun k => w.leaveBehind key k) := by
  cases k with
  | error g => exact .refl w
  | ok k => exact (leaveBehind_course w key k).2

namespace World

theorem evolves_turns {source : Source} {v : Value} (hp : ViewBinding.Writable P)
    (hs : w.Writable source) (hc : w.changes source v) : w.Evolves P (w.turns source v) := by
  have hput : w.Evolves P (w.put source v) := by
    cases source with
    | cell c =>
      have hn : (w.cells.get c).value.same v = false := by simpa [changes] using hc
      have hprune : (w.store c v).Move P [] (w.put (.cell c) v) := by
        rw [put, ← registry_store w c v]
        exact .prune (by simp)
      exact (Evolves.move (.store hp hn)).trans (.move hprune)
    | waiting o key => exact .move (.insert v hp hs)
    | registry r => exact hs.elim
  refine hput.trans (.move (.useSubscribers fun s hs => ?_))
  rw [alive_put]
  exact alive_of_mem_due hs

end World

namespace Deed

variable (P) in
/-- Whether a deed is done in the course of another: not before its outset, and it has ended when
the other ends. -/
structure Encloses (x y : Deed × World) : Prop where
  ready : Ready P y
  before : (outset x).Evolves P (outset y)
  after : ∀ u, Ends x u → ∃ v, Ends y v ∧ v.Evolves P u

namespace Encloses

theorem refl (hx : Ready P x) : Encloses P x x := ⟨hx, .refl _, fun u hu => ⟨u, hu, .refl u⟩⟩

theorem trans (h : Encloses P x y) (h' : Encloses P y z) : Encloses P x z where
  ready := h'.ready
  before := h.before.trans h'.before
  after u hu := by
    obtain ⟨v, hv, he⟩ := h.after u hu
    obtain ⟨v', hv', he'⟩ := h'.after v hv
    exact ⟨v', hv', he'.trans he⟩

end Encloses

theorem act_meets (hP : Uncounted P) {d : Deed} (hx : Ready P (d, w))
    (hd : ∀ r m change callback, d ≠ perform r m change callback)
    (hy : y ∈ d.parts (.ofFuel n) w) : (d.act (.ofFuel n)).Meets P w y := by
  have he : Engine.Proceeds P (Engine.ofFuel n) := Engine.proceeds n
  obtain ⟨hw, ha⟩ := hx
  cases d with
  | session steps =>
    cases steps with
    | nil => exact absurd hy List.not_mem_nil
    | cons s rest =>
      have hrun {p : Outcome × World} (h : w.step (.ofFuel n) s = some p) :
          ∃ u, Ends (.step {} s, w) u ∧ u.Evolves P p.2 := by
        obtain ⟨⟨r, u⟩, hr, he⟩ := Option.bind_eq_some_iff.1 h
        cases he
        exact ⟨u, ⟨n, r, hr⟩, .move (.meet u _)⟩
      have hstep {p : Outcome × World} (h : w.step (.ofFuel n) s = some p) : w.Evolves P p.2 := by
        obtain ⟨hs, hc, -⟩ := World.step_course hw ha.1 h
        exact ⟨hs, hc⟩
      obtain rfl | hy := List.mem_cons.1 hy
      · refine ⟨⟨hw, (fun _ h => nomatch h), ha.1⟩, .refl w, fun r w' h => ?_⟩
        obtain ⟨⟨outcomes, w₁⟩, hs, he⟩ := Option.map_eq_some_iff.1 h
        obtain ⟨p, hp, hs⟩ := Option.bind_eq_some_iff.1 hs
        obtain ⟨q, hq, he'⟩ := Option.bind_eq_some_iff.1 hs
        cases he
        cases he'
        obtain ⟨u, hu, heu⟩ := hrun hp
        obtain ⟨hs, hc, -⟩ := World.steps_course ((hstep hp).stored hw) ha.2 hq
        exact ⟨u, hu, heu.trans ⟨hs, hc⟩⟩
      · obtain ⟨p, hp, hy⟩ := exists_of_mem_elim hy
        rw [List.mem_singleton.1 hy]
        refine ⟨⟨(hstep hp).stored hw, ha.2⟩, hstep hp, fun r w' h => ?_⟩
        obtain ⟨⟨outcomes, w₁⟩, hs, he⟩ := Option.map_eq_some_iff.1 h
        obtain ⟨p', hp', hs⟩ := Option.bind_eq_some_iff.1 hs
        obtain ⟨q, hq, he'⟩ := Option.bind_eq_some_iff.1 hs
        cases he
        cases he'
        cases hp.symm.trans hp'
        exact ⟨q.2, ⟨n, _, Option.map_eq_some_iff.2 ⟨q, hq, rfl⟩⟩, .refl _⟩
  | script f steps =>
    cases steps with
    | nil => exact absurd hy List.not_mem_nil
    | cons s rest =>
      obtain ⟨hf, hs⟩ := ha
      have hrun := Step.run_proceeds he hf s hs.1
      obtain rfl | hy := List.mem_cons.1 hy
      · exact first (itself (d := .step f s) ⟨hw, hf, hs.1⟩ (.refl w)) hw hrun fun _ =>
          Step.runAll_proceeds he hf rest hs.2
      · refine of_after hw hrun hy fun _ w' _ hw' hu hy => ?_
        rw [List.mem_singleton.1 hy]
        exact itself (d := .script f rest) ⟨hw', hu ▸ hf, hs.2⟩ (.refl w')
  | step f s => exact Step.run_meets hP s hw ha.1 ha.2 hy
  | call m name event =>
    obtain ⟨steps, hs, hy⟩ := exists_of_mem_elim hy
    rw [List.mem_singleton.1 hy]
    have hmethod : w.Move P _ _ := .method event ha.1 (ViewModel.hasMethod_of_getElem? hs)
    refine here (a := steps) ?_ (later rfl (.move hmethod) (.call ?_))
    · rw [hs]
      rfl
    · exact ⟨hmethod.stored hw, fun m' h => by cases h; exact ha.1, hw.methods ha.2 m name steps hs⟩
  | dispatch node event =>
    rw [List.mem_singleton.1 hy]
    exact get (itself (d := .listen event _) ⟨hw, ha⟩ (.refl w))
  | listen event listeners =>
    cases listeners with
    | nil => exact absurd hy List.not_mem_nil
    | cons l rest =>
      have hl := (Judgement.proceeds_acts he).perform (s := w.uses) ha.1 ha.2 event l.response
      obtain rfl | hy := List.mem_cons.1 hy
      · exact first (itself (d := .respond event l.response) ⟨hw, ha⟩ (.refl w)) hw hl fun _ =>
          .forM fun l _ => (Judgement.proceeds_acts he).perform ha.1 ha.2 event l.response
      · refine of_after hw hl hy fun _ w' _ hw' _ hy => ?_
        rw [List.mem_singleton.1 hy]
        exact itself (d := .listen event rest) ⟨hw', ha⟩ (.refl w')
  | respond event response =>
    cases response with
    | assign m path node =>
      by_cases hm : w.modelAlive m
      · simp only [parts, hm, if_true] at hy
        rw [List.mem_singleton.1 hy]
        have huse : w.Move P [] (w.useModel m) := .useModel hm
        refine get ?_
        rw [if_pos hm]
        exact usingModel hm (get (discard (itself (d := .set m path _)
          ⟨huse.stored hw, ha.1⟩ (.refl _))))
      · simp only [parts, hm] at hy
        exact absurd hy List.not_mem_nil
    | call m name =>
      by_cases hm : w.modelAlive m
      · simp only [parts, hm, if_true] at hy
        rw [List.mem_singleton.1 hy]
        have huse : w.Move P [] (w.useModel m) := .useModel hm
        refine get ?_
        rw [if_pos hm]
        exact usingModel hm (itself (d := .call m name event)
          ⟨huse.stored hw, List.mem_cons_self, ha.2⟩ (.refl _))
      · simp only [parts, hm] at hy
        exact absurd hy List.not_mem_nil
  | set m path v =>
    simp only [parts] at hy
    split at hy
    · rename_i p hp
      rw [List.mem_singleton.1 hy]
      exact later (a := p) (by rw [hp]; rfl) (.refl w)
        (get (itself (d := .assign p _ v) ⟨hw, ha⟩ (.refl w)))
    · exact absurd hy List.not_mem_nil
  | assign p root v =>
    have hfollow :=
      (Path.follow_proceeds (Engine.compute_proceeds n) p p.parents (.object root)).once
    refine of_after hw hfollow.proceeds hy fun parent w' _ hw' _ hy => ?_
    split at hy
    · rename_i o ho
      rw [List.mem_singleton.1 hy]
      exact later (a := o) (by rw [ho]; rfl) (.refl w')
        (itself (d := .property o _ v) ⟨hw', ha⟩ (.refl w'))
    · exact absurd hy List.not_mem_nil
  | property o key v =>
    simp only [parts] at hy
    split at hy
    · rename_i c hs
      rw [List.mem_singleton.1 hy]
      exact Action.Meets.congr (Object.write_cell hs v)
        (itself (d := .store c v) ⟨hw, ha⟩ (.refl w))
    · exact absurd hy List.not_mem_nil
    · rename_i hs
      rw [List.mem_singleton.1 hy]
      refine ⟨⟨hw, ha, hs⟩, .refl w, fun r w' h => ?_⟩
      have h : Object.write (Subscriber.update (Engine.ofFuel n)) o key v w = some (r, w') := h
      rw [Object.write_missing hs] at h
      obtain ⟨⟨r', u⟩, hi, he⟩ := Option.map_eq_some_iff.1 h
      cases he
      exact ⟨u, ⟨n, r', hi⟩, .refl u⟩
  | insert o key v => exact absurd hy List.not_mem_nil
  | store c v => exact absurd hy List.not_mem_nil
  | turns ss =>
    cases ss with
    | nil => exact absurd hy List.not_mem_nil
    | cons s rest =>
      obtain ⟨others, ho⟩ := ha
      have hu : w.uses = ⟨w.modelsInUse, s :: rest ++ others⟩ := by rw [World.uses, ho]
      have hturn {p : Except Fault Unit × World} (hp : s.update (Engine.ofFuel n) w = some p) :
          (World.afterTurn s p).subscribersInUse = rest ++ others ∧
            w.Evolves P (World.afterTurn s p) := by
        obtain ⟨hused, hc⟩ :=
          Subscriber.turn_course (u := ⟨w.modelsInUse, others⟩) he hu hw hp
        exact ⟨(Uses.mk.inj hused).2, hc⟩
      obtain rfl | hy := List.mem_cons.1 hy
      · have hs : s ∈ w.subscribersInUse := by
          rw [ho]
          exact List.mem_cons_self
        refine ⟨⟨hw, hs⟩, .refl w, fun r w' h => ?_⟩
        obtain ⟨p, k, hp, hk, -⟩ := updateEach_cons_eq_some h
        obtain ⟨hused, hev⟩ := hturn hp
        have hrest : Ready P (.turns rest, World.afterTurn s p) := ⟨hev.stored hw, others, hused⟩
        exact ⟨p.2, ⟨n, p.1, hp⟩, (afterTurn_evolves s p).trans (hrest.evolves ⟨n, k, hk⟩)⟩
      · obtain ⟨p, hp, hy⟩ := exists_of_mem_elim hy
        rw [List.mem_singleton.1 hy]
        obtain ⟨hused, hev⟩ := hturn hp
        refine ⟨⟨hev.stored hw, others, hused⟩, hev, fun r w' h => ?_⟩
        obtain ⟨p', k, hp', hk, -⟩ := updateEach_cons_eq_some h
        cases hp.symm.trans hp'
        exact ⟨w', ⟨n, k, hk⟩, .refl w'⟩
  | turn s =>
    cases s with
    | reaction r =>
      rw [List.mem_singleton.1 hy]
      have hshow : w.Move P _ _ := .show (e := .update (w.reactions.get r).id) trivial
      exact get (later rfl (.move hshow)
        (.call ⟨hshow.stored hw, (fun _ h => nomatch h), hw.reaction r⟩))
    | watcher r =>
      obtain ⟨⟨change, w₁⟩, hst, hy⟩ := exists_of_mem_elim hy
      rw [List.mem_singleton.1 hy]
      exact Watcher.update_meets hw ha hst
  | perform r m change callback => exact absurd rfl (hd r m change callback)

theorem fanOut_meets {d : Deed} (hx : Ready P (d, w)) (hy : y ∈ d.fanOut w) :
    (d.act (.ofFuel n)).Meets P w y := by
  obtain ⟨hw, ha⟩ := hx
  cases d with
  | insert o key v =>
    rw [List.mem_singleton.1 hy]
    have he : w.Evolves P (w.turns (.waiting o key) v) := evolves_turns ha.1 ha.2 rfl
    refine ⟨⟨he.stored hw, w.subscribersInUse, rfl⟩, he, fun r w' h => ?_⟩
    have h := (Object.insert_turns o key).symm.trans h
    obtain ⟨⟨k, u⟩, hk, hu⟩ := Option.map_eq_some_iff.1 h
    cases hu
    exact ⟨u, ⟨n, k, hk⟩, leaveBehind_evolves u (some key) k⟩
  | store c v =>
    by_cases hc : w.changes (.cell c) v
    · rw [mem_fanOut_store hy]
      have he : w.Evolves P (w.turns (.cell c) v) := evolves_turns ha trivial hc
      refine ⟨⟨he.stored hw, w.subscribersInUse, rfl⟩, he, fun r w' h => ?_⟩
      have h := (Cell.write_turns hc).symm.trans h
      obtain ⟨⟨k, u⟩, hk, hu⟩ := Option.map_eq_some_iff.1 h
      cases hu
      exact ⟨u, ⟨n, k, hk⟩, leaveBehind_evolves u none k⟩
    · simp only [fanOut, hc] at hy
      exact absurd hy List.not_mem_nil
  | _ => exact absurd hy List.not_mem_nil

theorem perform_encloses {r : Ref .watcher} {m : Ref .model} {change : Change} {callback : Callback}
    (hx : Ready P (perform r m change callback, w))
    (hy : y ∈ (perform r m change callback).parts (.ofFuel n) w) :
    Encloses P (perform r m change callback, w) y := by
  cases callback with
  | run id steps =>
    obtain ⟨hw, hm, -, hcallback⟩ := hx
    rw [List.mem_singleton.1 hy]
    have hsteps := hw.callback r
    rw [hcallback] at hsteps
    refine ⟨⟨hw.startCallback r m change (.run id steps), fun m' h => ?_, hsteps⟩, .refl _, ?_⟩
    · cases h
      exact hm
    · rintro u ⟨k, res, h⟩
      cases k with
      | zero => cases h
      | succ k => exact ⟨u, ⟨k, res, h⟩, .refl u⟩
  | _ => exact absurd hy List.not_mem_nil

/-- What a deed leads to lies on its course. -/
theorem Leads.encloses (hP : Uncounted P) (hx : Ready P x) (h : Leads x y) : Encloses P x y := by
  obtain ⟨d, w⟩ := x
  by_cases hd : ∃ r m change callback, d = perform r m change callback
  · obtain ⟨r, m, change, callback, rfl⟩ := hd
    obtain ⟨n, hy⟩ | hy := h
    · exact perform_encloses hx hy
    · exact absurd hy List.not_mem_nil
  have hne (r : Ref .watcher) (m : Ref .model) (change : Change) (callback : Callback) :
      d ≠ perform r m change callback := fun e => hd ⟨r, m, change, callback, e⟩
  have hout : outset (d, w) = w := by cases d <;> first | rfl | exact (hne _ _ _ _ rfl).elim
  -- An engine with which the deed comes to an end shows all that it leads to.
  have hmeets : (∃ n, (d.act (.ofFuel n)).Meets P w y) ∧
      ∀ k, (d.act (.ofFuel k) w).isSome → (d.act (.ofFuel k)).Meets P w y := by
    obtain ⟨n, hy⟩ | hy := h
    · exact ⟨⟨n, act_meets hP hx hne hy⟩, fun k hk => act_meets hP hx hne (parts_sub hk hy)⟩
    · exact ⟨⟨0, fanOut_meets hx hy⟩, fun k _ => fanOut_meets hx hy⟩
  obtain ⟨⟨n, hn⟩, hall⟩ := hmeets
  refine ⟨hn.ready, by rw [hout]; exact hn.before, ?_⟩
  rintro u ⟨k, r, hk⟩
  exact (hall k (Option.isSome_of_eq_some hk)).after r u hk

theorem Reaches.encloses (hP : Uncounted P) (hx : Ready P x) (h : Reaches x y) :
    Encloses P x y := by
  induction h with
  | refl => exact .refl hx
  | tail _ h ih => exact ih.trans (h.encloses hP ih.ready)

/-- Whether a deed is done next after another, by what leads to both. -/
inductive Next : Deed × World → Deed × World → Prop
  | session {n : Nat} {s : Step} {rest : List Step} {w : World} {p : Outcome × World} :
      w.step (.ofFuel n) s = some p → Next (step {} s, w) (session rest, p.2)
  | script {n : Nat} {f : Frame} {s : Step} {rest : List Step} {w w' : World} {a : Answer} :
      s.run (.ofFuel n) f w = some (.ok a, w') → Next (step f s, w) (script f rest, w')
  | loop {n times : Nat} {f : Frame} {steps : List Step} {w w' : World} :
      Step.runAll (.ofFuel n) f steps w = some (.ok (), w') →
        Next (script f steps, w) (step f (.loop times steps), w')
  | listen {n : Nat} {event : Event} {response : Response} {rest : List Listener} {w w' : World} :
      response.perform (.ofFuel n) event w = some (.ok (), w') →
        Next (respond event response, w) (listen event rest, w')
  | turns {n : Nat} {s : Subscriber} {rest : List Subscriber} {w : World}
      {p : Except Fault Unit × World} : s.update (.ofFuel n) w = some p →
        Next (turn s, w) (turns rest, World.afterTurn s p)

theorem Next.evolves (h : Next a b) : ∃ u, Ends a u ∧ u.Evolves P (outset b) := by
  cases h with
  | @session n s rest w p hp =>
    obtain ⟨⟨r, u⟩, hr, he⟩ := Option.bind_eq_some_iff.1 hp
    cases he
    exact ⟨u, ⟨n, r, hr⟩, .move (.meet u _)⟩
  | script hr => exact ⟨_, ⟨_, _, hr⟩, .refl _⟩
  | loop hr => exact ⟨_, ⟨_, _, hr⟩, .refl _⟩
  | listen hr => exact ⟨_, ⟨_, _, hr⟩, .refl _⟩
  | @turns n s rest w p hp => exact ⟨p.2, ⟨n, p.1, hp⟩, afterTurn_evolves s p⟩

/-- Whether one deed begins before another in what a deed leads to: it leads to the other, or it is
done in something that is over when the other begins. -/
inductive Before (start x y : Deed × World) : Prop
  | within : Reaches start x → Reaches x y → Before start x y
  | after {p a b : Deed × World} : Reaches start p → Leads p a → Leads p b → Next a b →
      Reaches a x → Reaches b y → Before start x y

theorem Before.reaches {start : Deed × World} (h : Before start x y) : Reaches start x := by
  cases h with
  | within hx _ => exact hx
  | after hp ha _ _ hx _ => exact hp.trans (.head ha hx)

theorem Before.evolves (hP : Uncounted P) {start : Deed × World} (hstart : Ready P start)
    (h : Before start x y) : (outset x).Evolves P (outset y) := by
  cases h with
  | within hx hy => exact (hy.encloses hP (hx.encloses hP hstart).ready).before
  | @after p a b hp ha hb hab hx hy =>
    have hpr := (hp.encloses hP hstart).ready
    have har := (ha.encloses hP hpr).ready
    have hx := Reaches.encloses hP har hx
    obtain ⟨u, hu, hub⟩ := hab.evolves (P := P)
    obtain ⟨v, hv, hvu⟩ := hx.after u hu
    have hy := (Reaches.encloses hP (hb.encloses hP hpr).ready hy).before
    exact (hx.ready.evolves hv).trans (hvu.trans (hub.trans hy))

theorem reaches_rest {before : List Step} {w w' : World} {outcomes : List Outcome}
    (h : w.steps (.ofFuel n) before = some (outcomes, w')) (after : List Step) :
    Reaches (.session (before ++ after), w) (.session after, w') := by
  induction before generalizing w outcomes with
  | nil =>
    cases h
    exact .refl
  | cons s rest ih =>
    obtain ⟨p, hp, h⟩ := Option.bind_eq_some_iff.1 h
    obtain ⟨q, hq, he⟩ := Option.bind_eq_some_iff.1 h
    cases he
    refine .head (.inl ⟨n, ?_⟩) (ih hq)
    simp only [parts, List.cons_append, hp]
    exact List.mem_cons_of_mem _ (List.mem_singleton_self _)

/-- Where a run ends is among the moments that it leads to. -/
theorem reaches_end {steps : List Step} {w w' : World} {outcomes : List Outcome}
    (h : w.steps (.ofFuel n) steps = some (outcomes, w')) :
    Reaches (.session steps, w) (.session [], w') := by
  have hr := reaches_rest h []
  rwa [List.append_nil] at hr

/-- The trace of every moment of a run tells how it came about. -/
theorem Reaches.past {trees : List Markup} {steps : List Step} {w₀ : World}
    (h₀ : World.ofTrees trees = some w₀) (h : Reaches (.session steps, w₀) x) :
    (outset x).Past := by
  obtain ⟨hbefore, hw₀, hnone⟩ := World.ofTrees_course (P := fun _ => True) h₀
  have hpast : w₀.Past := by
    rw [World.Past, hnone]
    exact hbefore
  have hready : Ready (fun _ => True) (.session steps, w₀) :=
    ⟨hw₀, Step.everyAll_of_forall (fun _ => trivial) steps⟩
  obtain ⟨hs, hc⟩ := (h.encloses (fun _ _ _ h => h) hready).before
  exact hpast.trans hc

end Deed

end ViewBinding
