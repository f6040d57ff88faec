import ViewBinding.Proofs.Turns

/-! Rendering a template is a look as well, at one path after the other. -/

namespace ViewBinding

variable {α β : Type} {w w' : World} {n : Nat}

instance : LawfulMonad Look := by
  refine LawfulMonad.mk' Look (fun x => ?_) (fun a f => ?_) fun x f g => ?_
  · ext1
    show x.run.bind (Look.next fun a => pure (id a)) = x.run
    cases x.run with
    | none => rfl
    | some p => obtain ⟨_ | _, ms⟩ := p <;> simp
  · ext1
    show ((f a).run.map fun (r, ns) => (r, [] ++ ns)) = (f a).run
    simp
  · ext1
    simp only [Look.run_bind, Option.bind_assoc]
    congr 1
    funext p
    obtain ⟨_ | a, ms⟩ := p
    · rfl
    · simp only [Look.next_ok, Look.run_bind]
      cases (f a).run with
      | none => rfl
      | some q =>
        obtain ⟨_ | b, ns⟩ := q
        · rfl
        · simp [Function.comp_def, Option.map_map]

def Action.Sees (x : Action α) (l : Sight → Look α) : Prop :=
  ∀ w, w.sight.Steady → x w = (l w.sight).run.map fun (res, ms) =>
    (res, (Mark.leaveAll ms ({}, w)).2)

theorem Mark.leaveAll_fst (ms : List Mark) (w : World) : (Mark.leaveAll ms ({}, w)).1 = {} := by
  induction ms generalizing w with
  | nil => rfl
  | cons m ms ih =>
    cases m with
    | read source => exact ih w
    | computed name => exact ih _

namespace Action.Sees

theorem pure (a : α) : Sees (Pure.pure a : Action α) fun _ => Pure.pure a := fun _ _ => rfl

theorem bind {x : Action α} {l : Sight → Look α} {f : α → Action β} {k : α → Sight → Look β}
    (hx : Sees x l) (hf : ∀ a, Sees (f a) (k a)) :
    Sees (x >>= f) fun d => l d >>= fun a => k a d := by
  intro w hw
  rw [bind_apply, hx w hw, Look.run_bind]
  cases (l w.sight).run with
  | none => rfl
  | some p =>
    obtain ⟨g | a, ms⟩ := p
    · rfl
    · have hs := Mark.sight_leaveAll ms ({}, w)
      have ha := hf a (Mark.leaveAll ms ({}, w)).2 (hs ▸ hw)
      rw [hs] at ha
      simp only [Option.map_some, Option.bind_some, Look.next_ok, ha, Option.map_map]
      congr 1
      funext q
      have he : Mark.leaveAll ms ({}, w) = ({}, (Mark.leaveAll ms ({}, w)).2) :=
        Prod.ext (Mark.leaveAll_fst ms w) rfl
      simp only [Function.comp, Mark.leaveAll_append]
      rw [he]

theorem mapM {ss : List α} {f : α → Action β} {k : α → Sight → Look β}
    (hf : ∀ a, Sees (f a) (k a)) :
    Sees (ss.mapM f) fun d => ss.mapM fun a => k a d := by
  induction ss with
  | nil => exact pure []
  | cons a ss ih =>
    simp only [List.mapM_cons]
    exact bind (hf a) fun b => bind ih fun bs => pure (b :: bs)

theorem once {x : Reading Value} {l : Sight → Look Value} (hx : x.Sees l) : Sees x.once l :=
  fun _ hw => hx.once_apply hw

end Action.Sees

namespace Look

theorem Lasts.mapM {d d' : Sight} {ss : List α} {f f' : α → Look β}
    (hf : ∀ a, Lasts d d' (f a) (f' a)) : Lasts d d' (ss.mapM f) (ss.mapM f') := by
  induction ss with
  | nil => exact .refl _
  | cons a ss ih =>
    rw [List.mapM_cons, List.mapM_cons]
    exact .bind (hf a) fun b => .bind ih fun bs => .refl _

theorem Within.mapM {ss : List α} {f : α → Look β} (hf : ∀ a, (f a).Within w fun _ => True) :
    (ss.mapM f).Within w fun _ => True := by
  induction ss with
  | nil => exact .pure trivial
  | cons a ss ih =>
    rw [List.mapM_cons]
    exact .bind (hf a) fun b _ => .bind ih fun bs _ => .pure trivial

end Look

namespace Template

variable (d : Sight) (compute : Computed → Look Value)

def lookAt (m : Ref .model) : Segment → Look String
  | .literal text => return text
  | .path path => return (← ViewModel.look d compute m path).text

def look (t : Template) (m : Ref .model) : Look String := do
  let texts ← t.segments.mapM (lookAt d compute m)
  return String.join texts

end Template

theorem Template.render_sees (t : Template) (m : Ref .model) :
    Action.Sees (t.render (Engine.ofFuel n).compute m) fun d => t.look d (d.compute n) m := by
  refine .bind (.mapM fun segment => ?_) fun texts => .pure _
  cases segment with
  | literal text => exact .pure text
  | path path =>
    exact .bind (.once (Reading.Sees.model (Reading.Sees.compute n) m path)) fun v => .pure _

theorem Template.look_within (hw : w.Valid) {m : Ref .model} (hm : m.index < w.models.size)
    (t : Template) : (t.look w.sight (w.sight.compute n) m).Within w fun _ => True := by
  refine .bind (.mapM fun segment => ?_) fun texts _ => .pure trivial
  cases segment with
  | literal text => exact .pure trivial
  | path path =>
    exact .bind (ViewModel.look_within hw.closed (hw.bounded n) hm path) fun v _ => .pure trivial

theorem Template.look_lasts {d d' : Sight} {compute compute' : Computed → Look Value}
    (hd : d.Later d') (hc : ∀ p, d.Shows p → Look.Lasts d d' (compute p) (compute' p))
    {m : Ref .model} (hm : d.alive m) (t : Template) :
    Look.Lasts d d' (t.look d compute m) (t.look d' compute' m) := by
  refine .bind (.mapM fun segment => ?_) fun texts => .refl _
  cases segment with
  | literal text => exact .refl _
  | path path => exact .bind (ViewModel.look_lasts hd hc hm path) fun v => .refl _

/-- However deep computed properties may be nested, a template has one text only. -/
theorem Template.look_unique (hw : w.Valid) {m : Ref .model} (hm : w.modelAlive m) {t : Template}
    {k : Nat} {a b : Except Fault String × List Mark}
    (ha : (t.look w.sight (w.sight.compute n) m).run = some a)
    (hb : (t.look w.sight (w.sight.compute k) m).run = some b) : a = b :=
  Look.unique (l := fun n => t.look w.sight (w.sight.compute n) m) (fun hn =>
    t.look_lasts (.refl w.sight)
      (fun _ hp => Sight.compute_lasts (.refl w.sight) hw.tracked hn hp) hm) ha hb

theorem Action.Sees.eq_some {x : Action α} {l : Sight → Look α} (hx : x.Sees l)
    (hw : w.sight.Steady) {res : Except Fault α} (h : x w = some (res, w')) :
    (∃ ms, (l w.sight).run = some (res, ms)) ∧ ∃ es, w' = { w with trace := es } := by
  rw [hx w hw, Option.map_eq_some_iff] at h
  obtain ⟨⟨res', ms⟩, hl, he⟩ := h
  obtain ⟨rfl, rfl⟩ := Prod.mk.inj he
  exact ⟨⟨ms, hl⟩, Mark.leaveAll_nobody ms w⟩

def Engine.Idles (e : Engine) (steps : List Step) : Prop :=
  ∀ f w p, w.Valid → e.call f steps w = some p → w.Idle [] p.2

theorem Callback.render_apply {e : Engine} {r : Ref .watcher} {m : Ref .model} {change : Change}
    (node : Ref .node) (t : Template) : (Callback.render node t).perform e r m change w =
      if w.modelAlive m then
        (t.render e.compute m (w.tell (.called r (.render node t) change))).map fun p =>
          match p.1 with
          | .error g => (.error g, p.2)
          | .ok s => (.ok (), { p.2.tell (.wrote m .text node s) with
              view := p.2.view.write .text node s })
      else some (.error .detached, w.tell (.called r (.render node t) change)) := by
  have halive : w.modelAlive m = (w.tell (.called r (.render node t) change)).modelAlive m := rfl
  rw [perform, Action.tell_bind, Action.bind_apply, ViewModel.check_apply, halive]
  generalize w.tell (.called r (.render node t) change) = w
  by_cases hm : w.modelAlive m
  · simp only [hm, if_true]
    rw [Action.bind_apply]
    cases t.render e.compute m w with
    | none => rfl
    | some p => obtain ⟨_ | s, w'⟩ := p <;> rfl
  · simp only [hm]
    rfl

theorem Callback.perform_idle (hw : w.Valid) {r : Ref .watcher} {m : Ref .model} {change : Change}
    {callback : Callback}
    (hc : ∀ id steps, callback = .run id steps → (Engine.ofFuel n).Idles steps)
    {p : Except Fault Unit × World}
    (h : callback.perform (Engine.ofFuel n) r m change w = some p) : w.Idle [] p.2 := by
  cases callback with
  | run id steps =>
    have hn := World.Noted.trace w (w.trace.push (.called r (.run id steps) change))
    exact hn.idle.trans (hc id steps rfl _ _ p (hn.valid hw) h)
  | write face node =>
    cases h
    exact .of_eq rfl rfl rfl rfl rfl rfl rfl
  | render node t =>
    rw [render_apply] at h
    split at h
    · obtain ⟨⟨res, w₁⟩, hr, rfl⟩ := Option.map_eq_some_iff.1 h
      have hsteady : (w.tell (.called r (.render node t) change)).sight.Steady := hw.tracked.steady
      obtain ⟨-, es, rfl⟩ := (t.render_sees m).eq_some hsteady hr
      cases res <;> exact .of_eq rfl rfl rfl rfl rfl rfl rfl
    · cases h
      exact .of_eq rfl rfl rfl rfl rfl rfl rfl

theorem CalmTurns.of_idles {L : List Subscriber} (hw : w.Valid) (hL : ∀ s ∈ L, ∃ r, s = .watcher r ∧
    r.index < w.watchers.size ∧ ∀ id steps, (w.watchers.get r).callback = .run id steps →
      (Engine.ofFuel n).Idles steps) : CalmTurns (Engine.ofFuel n) L w := by
  induction L generalizing w with
  | nil => trivial
  | cons s rest ih =>
    obtain ⟨r, rfl, hr, hcb⟩ := hL s List.mem_cons_self
    have hcalm : Subscriber.Calm (Engine.ofFuel n) (.watcher r) w := fun c w₁ hst p hp =>
      Callback.perform_idle (Watcher.valid_of_starts hw hr hst) hcb hp
    refine ⟨hcalm, fun p hp => ?_⟩
    have hpass := ((Subscriber.update_settling (Engine.calls n)).turn (s := .watcher r) hw hr hp).1
    have hi := hcalm.idle hw hr hp
    refine ih hpass.valid fun s hs => ?_
    obtain ⟨r', rfl, hr', hcb'⟩ := hL s (List.mem_cons_of_mem _ hs)
    refine ⟨r', rfl, Nat.lt_of_lt_of_le hr' hi.watchers, fun id steps h => hcb' id steps ?_⟩
    rw [← h, hi.callback r' hr']

end ViewBinding
