import ViewBinding.Proofs.Course.Run
import ViewBinding.Proofs.Guests.Engines

/-! Whole runs with guests, beside the runs of what is left of their steps. -/

namespace ViewBinding

variable {G : List String} {p q : Pairing} {w w' v : World} {n : Nat}

/-! The beginning of a run. -/

namespace World

theorem empty_twin : World.Twin G ⟨fun _ _ => False, fun _ => False⟩ {} {} where
  fits := ⟨fun h => h.elim, fun h => h.elim, fun h => h.elim, fun h => h.elim, fun h => h.elim⟩
  objects _ _ h := h.elim
  cells _ _ h := h.elim
  watchers _ _ h := h.elim
  guests _ h := h.elim
  listed := .nil
  models _ _ h := h.elim
  registriesSize := rfl
  registries _ := .empty
  reactionsSize := rfl
  reactions _ := ⟨rfl, trivial, rfl⟩
  modelsSize := rfl
  view := rfl
  names :=
    { models := rfl
      made := fun _ _ h => by simp at h
      watchers := fun _ _ => by simp
      guests := fun _ _ => by simp
      reactions := rfl
      cells := fun _ => by simp
      registries := rfl
      values := fun _ => by simp }
  modelsInUse := rfl
  used _ h := absurd h List.not_mem_nil
  subscribersInUse := .nil
  knownNodes := rfl
  trace := .nil

theorem ofTrees_twin {trees : List Markup} (h : World.ofTrees trees = some w) :
    ∃ p, w.Twin G p w := by
  obtain ⟨⟨r, w₁⟩, hr, rfl⟩ := Option.map_eq_some_iff.1 h
  have hp : Action.Parallel G ⟨fun _ _ => False, fun _ => False⟩
      (trees.forM fun tree => discard (Script.plant tree))
      (trees.forM fun tree => discard (Script.plant tree)) fun _ _ _ => True :=
    .forM fun tree _ => .bind (Script.plant_parallel tree) fun _ _ _ _ _ => .pure fun _ _ => trivial
  obtain ⟨p, r', w₂, hr', -, hw, -⟩ := hp _ _ _ le_rfl (empty_twin (G := G)) r w₁ hr
  obtain rfl := (Prod.mk.inj (Option.some.inj (hr.symm.trans hr'))).2
  exact ⟨p, hw⟩

end World

/-! What a step answers and shows. -/

structure Outcome.Twin (G : List String) (p : Pairing) (o o' : Outcome) : Prop where
  answer : EndsAlike (Answer.Twin p) o.answer o'.answer
  effects : Effect.Twins G p o.effects o'.effects

theorem Outcome.Twin.mono {o o' : Outcome} (hq : p ≤ q) (h : o.Twin G p o') : o.Twin G q o' :=
  ⟨h.answer.mono fun _ _ => Answer.Twin.mono hq, h.effects.mono hq⟩

theorem Answer.Twin.nodesMet {a a' : Answer} (h : a.Twin p a') : a.nodesMet = a'.nodesMet := by
  cases a <;> cases a' <;> cases h <;> rfl

theorem Effect.Twin.nodesMet {e e' : Effect} (h : e.Twin p e') : e.nodesMet = e'.nodesMet := by
  cases e <;> cases e' <;> first | rfl | cases h <;> rfl

theorem Effect.nodesMet_of_hidden {e : Effect} (h : e.shown G = false) : e.nodesMet = [] := by
  cases e <;> first | rfl | cases h

theorem Effect.Twins.nodesMet {es es' : Array Effect} (h : Effect.Twins G p es es') :
    es.toList.flatMap Effect.nodesMet = es'.toList.flatMap Effect.nodesMet := by
  have hfilter (es : List Effect) :
      (es.filter (Effect.shown G)).flatMap Effect.nodesMet = es.flatMap Effect.nodesMet := by
    induction es with
    | nil => rfl
    | cons e es ih =>
      rw [List.flatMap_cons, ← ih]
      cases he : e.shown G with
      | false => rw [List.filter_cons_of_neg (by simp [he]), nodesMet_of_hidden he, List.nil_append]
      | true => rw [List.filter_cons_of_pos he, List.flatMap_cons]
  have hrel {es es' : List Effect} (h : List.Forall₂ (Effect.Twin p) es es') :
      es.flatMap Effect.nodesMet = es'.flatMap Effect.nodesMet := by
    induction h with
    | nil => rfl
    | cons he _ ih => rw [List.flatMap_cons, List.flatMap_cons, he.nodesMet, ih]
  rw [← hfilter, ← hfilter es'.toList]
  exact hrel h

section

variable {α β : Type}

def Action.Gives (Q : α → Prop) (x : Action α) : Prop := ∀ w a w', x w = some (.ok a, w') → Q a

namespace Action.Gives

variable {Q : β → Prop}

theorem pure {b : β} (h : Q b) : Gives Q (Pure.pure b) := by
  intro w a w' ha
  cases ha
  exact h

theorem bind {x : Action α} {f : α → Action β} (hf : ∀ a, Gives Q (f a)) : Gives Q (x >>= f) := by
  intro w b w' h
  obtain ⟨g, -, hg⟩ | ⟨a, w₁, -, h⟩ := bind_eq_some h
  · cases hg
  · exact hf a w₁ b w' h

theorem usingModel {m : Ref .model} {x : Action β} (hx : Gives Q x) :
    Gives Q (Action.usingModel m x) := by
  intro w b w' h
  obtain ⟨⟨r, v⟩, hr, he⟩ := Option.map_eq_some_iff.1 h
  cases he
  exact hx _ b v hr

end Action.Gives

end

theorem Step.guest_meets {s : Step} (hg : s.isGuest G = true) (e : Engine) (f : Frame) :
    (s.run e f).Gives (Answer.nodesMet · = []) := by
  cases s with
  | watch name id path steps =>
    exact .bind fun _ => .bind fun _ => .usingModel (.bind fun _ => .bind fun _ => .pure rfl)
  | watcher name id path steps =>
    exact .bind fun _ => .bind fun _ => .usingModel
      (.bind fun _ => .bind fun _ => .bind fun _ => .pure rfl)
  | dropWatcher id => exact .bind fun _ => .bind fun _ => .pure rfl
  | _ => exact absurd hg Bool.false_ne_true

namespace World

/-! Steps. -/

theorem run_of_receive {s : Step} (ha : (s.receive G (Engine.admitting G n) {} w).isSome)
    {r : Except Fault Answer} (h : s.run (Engine.ofFuel n) {} w = some (r, v)) :
    s.receive G (Engine.admitting G n) {} w = some (r, v) := by
  obtain ⟨p, hp⟩ := Option.isSome_iff_exists.1 ha
  have hrun := Step.receive_below (Engine.admitting_below n) {} s w p hp
  rw [hp, ← hrun, h]

theorem frame_twin : Frame.Twin p {} {} := ⟨rfl, fun _ h => (nomatch h), .none, rfl⟩

theorem Twin.since {u u' : World} {hs hs' : List Happening} (hw : w.Twin G p w')
    (hu : u.Twin G q u') (ht : u.trace.toList = w.trace.toList ++ hs)
    (ht' : u'.trace.toList = w'.trace.toList ++ hs') :
    Effect.Twins G q (u.effectsFrom w.trace.size) (u'.effectsFrom w'.trace.size) := by
  have hbefore := hw.trace.length_eq
  have hall := hu.trace
  rw [Effect.Twins, Array.toList_filterMap, Array.toList_filterMap, ht, ht', List.filterMap_append,
    List.filterMap_append, List.filter_append, List.filter_append] at hall
  rw [Array.toList_filterMap, Array.toList_filterMap] at hbefore
  rw [Effect.Twins, toList_effectsFrom ht, toList_effectsFrom ht']
  have hrest := List.forall₂_drop (List.length ((w.trace.toList.filterMap
    Happening.effect?).filter (Effect.shown G))) hall
  rwa [List.drop_left, hbefore, List.drop_left] at hrest

theorem step_twin {s : Step} {o : Outcome} (hw : w.Twin G p w') (hs : s.Every (Step.Fair G))
    (hg : s.isGuest G = false) (ha : (s.receive G (Engine.admitting G n) {} w).isSome)
    (h : w.step (Engine.ofFuel n) s = some (o, v)) :
    ∃ q o' v', w'.step (Engine.ofFuel n) (s.core G) = some (o', v') ∧ p ≤ q ∧ v.Twin G q v' ∧
      o.Twin G q o' := by
  obtain ⟨⟨r, u⟩, hr, he⟩ := Option.bind_eq_some_iff.1 h
  cases he
  obtain ⟨q, r', u', hr', hq, hu, hrr⟩ := Step.receive_parallel (Engine.admitting_twin n)
    frame_twin hs hg p _ _ le_rfl hw r u (run_of_receive ha hr)
  obtain ⟨_, ht⟩ := trace_of_run hr
  obtain ⟨_, ht'⟩ := trace_of_run hr'
  have heffects := hw.since hu ht ht'
  have hmet : (r.toOption.map Answer.nodesMet).getD [] ++
      (u.effectsFrom w.trace.size).toList.flatMap Effect.nodesMet =
        (r'.toOption.map Answer.nodesMet).getD [] ++
          (u'.effectsFrom w'.trace.size).toList.flatMap Effect.nodesMet := by
    rw [heffects.nodesMet]
    cases r <;> cases r' <;> first | cases hrr | skip
    · rfl
    · rw [Except.toOption, Except.toOption, Option.map_some, Option.map_some, hrr.nodesMet]
  refine ⟨q, _, _, Option.bind_eq_some_iff.2 ⟨_, hr', rfl⟩, hq, ?_, hrr, heffects⟩
  show World.Twin G q (u.meet _) (u'.meet _)
  rw [hmet]
  exact hu.meet _

theorem guest_twin {s : Step} {o : Outcome} (hw : w.Twin G p w') (hs : s.Every (Step.Fair G))
    (hg : s.isGuest G = true) (ha : (s.receive G (Engine.admitting G n) {} w).isSome)
    (h : w.step (Engine.ofFuel n) s = some (o, v)) :
    ∃ q, p ≤ q ∧ v.Twin G q w' ∧ o.effects.toList.filter (Effect.shown G) = [] := by
  obtain ⟨⟨r, u⟩, hr, he⟩ := Option.bind_eq_some_iff.1 h
  cases he
  obtain ⟨q, hq, hu⟩ := (Step.guest_aside (Engine.admitting_twin n) frame_twin hs hg).1 p _ _
    le_rfl hw r u (run_of_receive ha hr)
  obtain ⟨_, ht⟩ := trace_of_run hr
  have heffects := hw.since hu ht (List.append_nil w'.trace.toList).symm
  have hnone : (w'.effectsFrom w'.trace.size).toList = [] :=
    toList_effectsFrom (List.append_nil _).symm
  have hmet : (r.toOption.map Answer.nodesMet).getD [] = [] := by
    cases r with
    | error f => rfl
    | ok a => exact Step.guest_meets hg _ _ _ a u hr
  have htrace : (u.effectsFrom w.trace.size).toList.flatMap Effect.nodesMet = [] := by
    rw [heffects.nodesMet, hnone]
    rfl
  refine ⟨q, hq, ?_, ?_⟩
  · show World.Twin G q (u.meet _) w'
    rw [show _ ++ _ = ([] : List (Ref .node)) from by rw [hmet, htrace]; rfl]
    exact hu
  · rw [Effect.Twins, hnone] at heffects
    exact List.forall₂_nil_right_iff.1 heffects

/-- The outcomes of the steps that guests have no part in. -/
def kept (G : List String) : List Step → List Outcome → List Outcome
  | s :: steps, o :: outcomes =>
    if s.isGuest G then kept G steps outcomes else o :: kept G steps outcomes
  | _, _ => []

/-- What the steps of a run show, one after the other. -/
def shownIn (G : List String) (outcomes : List Outcome) : List Effect :=
  (outcomes.flatMap (·.effects.toList)).filter (Effect.shown G)

theorem shownIn_cons (o : Outcome) (outcomes : List Outcome) : shownIn G (o :: outcomes) =
    o.effects.toList.filter (Effect.shown G) ++ shownIn G outcomes := by
  rw [shownIn, List.flatMap_cons, List.filter_append, shownIn]

/-- What is left of a run is a run of what is left of its steps. -/
theorem steps_core {steps : List Step} {outcomes : List Outcome} (hw : w.Twin G p w')
    (hs : Step.EveryAll (Step.Fair G) steps) (ha : w.Admits G n steps)
    (h : w.steps (Engine.ofFuel n) steps = some (outcomes, v)) :
    ∃ q outcomes' v', w'.steps (Engine.ofFuel n) (Step.coreAll G steps) = some (outcomes', v') ∧
      p ≤ q ∧ v.Twin G q v' ∧ List.Forall₂ (Outcome.Twin G q) (kept G steps outcomes) outcomes' ∧
      List.Forall₂ (Effect.Twin q) (shownIn G outcomes) (shownIn G outcomes') := by
  induction steps generalizing w w' p outcomes with
  | nil =>
    cases h
    exact ⟨p, [], w', rfl, le_rfl, hw, .nil, .nil⟩
  | cons s rest ih =>
    obtain ⟨⟨o, w₁⟩, h₁, h⟩ := Option.bind_eq_some_iff.1 h
    obtain ⟨⟨os, w₂⟩, h₂, he⟩ := Option.bind_eq_some_iff.1 h
    cases he
    have hrest := ha.2 o w₁ h₁
    rw [Step.coreAll, kept]
    cases hg : s.isGuest G with
    | true =>
      obtain ⟨q, hq, hw₁, hnone⟩ := guest_twin hw hs.1 hg ha.1 h₁
      obtain ⟨l, outcomes', v', hrun, hl, hv, hos, hes⟩ := ih hw₁ hs.2 hrest h₂
      refine ⟨l, outcomes', v', hrun, hq.trans hl, hv, hos, ?_⟩
      rwa [shownIn_cons, hnone, List.nil_append]
    | false =>
      obtain ⟨q, o', w₁', hstep, hq, hw₁, ho⟩ := step_twin hw hs.1 hg ha.1 h₁
      obtain ⟨l, outcomes', v', hrun, hl, hv, hos, hes⟩ := ih hw₁ hs.2 hrest h₂
      have hol := ho.mono hl
      refine ⟨l, o' :: outcomes', v', ?_, hq.trans hl, hv, .cons hol hos, ?_⟩
      · exact Option.bind_eq_some_iff.2 ⟨_, hstep, Option.bind_eq_some_iff.2 ⟨_, hrun, rfl⟩⟩
      · rw [shownIn_cons, shownIn_cons]
        exact List.rel_append hol.effects hes

end World

end ViewBinding
