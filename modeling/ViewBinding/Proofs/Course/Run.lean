import ViewBinding.Proofs.Course.Steps
import ViewBinding.Proofs.Judgement
import ViewBinding.Session

/-! Whole runs proceed in moves, and the trace tells all that happens in them. -/

namespace ViewBinding

variable {P : Step → Prop} {n : Nat} {w w' : World}

namespace Judgement

def proceeds (P : Step → Prop) (n : Nat) : Judgement Uses where
  holds u x := (x (Engine.ofFuel n)).Proceeds P u
  here u w := w.uses = u
  later u v := v = u
  frame u f := f.InUse u
  value _ _ := True
  object _ _ := True
  model u m := m ∈ u.models
  takes s := s.Every P
  takesAll := Step.EveryAll P
  writes := Writable P
  calls := Callable P

theorem proceeds_looks : (proceeds P n).Looks where
  pure _ a := .pure a
  throw _ g := .throw g
  get h := .get fun w _ hu => h w hu
  bind hx hk := .bind hx fun a => hk a _ rfl
  value hf hk := .bind (Script.value_proceeds n _ _) fun v => hk v _ rfl hf trivial
  withModel hf hx :=
    Script.withModel_proceeds hf _ fun m => hx m _ (hf.cons m) List.mem_cons_self
  findNode hk := Script.findNode_proceeds (hk _ rfl)
  object _ _ := trivial
  root _ _ := trivial
  null _ := trivial
  read path _ _ := (ViewModel.read_proceeds (Engine.compute_proceeds n) _ path).once.proceeds
  property key _ _ := (Object.read_proceeds (Engine.compute_proceeds n) _ key).once.proceeds
  render t _ _ := (Template.render_glances n t _).proceeds
  emit he := .emit he
  rename h _ := Script.changeNames_proceeds h
  save name _ := Script.changeNames_proceeds fun _ _ => .value name _
  addCell _ := .modifyGet (fun _ => rfl) fun w _ _ => ⟨_, .addCell w _⟩
  addReaction hs := .modify (fun _ => rfl) fun w _ _ => ⟨_, .addReaction w _ hs.2⟩
  addRegistry _ := .modify (fun _ => rfl) fun w _ _ => ⟨_, .addRegistry w⟩
  edit hs h := .modify (fun _ => rfl) fun w _ hu => ⟨_, .edit ((h w hu).edited hs.head)⟩
  build _ hs := Script.build_proceeds _ _ (fun hc => ⟨_, hs.head, hc⟩) hs.2
  track name reaction paths _ := Script.track_proceeds name reaction paths
  trackCell reaction id _ := Script.trackCell_proceeds reaction id
  register _ id reaction := Script.register_proceeds id reaction
  create _ := Script.create_proceeds _

theorem proceeds_acts (he : Engine.Proceeds P (Engine.ofFuel n)) : (proceeds P n).Acts where
  toLooks := proceeds_looks
  frame_later h hf := h ▸ hf
  object_later _ _ := trivial
  model_later h hm := h ▸ hm
  string _ _ := trivial
  finished _ a? := .finished a?
  faultOf hx := .faultOf hx
  whileAlive hx := .whileAlive (hx _ List.mem_cons_self)
  writes hs hw := ⟨_, Step.Every.head hs, hw⟩
  calls hs hc := ⟨_, Step.Every.head hs, hc⟩
  store hp _ := Cell.write_proceeds he hp _ _
  setProperty key hp _ := Object.write_proceeds he hp _ key _
  assign p hp _ _ := Path.assign_proceeds he hp p _ _
  call name event hc hm := ViewModel.call_proceeds he hc hm name event
  compile _ hm := Settings.compile_proceeds hm _ _
  notify _ r := Source.notify_proceeds he (.registry r) fun _ _ h => nomatch h
  mount _ hs := Script.mount_proceeds _ _ _ _ (fun hc => ⟨_, hs.head, hc⟩) hs.2
  watch hf hs := Script.withModel_proceeds hf _ fun _ =>
    .reply_get (ViewModel.watch_proceeds (.run _ _) hs.2 n _ _)
  watcher hf hs := Script.watcher_proceeds hf _ _ _ hs.2
  watcherUpdate _ id := Script.watcherUpdate_proceeds he id
  cond hs := hs.2
  attempt hs := hs.2
  loop hs := hs.2
  cons hs := hs

end Judgement

section Steps

variable (he : Engine.Proceeds P (Engine.ofFuel n)) {f : Frame} {u : Uses} (hf : f.InUse u)
include he hf

/-- A step proceeds if its condition holds of it and of every step in it. -/
theorem Step.run_proceeds (s : Step) (hs : s.Every P) :
    (s.run (Engine.ofFuel n) f).Proceeds P u := (Judgement.proceeds_acts he).run hf s hs

theorem Step.runAll_proceeds (steps : List Step) (hs : Step.EveryAll P steps) :
    (Step.runAll (Engine.ofFuel n) f steps).Proceeds P u :=
  (Judgement.proceeds_acts he).runAll hf steps hs

end Steps

/-- Scripts that call each other at most `n` levels deep proceed, for every `n`. -/
theorem Engine.proceeds (n : Nat) : Engine.Proceeds P (Engine.ofFuel n) := by
  induction n with
  | zero => exact fun _ _ _ _ _ => .unfinished
  | succ n ih => exact fun f steps u hf hs => Step.runAll_proceeds ih hf steps hs

namespace World

variable {hs : List Happening}

def Past (w : World) : Prop := Course (fun _ => True) {} w.trace.toList w

theorem empty_stored : ({} : World).Stored P := .of_default rfl rfl rfl

theorem Past.trans (h : w.Past) (hc : w.Course (fun _ => True) hs w') : w'.Past := by
  rw [Past, Course.trace hc]
  exact Along.trans h hc

theorem run_course (hw : w.Stored P) {s : Step} (hs : s.Every P) {r : Except Fault Answer}
    (h : s.run (Engine.ofFuel n) {} w = some (r, w')) : ∃ hs, w.Course P hs w' := by
  have hf : Frame.InUse {} w.uses := fun m (h : none = some m) => nomatch h
  exact (Step.run_proceeds (Engine.proceeds n) hf s hs w r w' rfl hw h).2

theorem trace_of_run {s : Step} {r : Except Fault Answer}
    (h : s.run (Engine.ofFuel n) {} w = some (r, w')) :
    ∃ hs, w'.trace.toList = w.trace.toList ++ hs := by
  obtain ⟨hs, hc⟩ := run_course (w.stored_of_forall fun _ => trivial)
    (Step.every_of_forall (fun _ => trivial) s) h
  exact ⟨hs, Course.trace hc⟩

theorem toList_effectsFrom (h : w'.trace.toList = w.trace.toList ++ hs) :
    (w'.effectsFrom w.trace.size).toList = hs.filterMap Happening.effect? := by
  have hlen : w'.trace.size - w.trace.size = hs.length := by
    rw [← Array.length_toList, ← Array.length_toList, h, List.length_append,
      Nat.add_sub_cancel_left]
  rw [effectsFrom, Array.toList_filterMap, Array.toList_extract, List.extract_eq_take_drop, hlen,
    h, ← Array.length_toList, List.drop_left, List.take_length]

theorem step_course (hw : w.Stored P) {s : Step} (hs : s.Every P) {outcome : Outcome}
    (h : w.step (Engine.ofFuel n) s = some (outcome, w')) : ∃ hs, w.Course P hs w' ∧
      outcome.effects.toList = hs.filterMap Happening.effect? := by
  obtain ⟨⟨r, w₁⟩, hr, he⟩ := Option.bind_eq_some_iff.1 h
  cases he
  obtain ⟨hs', hc⟩ := run_course hw hs hr
  refine ⟨hs', ?_, toList_effectsFrom (Course.trace hc)⟩
  have hmeet : w₁.Move P [] (w₁.meet ((r.toOption.map Answer.nodesMet).getD [] ++
      (w₁.effectsFrom w.trace.size).toList.flatMap Effect.nodesMet)) := .meet w₁ _
  have hall := hc.snoc hmeet
  rwa [List.append_nil] at hall

theorem steps_course (hw : w.Stored P) {steps : List Step} (hs : Step.EveryAll P steps)
    {outcomes : List Outcome} (h : w.steps (Engine.ofFuel n) steps = some (outcomes, w')) :
    ∃ hs, w.Course P hs w' ∧
      outcomes.flatMap (·.effects.toList) = hs.filterMap Happening.effect? := by
  induction steps generalizing w outcomes with
  | nil =>
    cases h
    exact ⟨[], .nil _, rfl⟩
  | cons s rest ih =>
    obtain ⟨⟨outcome, w₁⟩, h₁, h⟩ := Option.bind_eq_some_iff.1 h
    obtain ⟨⟨outcomes', w₂⟩, h₂, he⟩ := Option.bind_eq_some_iff.1 h
    cases he
    obtain ⟨hs₁, hc₁, ht₁⟩ := step_course hw hs.1 h₁
    obtain ⟨hs₂, hc₂, ht₂⟩ := ih (Course.stored hc₁ hw) hs.2 h₂
    refine ⟨hs₁ ++ hs₂, hc₁.trans hc₂, ?_⟩
    rw [List.flatMap_cons, ht₁, ht₂, List.filterMap_append]

theorem steps_append {e : Engine} {u : World} {before after : List Step}
    {outcomes outcomes' : List Outcome} (h : w.steps e before = some (outcomes, u))
    (h' : u.steps e after = some (outcomes', w')) :
    w.steps e (before ++ after) = some (outcomes ++ outcomes', w') := by
  induction before generalizing w outcomes with
  | nil =>
    cases h
    exact h'
  | cons s rest ih =>
    obtain ⟨⟨outcome, w₁⟩, h₁, h⟩ := Option.bind_eq_some_iff.1 h
    obtain ⟨⟨outcomes₂, w₂⟩, h₂, he⟩ := Option.bind_eq_some_iff.1 h
    cases he
    exact Option.bind_eq_some_iff.2 ⟨(outcome, w₁), h₁,
      Option.bind_eq_some_iff.2 ⟨(outcomes₂ ++ outcomes', w'), ih h₂, rfl⟩⟩

theorem trace_plantAll {trees : List Markup} {r : Except Fault Unit}
    (h : (trees.forM fun tree => discard (Script.plant tree)) w = some (r, w')) :
    w'.trace = w.trace := by
  induction trees generalizing w with
  | nil =>
    cases h
    rfl
  | cons tree trees ih =>
    obtain ⟨g, hd, -⟩ | ⟨_, w₁, hd, h⟩ :=
      Action.bind_eq_some (x := discard (Script.plant tree)) h
    · cases hd
    · have ht := ih h
      cases hd
      exact ht

theorem ofTrees_course {trees : List Markup} (h : World.ofTrees trees = some w) :
    Course P {} [] w ∧ w.Stored P ∧ w.trace = #[] := by
  obtain ⟨⟨r, w₁⟩, hr, rfl⟩ := Option.map_eq_some_iff.1 h
  have hp : (trees.forM fun tree => discard (Script.plant tree)).Proceeds P ⟨[], []⟩ :=
    .forM fun tree _ => .map (.get fun _ _ _ => .bind (.modifyGet (fun _ => rfl) fun _ _ _ =>
      ⟨_, .edit (.create tree)⟩) fun n => .bind (.modify (fun _ => rfl) fun w _ _ =>
        ⟨_, .meet w _⟩) fun _ => .pure n)
  obtain ⟨-, hs, hc⟩ := hp {} r w₁ rfl empty_stored hr
  have ht := trace_plantAll hr
  have hnone : hs = [] := by
    have h := Course.trace hc
    rw [ht] at h
    exact List.self_eq_append_right.1 h
  subst hnone
  exact ⟨hc, hc.stored empty_stored, ht⟩

/-- The trace of a run tells what the run shows. -/
theorem steps_past {trees : List Markup} {steps : List Step} {outcomes : List Outcome} {w₀ : World}
    (h₀ : World.ofTrees trees = some w₀)
    (h : w₀.steps (Engine.ofFuel n) steps = some (outcomes, w)) :
    w.Past ∧ w.trace.toList.filterMap Happening.effect? = outcomes.flatMap (·.effects.toList) := by
  obtain ⟨hbefore, hw₀, hnone⟩ := ofTrees_course (P := fun _ => True) h₀
  obtain ⟨hs, hc, hshown⟩ :=
    steps_course hw₀ (Step.everyAll_of_forall (fun _ => trivial) steps) h
  have ht := Course.trace hc
  rw [hnone] at ht
  exact ⟨(show w₀.Past by rw [Past, hnone]; exact hbefore).trans hc, by rw [ht, hshown]; rfl⟩

end World

end ViewBinding
