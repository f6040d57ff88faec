import ViewBinding.Proofs.Course.Run
import ViewBinding.Proofs.Mirrors.Mounts

/-! Whole runs work on the view in strokes, however deep their scripts call each other. -/

namespace ViewBinding

open Action.Draws World

variable {P : Step → Prop} {T : Arrays} {w w' : World} {n : Nat} {f : Frame}

namespace Judgement

def draws (P : Step → Prop) (n : Nat) : Judgement (Arrays × World) where
  holds s x := s.2.Told P s.1 → Action.Draws P P s.1 s.2 (x (Engine.ofFuel n)) Action.Any
  here s w := w = s.2
  later s t := s.1 <+: t.1
  frame s f := f.Known s.1
  value s v := v.Known s.1
  object _ _ := True
  model _ _ := True
  takes s := s.Every P
  takesAll := Step.EveryAll P
  writes := True
  calls := Callable P

theorem draws_looks : (draws P n).Looks where
  pure _ _ := fun hw => .pure hw trivial
  throw _ g := fun hw => .throw hw g
  get h := fun hw => .get (h _ rfl hw)
  bind hx hk := fun hw => .bind (hx hw) fun a T w' hd _ => hk a (T, w') hd.arrays hd.told
  value hf hk := fun hw => .bind (Script.value_draws hw hf _) fun v T w' hd hv =>
    hk v (T, w') hd.arrays (hf.mono hd.arrays) hv hd.told
  withModel hf hx := fun hw => Script.withModel_draws hw _ fun m w' => hx m (_, w') hf trivial
  findNode hk := fun hw => .bind (Script.findNode_draws hw _) fun _ T w' hd hn =>
    hn.1 ▸ hk (T, w') hd.arrays hd.told
  object _ _ := trivial
  root _ _ := trivial
  null _ := Value.known_null
  read path _ _ := fun hw => any (once (Q := Value.KnownIn) hw
    (ViewModel.read_proceeds (Engine.compute_proceeds n) _ path)
    (ViewModel.read_yields (Engine.compute_yields n) hw.knows _ path))
  property key _ _ := fun hw => any (once (Q := Value.KnownIn) hw
    (Object.read_proceeds (Engine.compute_proceeds n) _ key)
    (Object.read_yields (Engine.compute_yields n) hw.knows _ key))
  render t _ _ := fun hw => Template.render_draws hw t _
  emit _ := fun hw => tell hw _
  rename _ hv := fun hw => Script.changeNames_draws hw (hv _)
  save name hv := fun hw => Script.saveValue_draws hw name hv
  addCell hv := fun hw => Script.addCell_draws hw hv
  addReaction hs := fun hw => Script.addReaction_draws hw _ hs.2
  addRegistry _ := Script.addRegistry_draws
  edit hs h := fun hw => Script.changeView_draws hw hs.head (h _ rfl)
  build hf hs := fun hw => Script.build_draws hw hf _ _ _ hs.2
  track name reaction paths _ := fun hw => Script.track_draws hw name reaction paths
  trackCell reaction id _ := fun hw => Script.trackCell_draws hw reaction id
  register _ id reaction := fun hw => Script.register_draws hw id reaction
  create hs := fun hw => Script.create_draws hw hs

theorem draws_acts (he : Engine.Draws P (Engine.ofFuel n)) : (draws P n).Acts where
  toLooks := draws_looks
  frame_later h hf := hf.mono h
  object_later _ _ := trivial
  model_later _ _ := trivial
  string _ text := Value.known_string text
  finished _ a? := fun hw => finished hw a?
  faultOf hx := fun hw => faultOf (hx hw)
  whileAlive hx := fun hw => .whileAlive hw fun w' => hx (_, w') trivial
  writes _ _ := trivial
  calls hs hc := ⟨_, Step.Every.head hs, hc⟩
  store _ hv := fun hw => Cell.write_draws he hw _ hv
  setProperty key _ hv := fun hw => Object.write_draws he hw _ key hv
  assign p _ _ hv := fun hw => Path.assign_draws he hw p _ hv
  call name event hc _ := fun hw => ViewModel.call_draws he hc hw _ name event
  compile hs _ := fun hw => any (Settings.compile_draws hw hs.head rfl _ _)
  notify _ r := fun hw => Source.notify_draws he hw (.registry r)
  mount hf hs := fun hw => any (Script.mount_draws hw hf _ _ _ _ _ hs.1 hs.2)
  watch _ hs := fun hw => Script.watch_draws hw _ _ _ hs.2
  watcher _ hs := fun hw => Script.watcher_draws hw _ _ _ hs.2
  watcherUpdate _ id := fun hw => Script.watcherUpdate_draws he hw id
  cond hs := hs.2
  attempt hs := hs.2
  loop hs := hs.2
  cons hs := hs

end Judgement

section Steps

variable (he : Engine.Draws P (Engine.ofFuel n))
include he

/-- A step works on the view in strokes if its condition holds of it and of every step in it. -/
theorem Step.run_draws (s : Step) (hw : w.Told P T) (hf : f.Known T) (hs : s.Every P) :
    Action.Draws P P T w (s.run (Engine.ofFuel n) f) Action.Any :=
  (Judgement.draws_acts he).run (s := (T, w)) hf s hs hw

theorem Step.runAll_draws (steps : List Step) (hw : w.Told P T) (hf : f.Known T)
    (hs : Step.EveryAll P steps) :
    Action.Draws P P T w (Step.runAll (Engine.ofFuel n) f steps) Action.Any :=
  (Judgement.draws_acts he).runAll (s := (T, w)) hf steps hs hw

theorem Response.perform_draws (hc : Callable P) (hw : w.Told P T) (event : Event)
    (response : Response) :
    Action.Draws P P T w (response.perform (Engine.ofFuel n) event) Action.Any :=
  (Judgement.draws_acts he).perform (s := (T, w)) trivial hc event response hw

end Steps

theorem Engine.draws (n : Nat) : Engine.Draws P (Engine.ofFuel n) := by
  induction n with
  | zero => exact fun _ _ _ _ _ _ _ => unfinished
  | succ n ih => exact fun f steps T w hw hf hs => Step.runAll_draws ih steps hw hf hs

namespace World

theorem step_drawn (hw : w.Told P T) {s : Step} (hs : s.Every P) {p : Outcome × World}
    (h : w.step (Engine.ofFuel n) s = some p) : ∃ T', Drawn P P T w T' p.2 := by
  obtain ⟨⟨r, w₁⟩, hr, he⟩ := Option.bind_eq_some_iff.1 h
  cases he
  have hf : Frame.Known T {} := Frame.known_of_change rfl
  obtain ⟨T', hd, -⟩ := Step.run_draws (Engine.draws n) s hw hf hs _ _ hr
  have hmeet (ns : List (Ref .node)) : w₁.Aside (w₁.meet ns) := .meet w₁ _
  exact ⟨T', hd.trans ((hmeet _).drawn hd.told)⟩

theorem steps_drawn (hw : w.Told P T) {steps : List Step} (hs : Step.EveryAll P steps)
    {outcomes : List Outcome} (h : w.steps (Engine.ofFuel n) steps = some (outcomes, w')) :
    ∃ T', Drawn P P T w T' w' := by
  induction steps generalizing T w outcomes with
  | nil =>
    cases h
    exact ⟨T, .refl hw⟩
  | cons s rest ih =>
    obtain ⟨p, h₁, h⟩ := Option.bind_eq_some_iff.1 h
    obtain ⟨⟨outcomes', w₂⟩, h₂, he⟩ := Option.bind_eq_some_iff.1 h
    cases he
    obtain ⟨T₁, hd₁⟩ := step_drawn hw hs.1 h₁
    obtain ⟨T', hd'⟩ := ih hd₁.told hs.2 h₂
    exact ⟨T', hd₁.trans hd'⟩

end World

end ViewBinding
