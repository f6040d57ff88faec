import ViewBinding.Proofs.Tending.Steps
import ViewBinding.Session

/-! Whole runs tend the tree: a tree that is left to its bindings has as many nodes in the end as in
the beginning. -/

namespace ViewBinding

open Action.Tends

variable {n k : Nat} {w w' : World}

namespace Judgement

def tends (n : Nat) : Judgement Uses where
  holds u x := (x (Engine.ofFuel n)).Tends u
  here u w := w.uses = u
  later u v := v = u
  frame u f := f.InUse u
  value _ _ := True
  object _ _ := True
  model u m := m ∈ u.models
  takes s := s.Every Step.LeavesTree
  takesAll := Step.EveryAll Step.LeavesTree
  writes := True
  calls := True

theorem tends_looks : (tends n).Looks where
  pure _ a := pure a
  throw _ g := throw g
  get h := get fun w _ hw => h w hw.uses
  bind hx hk := bind hx fun a => hk a _ rfl
  value hf hk := bind (Script.value_tends n _ _) fun v => hk v _ rfl hf trivial
  withModel hf hx := Script.withModel_tends hf _ fun m => hx m _ (hf.cons m) List.mem_cons_self
  findNode hk := Script.findNode_tends (hk _ rfl)
  object _ _ := trivial
  root _ _ := trivial
  null _ := trivial
  read path _ _ := (ViewModel.read_proceeds (Engine.compute_proceeds n) _ path).once.tends
  property key _ _ := (Object.read_proceeds (Engine.compute_proceeds n) _ key).once.tends
  render t _ _ := (Template.render_glances n t _).tends
  emit he := emit he
  rename h _ := Script.changeNames_tends h
  save name _ := Script.changeNames_tends fun _ _ => .value name _
  addCell _ := modifyGet (fun _ => rfl) (fun w _ => ⟨_, .addCell w _⟩) fun _ => ⟨rfl, rfl⟩
  addReaction hs :=
    modifyGet (fun _ => rfl) (fun w _ => ⟨_, .addReaction w _ hs.2⟩) fun _ => ⟨rfl, rfl⟩
  addRegistry _ :=
    modifyGet (fun _ => rfl) (fun w _ => ⟨_, .addRegistry w⟩) fun _ => ⟨rfl, rfl⟩
  edit hs h := Script.changeView_tends hs.head h
  build _ hs := Script.build_tends _ _ hs.2
  track name reaction paths _ := Script.track_tends name reaction paths
  trackCell reaction id _ := Script.trackCell_tends reaction id
  register _ id reaction := Script.register_tends id reaction
  create hs := hs.head.elim

theorem tends_acts (he : (Engine.ofFuel n).Tends) : (tends n).Acts where
  toLooks := tends_looks
  frame_later h hf := h ▸ hf
  object_later _ _ := trivial
  model_later h hm := h ▸ hm
  string _ _ := trivial
  finished _ a? := finished a?
  faultOf hx := faultOf hx
  whileAlive hx := .whileAlive (hx _ List.mem_cons_self)
  writes _ _ := trivial
  calls _ _ := trivial
  store _ _ := Cell.write_tends he _ _
  setProperty key _ _ := Object.write_tends he _ key _
  assign p _ _ _ := Path.assign_tends he p _ _
  call name event _ hm := ViewModel.call_tends he hm name event
  compile hs _ := hs.head.elim
  notify _ r := Source.notify_tends he (.registry r) fun _ _ h => nomatch h
  mount _ hs := hs.head.elim
  watch hf hs := Script.watch_tends hf _ _ _ hs.2
  watcher hf hs := Script.watcher_tends hf _ _ _ hs.2
  watcherUpdate _ id := Script.watcherUpdate_tends he id
  cond hs := hs.2
  attempt hs := hs.2
  loop hs := hs.2
  cons hs := hs

end Judgement

theorem Engine.tends (n : Nat) : (Engine.ofFuel n).Tends := by
  induction n with
  | zero => exact fun _ _ _ _ _ => unfinished
  | succ n ih => exact fun f steps u hf hs => (Judgement.tends_acts ih).runAll hf steps hs

namespace World

variable {u : Uses}

theorem Tended.step (h : w.Tended u k) {s : Step} (hs : s.Every Step.LeavesTree)
    {outcome : Outcome} (hstep : w.step (Engine.ofFuel n) s = some (outcome, w')) :
    w'.Tended u k := by
  obtain ⟨⟨r, w₁⟩, hr, he⟩ := Option.bind_eq_some_iff.1 hstep
  cases he
  have hf : Frame.InUse {} u := fun m (h : none = some m) => nomatch h
  have hrun : w₁.Tended u k :=
    (Judgement.tends_acts (Engine.tends n)).run hf s hs k _ r w₁ h hr
  exact hrun.still (.single (.meet w₁ _)) hrun.uses rfl rfl

theorem Tended.steps (h : w.Tended u k) {steps : List Step}
    (hs : Step.EveryAll Step.LeavesTree steps) {outcomes : List Outcome}
    (hr : w.steps (Engine.ofFuel n) steps = some (outcomes, w')) : w'.Tended u k := by
  induction steps generalizing w outcomes with
  | nil =>
    cases hr
    exact h
  | cons s rest ih =>
    obtain ⟨⟨outcome, w₁⟩, h₁, hr⟩ := Option.bind_eq_some_iff.1 hr
    obtain ⟨⟨outcomes', w₂⟩, h₂, he⟩ := Option.bind_eq_some_iff.1 hr
    cases he
    exact ih (h.step hs.1 h₁) hs.2 h₂

end World

end ViewBinding
