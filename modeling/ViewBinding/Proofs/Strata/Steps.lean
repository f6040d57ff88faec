import ViewBinding.Proofs.Judgement
import ViewBinding.Proofs.Strata.Returns

/-! A deed comes to an end if all that it leads to does: what it does apart from that are readings
and changes that are done at once. -/

namespace ViewBinding

variable {α β : Type} {w w' : World} {f : Frame}

def Deed.Returns (x : Deed × World) : Prop := Action.Returns (fun e => x.1.act e) x.2

namespace Action

theorem HasOutcome.here {x : Engine → Action α} {p : Except Fault α × World}
    (hx : HasOutcome x w p) : ∃ n, x (.ofFuel n) w = some p := by
  obtain ⟨n, hn⟩ := hx
  exact ⟨n, hn n (Nat.le_refl n)⟩

theorem after_ok {x : Action α} {a : α} (h : x w = some (.ok a, w'))
    (next : α → World → List β) : x.after w next = next a w' := by
  rw [Action.after, h]

namespace Returns

theorem forM {l : List β} {x : Engine → β → Action Unit}
    (hx : ∀ b w, Returns (fun e => x e b) w) : Returns (fun e => l.forM (x e)) w := by
  induction l generalizing w with
  | nil => exact pure ()
  | cons b l ih => exact bind (hx b w) fun _ _ _ => ih

theorem find {g : Fault} {a? : World → Option α} {x : Engine → α → Action β}
    (h : ∀ a, a? w = some a → Returns (fun e => x e a) w) :
    Returns (fun e => (do Action.require g (a? (← MonadState.get))) >>= x e) w := by
  have hr : Returns (fun e => Action.require g (a? w) >>= x e) w := require h
  obtain ⟨p, n, hn⟩ := hr
  exact ⟨p, n, fun k hk => hn k hk⟩

theorem found (k : Nat) : Returns (fun _ => Script.findNode k) w := by
  obtain ⟨ns, h⟩ := Script.findNode_apply k w
  exact of_eq h

theorem findNode {k : Nat} {x : Engine → Ref .node → Action α}
    (hx : ∀ w, Returns (fun e => x e ⟨k⟩) w) : Returns (fun e => Script.findNode k >>= x e) w := by
  refine bind (found k) fun node w' hn => ?_
  obtain ⟨n, hn⟩ := hn.here
  obtain ⟨ns, h⟩ := Script.findNode_apply k w
  rw [h] at hn
  split at hn
  · cases hn
    exact hx _
  · cases hn

theorem withObject {place : Place} {x : Engine → Ref .object → Action α} (hw : w.Total)
    (hx : ∀ o w', (∃ n, ∀ k, n ≤ k → ∀ next : Ref .object → World → List (Deed × World),
      Script.inObject (.ofFuel k) f place w next = next o w') → w'.Total →
        Returns (fun e => x e o) w') :
    Returns (fun e => Script.withObject e f place (x e)) w := by
  cases place with
  | of expr =>
    refine sure hw (.value f expr) fun v w' hv ht => require fun o ho => hx o w' ?_ ht
    obtain ⟨n, hn⟩ := hv
    refine ⟨n, fun k hk next => ?_⟩
    rw [Script.inObject, after_ok (hn k hk), ho]
    rfl
  | root name =>
    refine withModel fun m hm => get (hx _ _ ⟨0, fun k _ next => ?_⟩ (hw.useModel m))
    rw [Script.inObject, Script.inModel, hm]

end Returns

end Action

namespace Script

theorem loop_returns {times : Nat} {steps : List Step}
    (h : ∀ y, Deed.Own (.step f (.loop times steps), w) y → Deed.Returns y) :
    Action.Returns (fun e => (Step.loop times steps).run e f) w := by
  cases times with
  | zero => exact ⟨(.ok .nothing, w), 0, fun _ _ => rfl⟩
  | succ times =>
    have he (e : Engine) : (Step.loop (times + 1) steps).run e f =
        (Step.runAll e f steps >>= fun _ => (Step.loop times steps).run e f) := by
      simp only [Step.run, Action.times, bind_assoc]
    simp only [he]
    refine .bind (h (.script f steps, w) ⟨0, List.mem_cons_self⟩) fun _ w' hr => ?_
    refine h (.step f (.loop times steps), w') ?_
    obtain ⟨n, hn⟩ := hr.here
    refine ⟨n, ?_⟩
    simp [Deed.parts, Step.parts, Action.after_ok hn]

section Writes

variable (hw : w.Total)
include hw

theorem write_returns {name : Option String} {path : String} {x : Expr}
    (h : ∀ y, Deed.Own (.step f (.write name path x), w) y → Deed.Returns y) :
    Action.Returns (fun e => write e f name path x) w := by
  refine .withModel fun m hm => .sure (hw.useModel m) (.value f x) fun v w' hv _ => ?_
  refine .map (h (.set m path v, w') ?_) Answer.flag
  obtain ⟨n, hn⟩ := hv.here
  refine ⟨n, ?_⟩
  simp [Deed.parts, Step.parts, inModel, hm, Action.after_ok hn]

theorem setProperty_returns {place : Place} {key : String} {x : Expr}
    (h : ∀ y, Deed.Own (.step f (.setProperty place key x), w) y → Deed.Returns y) :
    Action.Returns (fun e => setProperty e f place key x) w := by
  refine .withObject hw fun o w₁ ho ht => .sure ht (.value f x) fun v w₂ hv _ => ?_
  refine .map (h (.property o key v, w₂) ?_) Answer.flag
  obtain ⟨n, hn⟩ := ho
  obtain ⟨n', hn'⟩ := hv
  refine ⟨max n n', ?_⟩
  simp [Deed.parts, Step.parts, hn _ (Nat.le_max_left n n'),
    Action.after_ok (hn' _ (Nat.le_max_right n n'))]

theorem assign_returns {place : Place} {path : String} {x : Expr}
    (h : ∀ y, Deed.Own (.step f (.assign place path x), w) y → Deed.Returns y) :
    Action.Returns (fun e => assign e f place path x) w := by
  refine .withObject hw fun o w₁ ho ht => .ofExcept fun p hp =>
    .sure ht (.value f x) fun v w₂ hv _ => ?_
  refine .map (h (.assign p o v, w₂) ?_) Answer.flag
  obtain ⟨n, hn⟩ := ho
  obtain ⟨n', hn'⟩ := hv
  refine ⟨max n n', ?_⟩
  simp [Deed.parts, Step.parts, hn _ (Nat.le_max_left n n'), hp,
    Action.after_ok (hn' _ (Nat.le_max_right n n'))]

theorem setCell_returns {id : String} {x : Expr}
    (h : ∀ y, Deed.Own (.step f (.setCell id x), w) y → Deed.Returns y) :
    Action.Returns (fun e => setCell e f id x) w := by
  refine .find fun c hc => .sure hw (.value f x) fun v w' hv _ => ?_
  refine .map (h (.store c v, w') ?_) Answer.flag
  obtain ⟨n, hn⟩ := hv.here
  refine ⟨n, ?_⟩
  simp [Deed.parts, Step.parts, hc, Action.after_ok hn]

theorem cond_returns {test : Expr} {yes no : List Step}
    (h : ∀ y, Deed.Own (.step f (.cond test yes no), w) y → Deed.Returns y) :
    Action.Returns (fun e => (Step.cond test yes no).run e f) w := by
  refine .sure hw (.value f test) fun v w' hv _ => ?_
  have hb (steps : List Step) (hs : (if v.isTrue then yes else no) = steps) :
      Action.Returns (fun e => Step.runAll e f steps) w' := by
    refine h (.script f steps, w') ?_
    obtain ⟨n, hn⟩ := hv.here
    refine ⟨n, ?_⟩
    simp [Deed.parts, Step.parts, Action.after_ok hn, hs]
  cases ht : v.isTrue with
  | true => exact .map (hb yes (by simp [ht])) fun _ => Answer.nothing
  | false => exact .map (hb no (by simp [ht])) fun _ => Answer.nothing

theorem track_returns (name : Option String) (reaction : String) (paths : List String) :
    Action.Returns (fun e => track e f name reaction paths) w := by
  have hr : Reading.Sure fun e => paths.mapM fun path => (do
      let m ← MonadExcept.ofExcept (f.findModel (← getThe World) name)
      outcome (ViewModel.read e.compute m path) : Reading _) := by
    refine .mapM fun path => .getWorld fun ev w hw => ?_
    exact Reading.Sure.bind (.ofExcept (f.findModel w name))
      (fun m => (Reading.Sure.model m path).outcome) ev w hw
  exact .find fun r _ => .sure hw (hr.evaluate _) fun _ _ _ _ => .ofExcept fun _ _ => .pure _

theorem trackCell_returns (reaction id : String) :
    Action.Returns (fun _ => trackCell reaction id) w :=
  .find fun _ _ => .find fun c _ => .sure hw ((Reading.Sure.cell c).evaluate _)
    fun _ _ _ _ => .ofExcept fun _ _ => .pure _

omit hw in
theorem register_returns (id reaction : String) :
    Action.Returns (fun _ => register id reaction) w := by
  refine .find fun r _ => .find fun s _ => .get ?_
  cases (w.registry (.registry r)).add? (.reaction s) <;> exact .of_eq rfl

theorem build_returns (name : Option String) (data : Option Expr)
    (computed : List (String × Expr)) (methods : List (String × List Step)) :
    Action.Returns (fun e => build e f name data computed methods) w := by
  have hs : Action.Sure fun e => setup e f data computed methods :=
    .bind (.value f _) fun data => .pure ({ data, computed, methods } : Setup)
  refine .sure hw hs fun setup w' _ _ => .bind ?_ fun _ _ _ => .pure _
  exact .require fun o _ => .get (.bind (.forM fun _ _ => .of_eq rfl) fun _ _ _ => .of_eq rfl)

end Writes

end Script

namespace Judgement

/-- Actions come to an end. A state is a world, where scripts run if computed properties are total.
-/
def returns : Judgement World where
  holds w x := Action.Returns x w
  here w w' := w' = w
  later _ _ := True
  frame w _ := w.Total
  value _ _ := True
  object _ _ := True
  model _ _ := True
  takes _ := True
  takesAll _ := True
  writes := True
  calls := True

theorem returns_looks : returns.Looks where
  pure _ a := .pure a
  throw _ g := .throw g
  get h := .get (h _ rfl)
  bind hx hk := .bind hx fun a w _ => hk a w trivial
  value hw hk := .sure hw (.value _ _) fun v w _ ht => hk v w trivial ht trivial
  withModel hw hx := .withModel fun m _ => hx m _ (hw.useModel m) trivial
  findNode hk := .findNode fun w => hk w trivial
  object _ _ := trivial
  root _ _ := trivial
  null _ := trivial
  read path hw _ := (Reading.Sure.model _ path).once.returns hw
  property key hw _ := (Reading.Sure.object _ key).once.returns hw
  render t hw _ := (Action.Sure.template t _).returns hw
  emit _ := .of_eq rfl
  rename _ _ := .of_eq rfl
  save _ _ := .of_eq rfl
  addCell _ := .of_eq rfl
  addReaction _ := .of_eq rfl
  addRegistry _ := .of_eq rfl
  edit _ _ := .of_eq rfl
  build hw _ := Script.build_returns hw _ _ _ _
  track name reaction paths hw := Script.track_returns hw name reaction paths
  trackCell reaction id hw := Script.trackCell_returns hw reaction id
  register _ id reaction := Script.register_returns id reaction
  create _ := .of_eq rfl

end Judgement

/-- A step that makes no watcher and updates nobody itself comes to an end if all that it leads to
does. -/
theorem Step.run_returns (hw : w.Total) (s : Step) (hm : s.Modest)
    (hs : s.Shows → Action.Returns (fun e => s.run e f) w)
    (h : ∀ y, Deed.Own (.step f s, w) y → Deed.Returns y) :
    Action.Returns (fun e => s.run e f) w := by
  cases s with
  | mount | compile | watch | watcher | watcherUpdate | notify => exact hm.elim
  | snapshot | showModel | showWatcher | exported | showValue | showCell => exact hs trivial
  | write name path x => exact Script.write_returns hw h
  | call name method kind text =>
    refine .withModel fun m hm => .map
      (h (.call m method { kind, value := text }, w.useModel m) ⟨0, ?_⟩) fun _ => Answer.nothing
    simp [Deed.parts, Step.parts, Script.inModel, hm]
  | setProperty place key x => exact Script.setProperty_returns hw h
  | assign place path x => exact Script.assign_returns hw h
  | setCell id x => exact Script.setCell_returns hw h
  | input k text =>
    refine .bind (.found k) fun n w' hn => ?_
    have hd := h (.dispatch n { kind := "input", value := text },
      { w' with view := w'.view.modify n fun node => { node with value := text } })
    refine .map (x := fun e => Event.input e n text) (.modify (hd ?_)) fun _ => Answer.nothing
    obtain ⟨i, hi⟩ := hn.here
    refine ⟨i, ?_⟩
    simp [Deed.parts, Step.parts, Action.after_ok hi]
  | dispatch k kind =>
    refine .bind (.found k) fun n w' hn => .get (.map (h (.dispatch n _, w') ?_)
      fun _ => Answer.nothing)
    obtain ⟨i, hi⟩ := hn.here
    refine ⟨i, ?_⟩
    simp [Deed.parts, Step.parts, Action.after_ok hi]
  | event k kind text =>
    refine .bind (.found k) fun n w' hn => .map (h (.dispatch n _, w') ?_)
      fun _ => Answer.nothing
    obtain ⟨i, hi⟩ := hn.here
    refine ⟨i, ?_⟩
    simp [Deed.parts, Step.parts, Action.after_ok hi]
  | cond test yes no => exact Script.cond_returns hw h
  | attempt steps =>
    have hr := h (.script f steps, w) ⟨0, List.mem_singleton_self _⟩
    refine .bind (.faultOf hr) fun fault _ _ => ?_
    cases fault <;> exact .of_eq rfl
  | loop times steps => exact Script.loop_returns h
  | _ => exact Judgement.returns_looks.run (s := w) (f := f) hw _ trivial trivial

end ViewBinding
