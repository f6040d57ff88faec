import ViewBinding.Proofs.Current
import ViewBinding.Proofs.Freshness
import ViewBinding.Proofs.Mirrors.Visits

/-! Bound faces mirror the data: at every moment a face shows what its path leads to. -/

namespace ViewBinding

open World

variable {w w' w₁ v : World} {f g : Frame} {T : Arrays}

theorem Moment.told (h : Moment f w) : ∃ T, w.Told (fun _ => True) T ∧ f.Known T := by
  have hevery (s : Step) : s.Every fun _ => True := s.every_of_forall fun _ => trivial
  induction h with
  | @start trees w h =>
    obtain ⟨⟨r, w₁⟩, hr, rfl⟩ := Option.map_eq_some_iff.1 h
    have hw : ({} : World).Told (fun _ => True) [] := ⟨World.empty_stored, World.knows_empty⟩
    have hplant : Action.Draws (fun _ => True) (fun _ => True) [] {}
        (trees.forM fun tree => discard (Script.plant tree)) Action.Any :=
      .forM hw fun tree _ T' w' _ hw' => by
        intro r w'' h
        have hedit := hw'.edit (s := .create tree) trivial (.create tree)
        cases h
        exact ⟨T', hedit.trans ((Aside.meet _ _).drawn hedit.told), fun _ _ => trivial⟩
    obtain ⟨T, hd, -⟩ := hplant r w₁ hr
    exact ⟨T, hd.told, fun _ h => nomatch h⟩
  | value _ h ih =>
    obtain ⟨T, hw, hf⟩ := ih
    obtain ⟨T', hd, -⟩ := Script.value_draws hw hf _ _ _ h
    exact ⟨T', hd.told, hf.mono hd.arrays⟩
  | step _ _ h ih =>
    obtain ⟨T, hw, hf⟩ := ih
    obtain ⟨T', hd, -⟩ := Step.run_draws (Engine.draws _) _ hw hf (hevery _) _ _ h
    exact ⟨T', hd.told, hf.mono hd.arrays⟩
  | response _ h ih =>
    obtain ⟨T, hw, hf⟩ := ih
    obtain ⟨T', hd, -⟩ := Response.perform_draws (Engine.draws _)
      ⟨.call none "" "" none, trivial, trivial⟩ hw _ _ _ _ h
    exact ⟨T', hd.told, hf.mono hd.arrays⟩
  | use _ _ ih => exact ih.imp fun _ h => ⟨(Aside.useModel _ _).told h.1, h.2⟩
  | keep _ _ ih => exact ih.imp fun _ h => ⟨(Aside.useSubscribers _ _).told h.1, h.2⟩
  | method _ _ _ ih => exact ih.imp fun _ h => ⟨h.1, fun _ he => nomatch he⟩
  | @callback f w w' n r new _ _ _ h ih =>
    obtain ⟨T, hw, hf⟩ := ih
    obtain ⟨T', hd, hk⟩ := Watcher.evaluate_draws (P := fun _ => True)
      ((Aside.useModel w (w.watchers.get r).model).told hw) r _ _ h
    have hnew := hk new rfl
    refine ⟨T', ⟨hd.told.stored.remember, hd.told.knows.remember r hnew⟩, fun c hc => ?_⟩
    cases hc
    exact ⟨hnew, hd.told.knows.seen r⟩
  | view v _ ih => exact ih.imp fun _ h => ⟨h.1.view v, h.2⟩
  | knownNodes ns _ ih => exact ih.imp fun _ h => ⟨(Aside.meet _ ns).told h.1, h.2⟩
  | trace es _ ih =>
    refine ih.imp fun _ h => ⟨?_, h.2⟩
    exact ⟨⟨h.1.stored.callback, h.1.stored.methods, h.1.stored.reaction⟩,
      h.1.knows.of_same rfl (fun _ => rfl) (fun _ => rfl) rfl⟩

theorem World.Knows.resolves (hw : w.Knows T) {n : Nat} {r : Ref .watcher} {u : Value}
    (h : w.Resolves n r u) : ∃ T', T <+: T' ∧ u.Known T' := by
  obtain ⟨w', hp⟩ := h
  obtain ⟨T', hT, -, hu⟩ := (Path.follow_yields (Engine.compute_yields n) hw
    (w.watchers.get r).path _ (Value.known_object _)).once hp
  exact ⟨T', hT, hu u rfl⟩

/-- Whenever no notification is in progress the text of what a watcher saw last shows what its path
leads to. -/
theorem Moment.shownBy (h : Moment f w) {r : Ref .watcher} (hr : w.alive (.watcher r))
    (hm : w.modelAlive (w.watchers.get r).model) {n : Nat} {u : Value} (hu : w.Resolves n r u) :
    u.ShownBy (w.watchers.get r).value.text := by
  obtain ⟨T, hw, -⟩ := h.told
  obtain ⟨T', hT, hknown⟩ := hw.knows.resolves hu
  exact Value.shownBy_of_agrees (h.quiet.agrees hr hm hu) ((hw.knows.seen r).mono hT) hknown

/-- Steps that do not touch a face of some nodes. -/
def Step.Spares (face : Face) (ns : List (Ref .node)) (s : Step) : Prop :=
  ∀ n ∈ ns, ¬s.Touches face n

section

variable {name : Option String} {target : Target} {data : Option Expr}
  {computed : List (String × Expr)} {methods : List (String × List Step)} {settings : Settings}
  {k : Nat} {a : Answer} {r : Ref .watcher} {face : Face} {n : Ref .node}

theorem Step.spares_uncounted (face : Face) (ns : List (Ref .node)) :
    Uncounted (Step.Spares face ns) := fun _ _ _ hs n hn => hs n hn

/-- A view tree was mounted, and a watcher that was made for it writes a face of a node. A run whose
steps leave that face alone comes in strokes to each of its moments, those in the middle of a step
as well. Between any two strokes the face shows what the watcher saw last, if it is the only binding
there; and whenever no notification is in progress and the view-model is alive, it shows what the
path of the watcher leads to, up to the sign of zero. -/
theorem Moment.mount_mirrors (h : Moment f w) (hforest : w.view.Forest)
    (hmount : (Step.mount name target data computed methods settings).run (Engine.ofFuel k) f w =
      some (.ok a, w₁))
    (hr : w.watchers.size ≤ r.index) (hc : (w₁.watchers.get r).callback = .write face n) :
    (∀ steps, w₁.Stored (Step.Spares face (w₁.view.carriers face n)) →
      Step.EveryAll (Step.Spares face (w₁.view.carriers face n)) steps →
      (∀ x, Deed.Reaches (.session steps, w₁) x →
        w₁.Strokes (Step.Spares face (w₁.view.carriers face n)) (Deed.outset x)) ∧
      ∀ j outcomes w₂, w₁.steps (Engine.ofFuel j) steps = some (outcomes, w₂) →
        w₁.Strokes (Step.Spares face (w₁.view.carriers face n)) w₂) ∧
    ∀ v, w₁.Strokes (Step.Spares face (w₁.view.carriers face n)) v →
      v.Sole r face (w₁.view.carriers face n) →
        v.view.shown face n = (v.watchers.get r).value.text ∧
        ∀ g, Moment g v → v.modelAlive (v.watchers.get r).model → ∀ j u, v.Resolves j r u →
          u.ShownBy (v.view.shown face n) := by
  obtain ⟨T, hw, hf⟩ := h.told
  have hmethods : Step.EveryMethod (fun _ => True) methods :=
    Step.everyMethod_of_forall (fun _ => trivial) methods
  obtain ⟨T₁, hd, hshown⟩ := Script.mount_draws (n := k) hw hf name target data computed settings
    trivial hmethods _ _ hmount
  obtain ⟨ns, hpresents⟩ := hshown a rfl hforest r face n hr hc
  obtain ⟨text, hdisplays, -⟩ := hpresents.displays
  rw [hdisplays.eq_carriers]
  refine ⟨fun steps hstored hs => ?_, fun v hv hsole => ?_⟩
  · have hmoments : ∀ x, Deed.Reaches (.session steps, w₁) x →
        w₁.Strokes (Step.Spares face (n :: ns)) (Deed.outset x) := fun x hx => by
      have hstart : Deed.Begins (Step.Spares face (n :: ns)) T₁ w₁ (.session steps, w₁) :=
        .itself ⟨hstored, hd.told.knows⟩ rfl hs
      obtain ⟨_, hd₂, -⟩ := hx.begins (Step.spares_uncounted face (n :: ns)) hstart
      exact hd₂.strokes
    exact ⟨hmoments, fun j outcomes w₂ hrun => hmoments _ (Deed.reaches_end hrun)⟩
  · have hlater := hpresents.strokes (fun s hs => hs) hv
    refine ⟨hlater.shown hsole, fun g hg hm j u hu => ?_⟩
    rw [hlater.shown hsole]
    exact hg.shownBy ((alive_iff r).2 (.inr (.inr ⟨hm, hlater.kept⟩))) hm hu

end

def notice : Markup := .element "main" [] [.element "p" [("directive-text", "a.b")] []]

def postNotice : Step :=
  .mount none (.node 1) (some (.data (.object [("a", .object [("b", .string "1")])]))) [] [] {}

/-- Somebody who follows the object writes in it and fails, and then the object is replaced. -/
def reviseNotice : List Step :=
  [.watch none "u" "a" [.write none "a.b" (.data (.string "3")), .fail "no"],
    .write none "a" (.data (.object [("b", .string "2")]))]

def Callback.face? : Callback → Option (Face × Ref .node)
  | .write face n => some (face, n)
  | _ => none

theorem Callback.eq_write {callback : Callback} {face : Face} {n : Ref .node}
    (h : callback.face? = some (face, n)) : callback = .write face n := by
  cases callback with
  | write => cases h; rfl
  | _ => cases h

theorem notice_run : ∃ (w w₁ w₂ w₃ : World) (a : Answer) (outcomes : List Outcome) (u : Value),
    World.ofTrees [notice] = some w ∧
      postNotice.run (Engine.ofFuel 4) {} w = some (.ok a, w₁) ∧
      w₁.steps (Engine.ofFuel 4) reviseNotice = some (outcomes, w₂) ∧
      Watcher.peek (Engine.ofFuel 4).compute ⟨0⟩ w₂ = some (.ok u, w₃) ∧
      (w₁.watchers.get ⟨0⟩).callback = .write .text ⟨0⟩ ∧
      w₁.view.carriers .text ⟨0⟩ = [⟨0⟩, ⟨2⟩] ∧ w₂.watchers.size = 2 ∧
      (w₂.watchers.get ⟨1⟩).callback.shows? = none ∧
      w₂.modelAlive (w₂.watchers.get ⟨0⟩).model ∧ w₂.view.shown .text ⟨0⟩ = "3" := by
  have hrun : ((World.ofTrees [notice]).bind fun w =>
      (postNotice.run (Engine.ofFuel 4) {} w).bind fun p =>
        (p.2.steps (Engine.ofFuel 4) reviseNotice).bind fun q =>
          (Watcher.peek (Engine.ofFuel 4).compute ⟨0⟩ q.2).map fun s =>
            p.1.isOk && s.1.isOk &&
            (p.2.watchers.get ⟨0⟩).callback.face? == some (Face.text, ⟨0⟩) &&
            p.2.view.carriers .text ⟨0⟩ == [⟨0⟩, ⟨2⟩] && q.2.watchers.size == 2 &&
            (q.2.watchers.get ⟨1⟩).callback.shows? == none &&
            q.2.modelAlive (q.2.watchers.get ⟨0⟩).model &&
            q.2.view.shown .text ⟨0⟩ == "3") = some true := by
    decide +kernel
  obtain ⟨w, h₀, hrun⟩ := Option.bind_eq_some_iff.1 hrun
  obtain ⟨⟨a, w₁⟩, h₁, hrun⟩ := Option.bind_eq_some_iff.1 hrun
  obtain ⟨⟨outcomes, w₂⟩, h₂, hrun⟩ := Option.bind_eq_some_iff.1 hrun
  obtain ⟨⟨u, w₃⟩, h₃, hc⟩ := Option.map_eq_some_iff.1 hrun
  simp only [Bool.and_eq_true, beq_iff_eq] at hc
  obtain ⟨⟨⟨⟨⟨⟨⟨ha, hu⟩, hshows⟩, hcarriers⟩, hsize⟩, hother⟩, halive⟩, hshown⟩ := hc
  cases a with
  | error => cases ha
  | ok a =>
    cases u with
    | error => cases hu
    | ok u =>
      exact ⟨w, w₁, w₂, w₃, a, outcomes, u, h₀, h₁, h₂, h₃, Callback.eq_write hshows, hcarriers,
        hsize, hother, halive, hshown⟩

theorem Moment.mount_mirrors_notice : ∃ (w w₁ w₂ : World) (a : Answer) (outcomes : List Outcome)
    (u : Value), Moment {} w ∧ w.view.Forest ∧
      postNotice.run (Engine.ofFuel 4) {} w = some (.ok a, w₁) ∧
      (w₁.watchers.get ⟨0⟩).callback = .write .text ⟨0⟩ ∧
      w₁.steps (Engine.ofFuel 4) reviseNotice = some (outcomes, w₂) ∧
      w₁.Strokes (Step.Spares .text (w₁.view.carriers .text ⟨0⟩)) w₂ ∧
      w₂.Sole ⟨0⟩ .text (w₁.view.carriers .text ⟨0⟩) ∧ Moment {} w₂ ∧
      w₂.modelAlive (w₂.watchers.get ⟨0⟩).model ∧ w₂.Resolves 4 ⟨0⟩ u ∧
      w₂.view.shown .text ⟨0⟩ = "3" ∧
      w₂.view.shown .text ⟨0⟩ = (w₂.watchers.get ⟨0⟩).value.text ∧
      u.ShownBy (w₂.view.shown .text ⟨0⟩) := by
  obtain ⟨w, w₁, w₂, w₃, a, outcomes, u, h₀, h₁, h₂, h₃, hcallback, hcarriers, hsize, hother,
    halive, hshown⟩ := notice_run
  have hsole : w₂.Sole ⟨0⟩ .text (w₁.view.carriers .text ⟨0⟩) := fun r hne n _ hr => by
    have hlt := World.made_of_shows (by rw [hr]; exact Option.some_ne_none _)
    obtain ⟨i⟩ := r
    obtain rfl : i = 1 := by
      have hi : i ≠ 0 := fun e => hne (congrArg Ref.mk e)
      have hlt : i < 2 := hsize ▸ hlt
      omega
    cases hother.symm.trans hr
  have hm : Moment {} w := .start h₀
  have hfresh : w.view.Forest ∧ w.watchers.size ≤ 0 := by
    cases h₀
    exact ⟨(View.Forest.create notice View.forest_empty).forest, Nat.le_refl _⟩
  -- Neither mounting nor what is done later touches the paragraph.
  have hpost : postNotice.Every (Step.Spares .text (w₁.view.carriers .text ⟨0⟩)) := by
    rw [hcarriers]
    exact ⟨by simp [Step.Spares, Step.Touches], trivial⟩
  have hrevise : Step.EveryAll (Step.Spares .text (w₁.view.carriers .text ⟨0⟩)) reviseNotice := by
    simp [reviseNotice, Step.EveryAll, Step.Every, Step.Spares, Step.Touches]
  have hstored : w₁.Stored (Step.Spares .text (w₁.view.carriers .text ⟨0⟩)) := by
    obtain ⟨T, hw, hf⟩ := hm.told
    obtain ⟨-, hw₀, -⟩ := World.ofTrees_course h₀
    obtain ⟨T₁, hd, -⟩ := Step.run_draws (Engine.draws 4) postNotice ⟨hw₀, hw.knows⟩ hf hpost _ _ h₁
    exact hd.told.stored
  have hm₂ : Moment {} w₂ := by
    have hplain : postNotice.Plain ∧ Step.AllPlain reviseNotice := by
      simp [postNotice, reviseNotice, Step.Plain, Step.AllPlain, Step.PlainMethods, Expr.IsOwn]
    exact (hm.step hplain.1 h₁).steps hplain.2 h₂
  obtain ⟨hruns, hmirrors⟩ := Moment.mount_mirrors hm hfresh.1 h₁ hfresh.2 hcallback
  have hstrokes := (hruns reviseNotice hstored hrevise).2 4 outcomes w₂ h₂
  obtain ⟨hbaseline, hresolved⟩ := hmirrors w₂ hstrokes hsole
  exact ⟨w, w₁, w₂, a, outcomes, u, hm, hfresh.1, h₁, hcallback, h₂, hstrokes, hsole, hm₂, halive,
    ⟨w₃, h₃⟩, hshown, hbaseline, hresolved {} hm₂ halive 4 u ⟨w₃, h₃⟩⟩

end ViewBinding
