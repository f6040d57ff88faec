import ViewBinding.Proofs.FanOut
import ViewBinding.Proofs.Nodes

/-! What the view was told to show. Watchers of bindings that take turns show one text each at most,
and change nothing else but what they saw last. -/

namespace ViewBinding

variable {w w' w'' : World} {n : Nat} {r : Ref .watcher} {S L : List Subscriber}

/-- A text that a face of a node was told to show. -/
structure Shown where
  face : Face
  node : Ref .node
  text : String
  deriving DecidableEq

def Effect.shown? : Effect → Option Shown
  | .wrote face node text => some { face, node, text }
  | _ => none

def Happening.shown? (x : Happening) : Option Shown := x.effect?.bind Effect.shown?

namespace World

/-- All that the view was told to show, in order. -/
def shown (w : World) : List Shown := w.trace.toList.filterMap Happening.shown?

/-- What a watcher of a binding shows on a change. A template is rendered over the data as it is. -/
def shows (n : Nat) (w : World) (r : Ref .watcher) (change : Change) : List Shown :=
  match (w.watchers.get r).callback with
  | .run _ _ => []
  | .write face node => [{ face, node, text := change.new.text }]
  | .render node t =>
    match t.render (Engine.ofFuel n).compute (w.watchers.get r).model w with
    | some (.ok text, _) => [{ face := .text, node, text }]
    | _ => []

theorem length_shows_le (n : Nat) (w : World) (r : Ref .watcher) (change : Change) :
    (w.shows n r change).length ≤ 1 := by
  unfold shows
  split
  · exact Nat.zero_le 1
  · exact Nat.le_refl 1
  · split
    · exact Nat.le_refl 1
    · exact Nat.zero_le 1

theorem shown_tell (w : World) (x : Happening) :
    (w.tell x).shown = w.shown ++ x.shown?.toList := by
  simp only [shown, tell, Array.toList_push, List.filterMap_append]
  cases h : x.shown? <;> simp [h]

/-- A change that shows some texts, and leaves view-models, listeners and watchers as they are, but
for what watchers saw last. -/
structure Paints (xs : List Shown) (w w' : World) : Prop where
  models : w'.models = w.models
  watchers : ∀ r, ∃ u, w'.watchers.get r = { w.watchers.get r with value := u }
  nodes : w.view.nodes.size ≤ w'.view.nodes.size
  listeners : ∀ k, k.index < w.view.nodes.size →
    (w'.view.node k).listeners = (w.view.node k).listeners
  shown : w'.shown = w.shown ++ xs

namespace Paints

variable {xs ys : List Shown}

theorem of_eq (hm : w'.models = w.models) (hw : w'.watchers = w.watchers) (hv : w'.view = w.view)
    (hs : w'.shown = w.shown) : w.Paints [] w' where
  models := hm
  watchers r := ⟨(w.watchers.get r).value, by rw [hw]⟩
  nodes := Nat.le_of_eq (by rw [hv])
  listeners k _ := by rw [hv]
  shown := by rw [hs, List.append_nil]

theorem refl (w : World) : w.Paints [] w := of_eq rfl rfl rfl rfl

theorem trans (h : w.Paints xs w') (h' : w'.Paints ys w'') : w.Paints (xs ++ ys) w'' where
  models := h'.models.trans h.models
  watchers r := by
    obtain ⟨u, hu⟩ := h.watchers r
    obtain ⟨u', hu'⟩ := h'.watchers r
    exact ⟨u', by rw [hu', hu]⟩
  nodes := Nat.le_trans h.nodes h'.nodes
  listeners k hk := (h'.listeners k (Nat.lt_of_lt_of_le hk h.nodes)).trans (h.listeners k hk)
  shown := by rw [h'.shown, h.shown, List.append_assoc]

theorem released {m : Ref .model} (h : (w.useModel m).Paints xs w') :
    w.Paints xs (w'.releaseModel m) :=
  ⟨h.models, h.watchers, h.nodes, h.listeners, h.shown⟩

theorem tell (w : World) {x : Happening} (hx : x.shown? = none) : w.Paints [] (w.tell x) := by
  have hs := w.shown_tell x
  rw [hx] at hs
  exact of_eq rfl rfl rfl (hs.trans (List.append_nil _))

end Paints

end World

theorem View.listeners_write_of_lt {v : View} {k k' : Ref .node} (hk : k'.index < v.nodes.size)
    (face : Face) (text : String) :
    ((v.write face k text).node k').listeners = (v.node k').listeners := by
  by_cases e : k = k'
  · subst e
    exact listeners_write hk face text k
  · cases face with
    | value => exact v.listeners_modify k k' _ fun _ => rfl
    | html => exact v.listeners_modify k k' _ fun _ => rfl
    | text =>
      have hreplace : ((v.replaceText k text).node k').listeners = (v.node k').listeners := by
        rcases v.replaceText_cases k text with ⟨-, h⟩ | ⟨-, ⟨c, -, -, h⟩ | h⟩ <;> rw [h]
        · exact v.listeners_modify k k' _ fun _ => rfl
        · exact v.listeners_modify c k' _ fun _ => rfl
        · exact (moved_renewText e (ne_fresh hk)).listeners
      exact ((v.replaceText k text).listeners_modify k k'
        (fun node => { node with textWrites := node.textWrites + 1 }) fun _ => rfl).trans hreplace

/-- Nothing but something noted in the trace that is no text to show. -/
def World.Remarks (w w' : World) : Prop :=
  (∃ es, w' = { w with trace := es }) ∧ w'.shown = w.shown

namespace World.Remarks

theorem refl (w : World) : w.Remarks w := ⟨⟨w.trace, rfl⟩, rfl⟩

theorem trans (h : w.Remarks w') (h' : w'.Remarks w'') : w.Remarks w'' := by
  obtain ⟨⟨es, rfl⟩, hs⟩ := h
  obtain ⟨⟨es', rfl⟩, hs'⟩ := h'
  exact ⟨⟨es', rfl⟩, hs'.trans hs⟩

theorem paints (h : w.Remarks w') : w.Paints [] w' := by
  obtain ⟨⟨es, rfl⟩, hs⟩ := h
  exact .of_eq rfl rfl rfl hs

theorem slot? (h : w.Remarks w') : w'.slot? = w.slot? := by
  obtain ⟨⟨es, rfl⟩, -⟩ := h
  rfl

theorem cells (h : w.Remarks w') : w'.cells = w.cells := by
  obtain ⟨⟨es, rfl⟩, -⟩ := h
  rfl

theorem sight (h : w.Remarks w') : w'.sight = w.sight := by
  obtain ⟨⟨es, rfl⟩, -⟩ := h
  rfl

theorem leaveBehind (w : World) (key : Option String) (failed : Nat) :
    w.Remarks (w.leaveBehind key failed) := by
  refine ⟨w.leaveBehind_eq key failed, ?_⟩
  unfold World.leaveBehind
  split
  · exact (w.shown_tell (.showed (.leftBehind failed key))).trans (List.append_nil _)
  · rfl

end World.Remarks

theorem World.paints_remember (w : World) (r : Ref .watcher) (v : Value) :
    w.Paints [] (w.remember r v) where
  models := rfl
  watchers r' := by
    rcases w.remember_cases r r' v with e | ⟨-, e⟩
    · exact ⟨(w.watchers.get r').value, by rw [e]⟩
    · exact ⟨v, e⟩
  nodes := Nat.le_refl _
  listeners _ _ := rfl
  shown := (List.append_nil _).symm

theorem World.paints_write (w : World) (m : Ref .model) (face : Face) (node : Ref .node)
    (text : String) : w.Paints [{ face, node, text }]
      { w.tell (.wrote m face node text) with view := w.view.write face node text } where
  models := rfl
  watchers r := ⟨(w.watchers.get r).value, rfl⟩
  nodes := View.size_write ..
  listeners _ hk := View.listeners_write_of_lt hk face text
  shown := w.shown_tell (.wrote m face node text)

namespace Mark

theorem paints_leave (m : Mark) (p : Evaluation × World) : p.2.Paints [] (m.leave p).2 := by
  obtain ⟨e, w⟩ := p
  cases m with
  | computed p => exact .tell w rfl
  | read source =>
    simp only [leave]
    split
    · exact .refl w
    · split
      · exact .refl w
      · cases source <;> exact .of_eq rfl rfl rfl rfl

theorem paints_leaveAll (ms : List Mark) (p : Evaluation × World) :
    p.2.Paints [] (leaveAll ms p).2 := by
  induction ms generalizing p with
  | nil => exact .refl p.2
  | cons m ms ih => exact (paints_leave m p).trans (ih (m.leave p))

end Mark

theorem Action.Sees.remarks {α : Type} {x : Action α} {l : Sight → Look α} (hx : x.Sees l)
    (hw : w.sight.Steady) {res : Except Fault α} (h : x w = some (res, w')) : w.Remarks w' := by
  refine ⟨(hx.eq_some hw h).2, ?_⟩
  rw [hx w hw, Option.map_eq_some_iff] at h
  obtain ⟨⟨res', ms⟩, -, he⟩ := h
  cases he
  exact (Mark.paints_leaveAll ms ({}, w)).shown.trans (List.append_nil _)

theorem World.Idle.render (h : w.Idle S w') (hw : w.Valid) (hw' : w'.Valid) {m : Ref .model}
    (hm : w.modelAlive m) {t : Template} {res : Except Fault String} {ms : List Mark}
    (hl : (t.look w.sight (w.sight.compute n) m).run = some (res, ms)) :
    ∃ w'', t.render (Engine.ofFuel n).compute m w' = some (res, w'') := by
  have hlast : Look.Lasts w.sight w'.sight (t.look w.sight (w.sight.compute n) m)
      (t.look w'.sight (w'.sight.compute n) m) :=
    t.look_lasts (h.later hw)
      (fun _ hp => Sight.compute_lasts (h.later hw) hw.tracked (Nat.le_refl n) hp) hm
  have hl' := h.look hw hlast (t.look_within hw (hw.lt_of_modelAlive hm)) hl
  refine ⟨(Mark.leaveAll ms ({}, w')).2, ?_⟩
  rw [t.render_sees m w' hw'.tracked.steady, hl']
  rfl

namespace Watcher

theorem evaluate_paints (hw : w.Valid) {res : Except Fault Value}
    (h : evaluate (Engine.ofFuel n).compute r w = some (res, w')) : w.Paints [] w' := by
  rw [evaluate_apply hw.tracked.steady, Option.map_eq_some_iff] at h
  obtain ⟨⟨res', ms⟩, -, he⟩ := h
  cases he
  exact Mark.paints_leaveAll ms ({ subscriber := some (.watcher r) }, w)

theorem starts_paints (hw : w.Valid) {c : Change}
    (h : starts (Engine.ofFuel n).compute r w = some (c, w')) : w.Paints [] w' := by
  simp only [starts] at h
  split at h
  · have hu := World.passes_useModel hw ‹_›
    split at h
    · rename_i new w₁ he
      have hp := (evaluate_paints hu.valid he).trans (w₁.paints_remember r new)
      split at h
      · cases h
      · cases h
        exact ⟨hp.models, hp.watchers, hp.nodes, hp.listeners, hp.shown⟩
    · cases h
  · cases h

theorem update_paints (hw : w.Valid) {res : Except Fault Unit}
    (hs : starts (Engine.ofFuel n).compute r w = none)
    (h : update (Engine.ofFuel n) r w = some (res, w')) : w.Paints [] w' := by
  have hlook {look : Except Fault Value} {w₁ : World}
      (hm : w.modelAlive (w.watchers.get r).model)
      (he : evaluate (Engine.ofFuel n).compute r (w.useModel (w.watchers.get r).model) =
        some (look, w₁)) : w.Paints [] (w₁.releaseModel (w.watchers.get r).model) :=
    (evaluate_paints (World.passes_useModel hw hm).valid he).released
  cases Updated.of_update h with
  | gone => exact .refl w
  | fails hm he => exact hlook hm he
  | same hm he => exact hlook hm he
  | calls hm he hsame => simp [starts, hm, he, hsame] at hs

end Watcher

def Subscriber.IsBinding (w : World) (s : Subscriber) : Prop :=
  ∃ r, s = .watcher r ∧ r.index < w.watchers.size ∧
    ∀ id steps, (w.watchers.get r).callback ≠ .run id steps

theorem Subscriber.IsBinding.idle {s : Subscriber} (h : s.IsBinding w) (hi : w.Idle S w') :
    s.IsBinding w' := by
  obtain ⟨r, rfl, hr, hc⟩ := h
  refine ⟨r, rfl, Nat.lt_of_lt_of_le hr hi.watchers, fun id steps he => hc id steps ?_⟩
  rw [← he, hi.callback r hr]

theorem Subscriber.IsBinding.made {s : Subscriber} (h : s.IsBinding w) : s.Made w := by
  obtain ⟨r, rfl, hr, -⟩ := h
  exact hr

theorem Subscriber.IsBinding.calm (hw : w.Valid) (hL : ∀ s ∈ L, s.IsBinding w) :
    CalmTurns (Engine.ofFuel n) L w := by
  refine .of_idles hw fun s hs => ?_
  obtain ⟨r, rfl, hr, hc⟩ := hL s hs
  exact ⟨r, rfl, hr, fun id steps h => absurd h (hc id steps)⟩

theorem World.afterTurn_paints (s : Subscriber) (p : Except Fault Unit × World) :
    p.2.Paints [] (World.afterTurn s p) := by
  obtain ⟨f | _, w⟩ := p
  · have hp := World.Paints.tell w (x := .showed (.updateFailed f)) rfl
    exact ⟨hp.models, hp.watchers, hp.nodes, hp.listeners, hp.shown⟩
  · exact .of_eq rfl rfl rfl rfl

section Turns

variable (hw' : w'.Valid)
include hw'

/-- On its turn, the watcher of a binding shows what it sees if that is new. What it shows can be
told later, as long as the data is left alone. -/
theorem Subscriber.turn_paints (hw : w.Valid) {s : Subscriber} (hs : s.IsBinding w)
    {p : Except Fault Unit × World} (h : s.update (Engine.ofFuel n) w = some p)
    (hi : (World.afterTurn s p).Idle S w') :
    w.Paints ((s.fires (Engine.ofFuel n) w).flatMap fun q => w'.shows n q.1 q.2)
      (World.afterTurn s p) := by
  have hcalm : s.Calm (Engine.ofFuel n) w :=
    (IsBinding.calm (L := [s]) hw fun _ ht => List.mem_singleton.1 ht ▸ hs).1
  have hall := (hcalm.idle hw hs.made h).trans hi
  have hafter := World.afterTurn_paints s p
  obtain ⟨r, rfl, hr, hc⟩ := hs
  have hcallback := hall.callback r hr
  have hmodel := hall.model r hr
  rcases Watcher.update_cases hw hr h with
    ⟨hst, -⟩ | ⟨new, w₁, ms, q, hst, -, -, -, hsight, -, hq, he⟩
  · have hfires : fires (Engine.ofFuel n) (.watcher r) w = [] := by simp [fires, hst]
    rw [hfires]
    exact (Watcher.update_paints hw hst h).trans hafter
  · have hfires : fires (Engine.ofFuel n) (.watcher r) w =
        [(r, { new, old := (w.watchers.get r).value })] := by simp [fires, hst]
    have hstart := Watcher.starts_paints hw hst
    have hw₁ := Watcher.valid_of_starts hw hr hst
    have hm := Watcher.modelAlive_of_starts hst
    suffices hq' : w₁.Paints (w'.shows n r { new, old := (w.watchers.get r).value }) q.2 by
      have hend : q.2.Paints [] p.2 := by
        rw [he]
        exact .of_eq rfl rfl rfl rfl
      have hpaints := ((hstart.trans hq').trans hend).trans hafter
      simpa [hfires] using hpaints
    unfold World.shows
    rw [hcallback, hmodel]
    cases hcb : (w.watchers.get r).callback with
    | run id steps => exact absurd hcb (hc id steps)
    | write face node =>
      rw [hcb] at hq
      cases hq
      exact (World.Paints.tell w₁ rfl).trans (World.paints_write _ _ face node new.text)
    | render node t =>
      -- The view-model is alive and the data is as it was when the turn began.
      have hm₁ : w₁.modelAlive (w.watchers.get r).model := by
        rwa [show w₁.modelAlive = w.modelAlive from congrArg Sight.alive hsight]
      rw [hcb, Callback.render_apply, if_pos hm₁, Option.map_eq_some_iff] at hq
      obtain ⟨⟨res, w₂⟩, hrender, rfl⟩ := hq
      have hcalled := World.Paints.tell w₁
        (x := .called r (.render node t) { new, old := (w.watchers.get r).value }) rfl
      have hsteady : (w₁.tell (.called r (.render node t)
        { new, old := (w.watchers.get r).value })).sight.Steady := hw₁.tracked.steady
      have hpaints := hcalled.trans ((t.render_sees _).remarks hsteady hrender).paints
      obtain ⟨⟨ms', hl⟩, -⟩ := (t.render_sees _).eq_some hsteady hrender
      rw [show (w₁.tell _).sight = w.sight from hsight] at hl
      obtain ⟨w₃, hrender'⟩ := hall.render hw hw' hm hl
      simp only [hrender']
      cases res with
      | error g => exact hpaints
      | ok text => exact hpaints.trans (w₂.paints_write _ .text node text)

theorem updateEach_paints (hw : w.Valid) (hL : ∀ s ∈ L, s.IsBinding w) {w₁ : World}
    {k : Except Fault Nat}
    (h : updateEach (Subscriber.update (Engine.ofFuel n)) L w = some (k, w₁))
    (hi : w₁.Idle S w') :
    w.Paints ((fired (Engine.ofFuel n) L w).flatMap fun q => w'.shows n q.1 q.2) w₁ := by
  induction L generalizing w k with
  | nil =>
    cases h
    exact .refl _
  | cons s rest ih =>
    obtain ⟨p, k', hp, hk, -⟩ := updateEach_cons_eq_some h
    have hs := hL s List.mem_cons_self
    have hcalm := Subscriber.IsBinding.calm (n := n) hw hL
    have hidle := hcalm.1.idle hw hs.made hp
    have hpass := ((Subscriber.update_settling (Engine.calls n)).turn hw hs.made hp).1
    have hrest (t : Subscriber) (ht : t ∈ rest) : t.IsBinding (World.afterTurn s p) :=
      (hL t (List.mem_cons_of_mem s ht)).idle hidle
    have hlater := (hcalm.2 p hp).idle hpass.valid (fun t ht => (hrest t ht).made) hk
    rw [fired_cons hp, List.flatMap_append]
    exact (Subscriber.turn_paints hw' hw hs hp (hlater.trans hi)).trans
      (ih hpass.valid hrest hk)

end Turns

end ViewBinding
