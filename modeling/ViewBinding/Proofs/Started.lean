import ViewBinding.Proofs.Course.Run
import ViewBinding.Proofs.Turns

/-! The callbacks that start while subscribers take turns, as the trace tells of them. -/

namespace ViewBinding

variable {w w' : World} {n : Nat} {r : Ref .watcher} {s : Subscriber} {L : List Subscriber}

/-- The callback that a happening is the start of, with its watcher and what it is told. -/
def Happening.call? : Happening → Option (Ref .watcher × Callback × Change)
  | called r callback change => some (r, callback, change)
  | _ => none

namespace World

/-- The callbacks that have started so far, in this order. -/
def started (w : World) : List (Ref .watcher × Callback × Change) :=
  w.trace.toList.filterMap Happening.call?

theorem started_of_trace (h : w'.trace = w.trace) : w'.started = w.started := by
  rw [started, h, started]

theorem started_tell (w : World) (h : Happening) :
    (w.tell h).started = w.started ++ h.call?.toList := by
  rw [started, toList_trace_tell, List.filterMap_append, List.filterMap_cons, started]
  cases h.call? <;> rfl

theorem started_emit (w : World) (e : Effect) : (w.emit e).started = w.started :=
  (w.started_tell (.showed e)).trans (List.append_nil _)

theorem Glances.started {hs : List Happening} (h : w.Glances hs w') : w'.started = w.started := by
  have ht := h.trace fun _ _ _ => Glance.trace
  have hnone : hs.filterMap Happening.call? = [] := by
    refine List.filterMap_eq_nil_iff.2 fun x hx => ?_
    obtain ⟨p, rfl⟩ := Glances.computed h x hx
    rfl
  rw [World.started, ht, List.filterMap_append, hnone, List.append_nil, World.started]

theorem started_afterTurn (s : Subscriber) (p : Except Fault Unit × World) :
    (afterTurn s p).started = p.2.started := by
  obtain ⟨res, w⟩ := p
  cases res with
  | ok => rfl
  | error f => exact w.started_emit (.updateFailed f)

theorem started_leaveBehind (w : World) (key : Option String) (k : Nat) :
    (w.leaveBehind key k).started = w.started := by
  unfold leaveBehind
  split
  · exact w.started_emit _
  · rfl

def call (w : World) (p : Ref .watcher × Change) : Ref .watcher × Callback × Change :=
  (p.1, (w.watchers.get p.1).callback, p.2)

end World

/-- Whatever a callback does and however it ends, the first that it tells is its own start. -/
theorem Callback.started_perform {m : Ref .model} {change : Change} {callback : Callback}
    {p : Except Fault Unit × World} (hm : m ∈ w.modelsInUse) (hmodel : (w.watchers.get r).model = m)
    (hr : (w.watchers.get r).callback = callback)
    (h : callback.perform (Engine.ofFuel n) r m change w = some p) :
    ∃ cs, p.2.started = w.started ++ (r, callback, change) :: cs := by
  have hstart : (w.startCallback r m change callback).started =
      w.started ++ [(r, callback, change)] := by
    rw [World.started, World.toList_trace_startCallback, List.filterMap_append]
    cases callback <;> rfl
  rw [Callback.perform_apply] at h
  obtain ⟨-, hs, hc⟩ := Callback.rest_course (P := fun _ => True) (r := r) (Engine.proceeds n)
    (by cases callback <;> exact hm) change (by rw [World.startCallback_watchers, hr])
    (by rw [World.startCallback_watchers, hmodel]) (World.stored_of_forall (fun _ => trivial) _) h
  refine ⟨hs.filterMap Happening.call?, ?_⟩
  rw [World.started, World.Course.trace hc, List.filterMap_append, ← World.started, hstart,
    List.append_assoc]
  rfl

/-- Whether a subscriber starts no callback on its turn but that of its watcher, and only once. -/
def Subscriber.Alone (e : Engine) (s : Subscriber) (w : World) : Prop :=
  match s with
  | .watcher r => ∀ change w₁, Watcher.starts e.compute r w = some (change, w₁) →
    ∀ p, (w.watchers.get r).callback.perform e r (w.watchers.get r).model change w₁ = some p →
      p.2.started.length ≤ w₁.started.length + 1
  | .reaction r => ∀ p, Subscriber.update e (.reaction r) w = some p → p.2.started = w.started

def AloneTurns (e : Engine) : List Subscriber → World → Prop
  | [], _ => True
  | s :: rest, w => s.Alone e w ∧
    ∀ p, s.update e w = some p → AloneTurns e rest (World.afterTurn s p)

/-- The turn of a subscriber starts the callback of its watcher if that has something new to see,
and no other. -/
theorem Subscriber.Alone.started (ha : s.Alone (Engine.ofFuel n) w)
    {p : Except Fault Unit × World} (h : s.update (Engine.ofFuel n) w = some p) :
    p.2.started = w.started ++ (s.fires (Engine.ofFuel n) w).map w.call := by
  cases s with
  | reaction r => exact (ha p h).trans (List.append_nil _).symm
  | watcher r =>
    obtain ⟨res, w'⟩ := p
    have hlook {look : Except Fault Value} {w₁ : World}
        (hev : Watcher.evaluate (Engine.ofFuel n).compute r
          (w.useModel (w.watchers.get r).model) = some (look, w₁)) :
        w₁.started = w.started ∧ w₁.watchers.get r = w.watchers.get r ∧
          (w.watchers.get r).model ∈ w₁.modelsInUse := by
      obtain ⟨hs, hg⟩ := Watcher.evaluate_glances n r _ _ _ hev
      have hf := World.Glances.sameFrame hg
      refine ⟨(World.Glances.started hg).trans (World.started_of_trace rfl), ?_, ?_⟩
      · rw [hf.watchers]
        rfl
      · rw [hf.modelsInUse]
        exact List.mem_cons_self
    have hnone {w₁ : World} (hs : w₁.started = w.started)
        (hst : Watcher.starts (Engine.ofFuel n).compute r w = none) :
        w₁.started = w.started ++ (fires (Engine.ofFuel n) (.watcher r) w).map w.call := by
      rw [fires, hst]
      exact hs.trans (List.append_nil _).symm
    cases Watcher.Updated.of_update h with
    | gone hm => exact hnone rfl (if_neg hm)
    | fails hm hev => exact hnone (hlook hev).1 (by simp [Watcher.starts, hm, hev])
    | same hm hev hsame => exact hnone (hlook hev).1 (by simp [Watcher.starts, hm, hev, hsame])
    | @calls new w₁ w₂ _ hm hev hsame hp =>
      obtain ⟨hstarted, hwatcher, hused⟩ := hlook hev
      rw [hwatcher] at hsame hp
      have hst : Watcher.starts (Engine.ofFuel n).compute r w =
          some ({ new, old := (w.watchers.get r).value }, w₁.remember r new) := by
        simp [Watcher.starts, hm, hev, hwatcher, hsame]
      have hinUse : (w.watchers.get r).model ∈ (w₁.remember r new).modelsInUse := hused
      -- The callback tells of its start, and there is room for no other.
      obtain ⟨cs, hw₂⟩ := Callback.started_perform hinUse
        (by rw [World.model_remember, hwatcher]) (by rw [World.callback_remember, hwatcher]) hp
      have hone := ha _ _ hst _ hp
      have hcs : cs = [] := by
        rw [hw₂, List.length_append, List.length_cons] at hone
        exact List.eq_nil_of_length_eq_zero (by omega)
      subst hcs
      rw [fires, hst]
      exact hw₂.trans (congrArg (· ++ _) hstarted)

theorem AloneTurns.started (ha : AloneTurns (Engine.ofFuel n) L w)
    (hc : CalmTurns (Engine.ofFuel n) L w) (hw : w.Valid) (hL : ∀ s ∈ L, s.Made w)
    {k : Except Fault Nat}
    (h : updateEach (Subscriber.update (Engine.ofFuel n)) L w = some (k, w')) :
    w'.started = w.started ++ (fired (Engine.ofFuel n) L w).map w.call := by
  have hu := Subscriber.update_settling (Engine.calls n)
  induction L generalizing w k with
  | nil =>
    cases h
    exact (List.append_nil _).symm
  | cons s rest ih =>
    obtain ⟨p, k', hp, hk, -⟩ := updateEach_cons_eq_some h
    have hmade := hL s List.mem_cons_self
    have hpass := (hu.turn hw hmade hp).1
    have hrest (t : Subscriber) (ht : t ∈ rest) := hL t (List.mem_cons_of_mem s ht)
    have hi := hc.1.idle hw hmade hp
    -- The watchers whose turn is still to come keep their callbacks.
    have hcall (q : Ref .watcher × Change) (hq : q ∈ fired (Engine.ofFuel n) rest
        (World.afterTurn s p)) : (World.afterTurn s p).call q = w.call q := by
      rw [World.call, World.call, hi.callback _ (hrest _ (mem_of_fired hq))]
    rw [ih (ha.2 p hp) (hc.2 p hp) hpass.valid (fun t ht => (hrest t ht).passes hpass) hk,
      World.started_afterTurn, ha.1.started hp, fired_cons hp, List.map_append, List.append_assoc,
      List.map_congr_left hcall]

end ViewBinding
