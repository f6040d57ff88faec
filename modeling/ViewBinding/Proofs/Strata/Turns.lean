import ViewBinding.Proofs.Course.Updates
import ViewBinding.Proofs.Strata.Steps

/-! Every deed of a callback comes to an end if all that it starts does, and all that follows where
it writes. -/

namespace ViewBinding

variable {α : Type} {w w' : World}

namespace Action.Returns

theorem call {f : Frame} {steps : List Step}
    (h : Deed.Returns (.script f steps, w)) : Returns (fun e => e.call f steps) w := by
  obtain ⟨p, n, hn⟩ := h
  refine ⟨p, n + 1, fun k hk => ?_⟩
  obtain ⟨k, rfl⟩ : ∃ i, k = i + 1 := ⟨k - 1, by omega⟩
  exact hn k (by omega)

theorem check {m : Ref .model} {x : Engine → Action α} (h : w.modelAlive m → Returns x w) :
    Returns (fun e => ViewModel.check m >>= fun _ => x e) w := by
  by_cases hm : w.modelAlive m
  · obtain ⟨p, n, hn⟩ := h hm
    refine ⟨p, n, fun k hk => ?_⟩
    show (ViewModel.check m >>= fun _ => x _) w = _
    rw [bind_apply, ViewModel.check_apply, if_pos hm]
    exact hn k hk
  · refine ⟨(.error .detached, w), 0, fun k _ => ?_⟩
    show (ViewModel.check m >>= fun _ => x _) w = _
    rw [bind_apply, ViewModel.check_apply, if_neg hm]

end Action.Returns

theorem Watcher.starts_of_evaluate {compute : Computed → Reading Value} {r : Ref .watcher}
    {new : Value} (hm : w.modelAlive (w.watchers.get r).model)
    (he : evaluate compute r (w.useModel (w.watchers.get r).model) = some (.ok new, w'))
    (hs : ¬(w'.watchers.get r).value.same new) : starts compute r w =
      some ({ new, old := (w'.watchers.get r).value }, w'.remember r new) := by
  simp only [starts, if_pos hm, he, if_neg hs]

def World.afterStep (start : Nat) (p : Except Fault Answer × World) : Outcome × World :=
  ({ answer := p.1, effects := p.2.effectsFrom start },
    p.2.meet ((p.1.toOption.map Answer.nodesMet).getD [] ++
      (p.2.effectsFrom start).toList.flatMap Effect.nodesMet))

theorem World.step_apply (e : Engine) (s : Step) (w : World) :
    w.step e s = (s.run e {} w).map (afterStep w.trace.size) := by
  rw [World.step]
  cases s.run e {} w <;> rfl

theorem World.steps_cons (e : Engine) (s : Step) (rest : List Step) (w : World) :
    w.steps e (s :: rest) = (w.step e s).bind fun p =>
      (World.steps e rest p.2).map fun q => (p.1 :: q.1, q.2) := by
  rw [World.steps]
  cases w.step e s with
  | none => rfl
  | some p => cases h : World.steps e rest p.2 <;> simp [h]

namespace Deed

section

variable (hw : w.Total)
include hw

theorem turn_returns {s : Subscriber} (h : ∀ y, Own (.turn s, w) y → Returns y) :
    Action.Returns (fun e => s.update e) w := by
  cases s with
  | reaction r =>
    exact .get (.modify (.call (h (.script {} _, w.emit _) ⟨0, List.mem_singleton_self _⟩)))
  | watcher r =>
    refine .get (.check fun hm => .usingModel ?_)
    refine .sure (hw.useModel _) (.evaluate r) fun new w' hn _ => .get ?_
    by_cases hs : (w'.watchers.get r).value.same new
    · simp only [hs, if_true]
      exact .pure ()
    · simp only [hs]
      obtain ⟨n, hn⟩ := hn.here
      obtain ⟨_, hg⟩ := Watcher.evaluate_glances n r _ _ _ hn
      have hcb : (w'.watchers.get r).callback = (w.watchers.get r).callback := by
        rw [(World.Glances.sameFrame hg).watchers]
        rfl
      have hp := h (.perform r (w.watchers.get r).model
        { new, old := (w'.watchers.get r).value } (w.watchers.get r).callback,
        w'.remember r new) ⟨n, by simp [parts, Watcher.starts_of_evaluate hm hn hs]⟩
      rw [← hcb] at hp
      exact .modify hp

theorem perform_returns {r : Ref .watcher} {m : Ref .model} {change : Change} {callback : Callback}
    (h : ∀ y, Own (.perform r m change callback, w) y → Returns y) :
    Action.Returns (fun e => callback.perform e r m change) w := by
  refine .modify ?_
  cases callback with
  | run id steps => exact .call (h (.script _ steps, w.tell _) ⟨0, List.mem_singleton_self _⟩)
  | write face n => exact .of_eq rfl
  | render n t =>
    exact .check fun _ => .sure (hw.tell _) (.template t m) fun _ _ _ _ => .of_eq rfl

end

theorem session_returns {steps : List Step} (h : ∀ y, Own (.session steps, w) y → Returns y) :
    Returns (.session steps, w) := by
  cases steps with
  | nil => exact ⟨(.ok [], w), 0, fun _ _ => rfl⟩
  | cons s rest =>
    have hs : Action.Returns (fun e => s.run e {}) w := h (.step {} s, w) ⟨0, List.mem_cons_self⟩
    obtain ⟨p, n, hn⟩ := hs
    have hq (k : Nat) (hk : n ≤ k) :
        w.step (Engine.ofFuel k) s = some (World.afterStep w.trace.size p) := by
      rw [World.step_apply]
      exact congrArg (Option.map _) (hn k hk)
    obtain ⟨⟨r, w'⟩, n', hn'⟩ := h (.session rest, (World.afterStep w.trace.size p).2)
      ⟨n, by simp [parts, hq n (Nat.le_refl n)]⟩
    refine ⟨(r.map ((World.afterStep w.trace.size p).1 :: ·), w'), max n n', fun k hk => ?_⟩
    obtain ⟨p', hp', he⟩ := Option.map_eq_some_iff.1 (hn' k (by omega))
    cases he
    show Option.map _ (World.steps _ (s :: rest) w) = _
    rw [World.steps_cons, hq k (by omega), Option.bind_some, hp']
    rfl

theorem script_returns {f : Frame} {steps : List Step}
    (h : ∀ y, Own (.script f steps, w) y → Returns y) :
    Action.Returns (fun e => Step.runAll e f steps) w := by
  cases steps with
  | nil => exact .pure ()
  | cons s rest =>
    refine .bind (h (.step f s, w) ⟨0, List.mem_cons_self⟩) fun _ w' hs => ?_
    refine h (.script f rest, w') ?_
    obtain ⟨n, hn⟩ := hs.here
    exact ⟨n, by simp [parts, Action.after_ok hn]⟩

theorem call_returns {m : Ref .model} {name : String} {event : Event}
    (h : ∀ y, Own (.call m name event, w) y → Returns y) :
    Action.Returns (fun e => ViewModel.call e m name event) w := by
  refine .get (.require fun steps hs => .modify (.call (h (.script _ steps, w.tell _) ⟨0, ?_⟩)))
  simp only [parts, hs]
  exact List.mem_singleton_self _

theorem listen_returns {event : Event} {listeners : List Listener}
    (h : ∀ y, Own (.listen event listeners, w) y → Returns y) :
    Action.Returns (fun e => listeners.forM (·.response.perform e event)) w := by
  cases listeners with
  | nil => exact .pure ()
  | cons l rest =>
    refine .bind (h (.respond event l.response, w) ⟨0, List.mem_cons_self⟩) fun _ w' hl => ?_
    refine h (.listen event rest, w') ?_
    obtain ⟨n, hn⟩ := hl.here
    exact ⟨n, by simp [parts, Action.after_ok hn]⟩

theorem respond_returns {event : Event} {response : Response}
    (h : ∀ y, Own (.respond event response, w) y → Returns y) :
    Action.Returns (fun e => response.perform e event) w := by
  cases response with
  | assign m path n =>
    refine .get ?_
    by_cases hm : w.modelAlive m
    · simp only [hm, if_true]
      have hs := h (.set m path (.string (event.value.getD (w.view.node n).value)), w.useModel m)
        ⟨0, by simp [parts, hm]⟩
      exact .usingModel (.get (.map hs fun _ => ()))
    · simp only [hm]
      exact .pure ()
  | call m name =>
    refine .get ?_
    by_cases hm : w.modelAlive m
    · simp only [hm, if_true]
      exact .usingModel (h (.call m name event, w.useModel m) ⟨0, by simp [parts, hm]⟩)
    · simp only [hm]
      exact .pure ()

theorem set_returns {m : Ref .model} {path : String} {v : Value}
    (h : ∀ y, Own (.set m path v, w) y → Returns y) :
    Action.Returns (fun e => ViewModel.write e.compute (Subscriber.update e) m path v) w := by
  refine .ofExcept fun p hp => .get (h (.assign p (w.models.get m).data v, w) ⟨0, ?_⟩)
  simp [parts, hp]

theorem assign_returns (hw : w.Total) {p : Path} {root : Ref .object} {v : Value}
    (h : ∀ y, Own (.assign p root v, w) y → Returns y) :
    Action.Returns (fun e => p.assign e.compute (Subscriber.update e) root v) w := by
  refine .sure hw (Reading.Sure.follow p _ _).once fun parent w' hp _ => .ofExcept fun o ho => ?_
  refine h (.property o p.last v, w') ?_
  obtain ⟨n, hn⟩ := hp.here
  exact ⟨n, by simp [parts, Action.after_ok hn, ho]⟩

theorem property_returns {o : Ref .object} {key : String} {v : Value}
    (h : ∀ y, Own (.property o key v, w) y → Returns y) :
    Action.Returns (fun e => Object.write (Subscriber.update e) o key v) w := by
  refine .get ?_
  cases hs : w.slot? o key with
  | none => exact .map (h (.insert o key v, w) ⟨0, by simp [parts, hs]⟩) fun _ => true
  | some slot =>
    cases slot with
    | cell c => exact h (.store c v, w) ⟨0, by simp [parts, hs]⟩
    | computed p => exact .throw _

theorem insert_returns {o : Ref .object} {key : String} {v : Value}
    (h : ∀ y ∈ fanOut w (.insert o key v), Returns y) :
    Action.Returns (fun e => Object.insert (Subscriber.update e) o key v) w := by
  have hd := h (.turns (w.due (.waiting o key)), w.turns (.waiting o key) v)
    (List.mem_singleton_self _)
  exact .of_map (fun _ => Object.insert_turns o key) hd

theorem store_returns {c : Ref .cell} {v : Value}
    (h : ∀ y ∈ fanOut w (.store c v), Returns y) :
    Action.Returns (fun e => Cell.write (Subscriber.update e) c v) w := by
  by_cases hc : w.changes (.cell c) v
  · have hd := h (.turns (w.due (.cell c)), w.turns (.cell c) v) (by simp [fanOut, hc])
    exact .of_map (fun _ => Cell.write_turns hc) hd
  · refine ⟨(.ok false, w), 0, fun k _ => ?_⟩
    show Cell.write _ c v w = _
    rw [Cell.write_apply, if_pos (by simpa [World.changes] using hc)]

theorem turns_returns {ss : List Subscriber} (h : ∀ y, Own (.turns ss, w) y → Returns y) :
    Action.Returns (fun e => updateEach (Subscriber.update e) ss) w := by
  cases ss with
  | nil => exact .pure 0
  | cons s rest =>
    have ht : Action.Returns (fun e => s.update e) w := h (.turn s, w) ⟨0, List.mem_cons_self⟩
    obtain ⟨p, n, hn⟩ := ht
    have hr : Action.Returns (fun e => updateEach (Subscriber.update e) rest)
        (World.afterTurn s p) := by
      refine h (.turns rest, World.afterTurn s p) ⟨n, ?_⟩
      simp [parts, hn n (Nat.le_refl n)]
    obtain ⟨q, n', hn'⟩ := hr
    refine ⟨(q.1.map (failedWith p.1), q.2), max n n', fun k hk => ?_⟩
    show updateEach _ (s :: rest) w = _
    simp only [updateEach_cons, hn k (by omega), Option.bind_some, hn' k (by omega),
      Option.map_some]

end Deed

end ViewBinding
