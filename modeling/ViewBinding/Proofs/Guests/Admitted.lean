import ViewBinding.Proofs.Fuel
import ViewBinding.Proofs.Guests.Scripts

/-! Runs in which no guest is turned away: wherever the creation of a guest would fail, there is no
outcome. -/

namespace ViewBinding

def Action.sure {α : Type} (x : Action α) : Action α := fun w => (x w).filter fun p => p.1.toBool

variable (G : List String)

section

variable (e : Engine) (f : Frame)

mutual

/-- Runs one step, as long as no guest is turned away. -/
def Step.receive : Step → Action Answer
  | .cond test yes no => do
    let v ← Script.value e f test
    if v.isTrue then Step.receiveAll yes else Step.receiveAll no
    return .nothing
  | .attempt steps => do
    if let some fault ← Action.faultOf (Step.receiveAll steps) then
      Action.emit (.caught fault)
    return .nothing
  | .loop times steps => do
    Action.times times (Step.receiveAll steps)
    return .nothing
  | s => if s.admits G then (s.run e f).sure else s.run e f
termination_by structural s => s

def Step.receiveAll : List Step → Action Unit
  | [] => return
  | s :: rest => do
    let _ ← s.receive
    Step.receiveAll rest
termination_by structural ss => ss

end

end

def Engine.admitting : Nat → Engine
  | 0 => { Engine.ofFuel 0 with call := fun _ _ => Action.unfinished }
  | fuel + 1 =>
    { Engine.ofFuel (fuel + 1) with
      call := fun f steps => Step.receiveAll G (admitting fuel) f steps }

/-- Whether no guest is turned away in a run, at whatever depth of calls it is created. -/
def World.Admits (n : Nat) : List Step → World → Prop
  | [], _ => True
  | s :: rest, w =>
    (s.receive G (Engine.admitting G n) {} w).isSome ∧
      ∀ outcome w', w.step (Engine.ofFuel n) s = some (outcome, w') → World.Admits n rest w'

instance World.decidableAdmits (n : Nat) : (steps : List Step) → (w : World) →
    Decidable (w.Admits G n steps)
  | [], _ => .isTrue trivial
  | s :: rest, w =>
    match h : w.step (Engine.ofFuel n) s with
    | none =>
      decidable_of_iff (s.receive G (Engine.admitting G n) {} w).isSome
        ⟨fun hs => ⟨hs, fun _ _ h' => nomatch h.symm.trans h'⟩, And.left⟩
    | some (_, w') =>
      have := World.decidableAdmits n rest w'
      decidable_of_iff ((s.receive G (Engine.admitting G n) {} w).isSome ∧
        w'.Admits G n rest)
        ⟨fun ⟨hs, hrest⟩ => ⟨hs, fun _ _ h' => by cases h.symm.trans h'; exact hrest⟩,
          fun ⟨hs, hrest⟩ => ⟨hs, hrest _ _ h⟩⟩

theorem Action.sure_below {α : Type} (x : Action α) : x.sure.Below x := by
  intro w p h
  exact (Option.filter_eq_some_iff.1 h).1

variable {G} {e e' : Engine}

mutual

theorem Step.receive_below (he : e.Below e') (f : Frame) (s : Step) :
    (s.receive G e f).Below (s.run e' f) := by
  have hs (s : Step) : (if s.admits G then (s.run e f).sure else s.run e f).Below (s.run e' f) := by
    intro w p h
    refine Step.run_below he f s w p ?_
    split at h
    · exact Action.sure_below _ w p h
    · exact h
  cases s with
  | cond test yes no =>
    exact .bind (.value he f test) fun _ =>
      .ite (.bind (Step.receiveAll_below he f yes) fun _ => .refl _)
        (.bind (Step.receiveAll_below he f no) fun _ => .refl _)
  | attempt steps => exact .bind (.faultOf (Step.receiveAll_below he f steps)) fun _ => .refl _
  | loop times steps =>
    exact .bind (.times (Step.receiveAll_below he f steps) times) fun _ => .refl _
  | _ =>
    rw [Step.receive]
    · exact hs _
    all_goals nofun
termination_by structural s

theorem Step.receiveAll_below (he : e.Below e') (f : Frame) (ss : List Step) :
    (Step.receiveAll G e f ss).Below (Step.runAll e' f ss) := by
  cases ss with
  | nil => exact .refl _
  | cons s rest => exact .bind (Step.receive_below he f s) fun _ => Step.receiveAll_below he f rest
termination_by structural ss

end

theorem Engine.admitting_below (n : Nat) : (admitting G n).Below (ofFuel n) := by
  induction n with
  | zero => exact ⟨fun _ => .refl _, fun _ _ => .refl _⟩
  | succ n ih => exact ⟨fun _ => .refl _, fun f steps => Step.receiveAll_below ih f steps⟩

end ViewBinding
