import ViewBinding.Proofs.Ripple.Pass
import ViewBinding.Proofs.Strata.Rise

/-! Where nobody follows the data but bindings, and computed properties are total, setting a
property of a view-model comes to an end, in one pass. -/

namespace ViewBinding

open Deed (Reaches)

variable {w : World} {start : Deed × World} {v : Value} {L : List Subscriber}

section Ends

variable (ht : ∀ x, Reaches start x → x.2.Total)
include ht

/-- Bindings that take turns come to an end: all that they start is to show a text. -/
theorem Deed.bindings_return (hw : w.Valid) (hL : ∀ s ∈ L, s.IsBinding w)
    (hx : Reaches start (.turns L, w)) : Returns (.turns L, w) := by
  induction L generalizing w with
  | nil => exact ⟨(.ok (0 : Nat), w), 0, fun _ _ => rfl⟩
  | cons s rest ih =>
    refine turns_returns fun y hy => ?_
    have hy' := hx.tail (.inl hy)
    have hs := hL s List.mem_cons_self
    rcases hy.of_turns with rfl | ⟨n, p, hp, rfl⟩
    · obtain ⟨r, rfl, -, hc⟩ := hs
      refine @turn_returns w (ht _ hy') (.watcher r) fun z hz => ?_
      have hz' := hy'.tail (.inl hz)
      obtain ⟨k, hz⟩ := hz
      simp only [parts] at hz
      cases hst : Watcher.starts (Engine.ofFuel k).compute r w with
      | none =>
        rw [hst] at hz
        exact absurd hz List.not_mem_nil
      | some q =>
        rw [hst] at hz
        obtain rfl := List.mem_singleton.1 hz
        -- A callback that is no script leads to nothing.
        refine perform_returns (ht _ hz') fun u hu => ?_
        obtain ⟨_, hu⟩ := hu
        cases hcb : (w.watchers.get r).callback with
        | run id steps => exact absurd hcb (hc id steps)
        | write face node =>
          rw [hcb] at hu
          exact absurd hu List.not_mem_nil
        | render node t =>
          rw [hcb] at hu
          exact absurd hu List.not_mem_nil
    · have hcalm := Subscriber.IsBinding.calm (n := n) hw hL
      have hidle := hcalm.1.idle hw hs.made hp
      have hpass := ((Subscriber.update_settling (Engine.calls n)).turn hw hs.made hp).1
      refine ih hpass.valid (fun t ht => ?_) hy'
      exact (hL t (List.mem_cons_of_mem s ht)).idle hidle

theorem Deed.property_return_of_bindings (hw : w.Valid) (hb : w.OnlyBindings)
    (hv : v.Within w.objects.size) {o : Ref .object} {key : String}
    (hx : Reaches start (.property o key v, w)) : Returns (.property o key v, w) := by
  have hturns (source : Source) (hs : w.Writable source)
      (hx : Reaches start (.turns (w.due source), w.turns source v)) :
      Returns (.turns (w.due source), w.turns source v) := by
    have hp := World.passes_turns hw hs hv
    exact bindings_return ht hp.valid (fun s hs => hb.due hw hs) hx
  refine property_returns fun y hy => ?_
  have hy' := hx.tail (.inl hy)
  rcases hy.of_property with ⟨c, -, rfl⟩ | ⟨hn, rfl⟩
  · refine store_returns fun z hz => ?_
    have hz' := hy'.tail (.inr hz)
    obtain rfl := mem_fanOut_store hz
    exact hturns (.cell c) trivial hz'
  · refine insert_returns fun z hz => ?_
    have hz' := hy'.tail (.inr hz)
    obtain rfl := List.mem_singleton.1 hz
    exact hturns (.waiting o key) hn hz'

theorem Deed.set_return_of_bindings (hw : w.Valid) (hb : w.OnlyBindings)
    (hv : v.Within w.objects.size) {m : Ref .model} {path : String}
    (hx : Reaches start (.set m path v, w)) : Returns (.set m path v, w) := by
  refine set_returns fun y hy => ?_
  have hy' := hx.tail (.inl hy)
  obtain ⟨p, -, rfl⟩ := hy.of_set
  refine assign_returns (ht _ hy') fun z hz => ?_
  have hz' := hy'.tail (.inl hz)
  obtain ⟨n, parent, o, w', hf, -, rfl⟩ := hz.of_assign
  obtain ⟨es, rfl⟩ := Path.follow_once hw p _ _ hf
  have hw' := (World.Noted.trace w es).valid hw
  exact property_return_of_bindings ht hw' ⟨hb.watcher, hb.reaction⟩ hv hz'

end Ends

variable {w' : World} {f : Frame} {n : Nat} {m : Ref .model} {path : String}

/-- Setting a property in one pass, if the path is one at all. -/
def ViewModel.SetsOnce (n : Nat) (m : Ref .model) (path : String) (v : Value) (w : World)
    (res : Except Fault Bool) (w' : World) : Prop :=
  match Path.parse path with
  | .error g => res = .error g ∧ w' = w
  | .ok p => (Site.path p (w.models.get m).data).SinglePass n v w res w'

theorem Moment.sets_once (h : Moment f w) (hb : w.OnlyBindings) (hm : m.index < w.models.size)
    (hv : v.Within w.objects.size) {res : Except Fault Bool}
    (hw : ViewModel.write (Engine.ofFuel n).compute (Subscriber.update (Engine.ofFuel n)) m path v
      w = some (res, w')) : ViewModel.SetsOnce n m path v w res w' := by
  unfold ViewModel.SetsOnce
  cases hp : Path.parse path with
  | error g =>
    rw [ViewModel.write_misspelt hp] at hw
    cases hw
    exact ⟨rfl, rfl⟩
  | ok p =>
    rw [ViewModel.write_apply hp] at hw
    exact h.single_pass hb (h.quiet.valid.root m hm) hv hw

end ViewBinding
