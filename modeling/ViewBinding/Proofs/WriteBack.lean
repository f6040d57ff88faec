import ViewBinding.Proofs.Moment
import ViewBinding.Proofs.Assigns.Aliases
import ViewBinding.Proofs.Ripple.Sets

/-! Writing back what was read. A path through plain data leads to a cell, and writing there what is
there changes nothing, whatever that is, unless it is not a number. -/

namespace ViewBinding

/-- A number equals itself unless it is none. -/
theorem Float.beq_self (x : Float) : (x == x) = !x.isNaN := by
  cases h : x.isNaN with
  | false => exact (Float.beq_self_or_isNaN x).resolve_right (Bool.eq_false_iff.1 h)
  | true =>
    have hu : x.toModel.unpack.isNaN = true := h
    show x.toModel.unpack.beq x.toModel.unpack = false
    cases hx : x.toModel.unpack with
    | notANumber => rfl
    | _ => rw [hx] at hu; cases hu

namespace Value

/-- Whether a value is the number that is none. An array may have that among its items. -/
def isNaN : Value → Bool
  | number x => x.isNaN
  | _ => false

theorem same_self (v : Value) : v.same v = !v.isNaN := by
  cases v with
  | number x => exact Float.beq_self x
  | _ => simp [same, isNaN]

end Value

theorem Store.modify_eq_self {k : Kind} {α : Type} [Inhabited α] (s : Store k α) {r : Ref k}
    {f : α → α} (h : f (s.get r) = s.get r) : s.modify r f = s := by
  obtain ⟨entries⟩ := s
  refine congrArg Store.mk (Array.ext_getElem? fun i => ?_)
  rw [Array.getElem?_modify]
  split
  · rename_i hi
    subst hi
    cases he : entries[r.index]? with
    | none => rfl
    | some a =>
      have ha : Store.get ⟨entries⟩ r = a := by rw [Store.get, Store.get?, he, Option.getD_some]
      rw [ha] at h
      rw [Option.map_some, h]
  · rfl

namespace ViewModel

/-- Reads a path for nobody, and writes there what it read. -/
def writeBack (compute : Computed → Reading Value) (update : Subscriber → Action Unit)
    (m : Ref .model) (path : String) : Action Bool := do
  let v ← (ViewModel.read compute m path).once
  ViewModel.write compute update m path v

end ViewModel

namespace World

variable {w : World} {root o : Ref .object} {c : Ref .cell} {p : Path} {m : Ref .model}
  {path : String} {compute : Computed → Reading Value} {update : Subscriber → Action Unit}

theorem store_value (w : World) (c : Ref .cell) : w.store c (w.cells.get c).value = w := by
  have hcells := w.cells.modify_eq_self (r := c)
    (f := fun cell => { cell with value := (w.cells.get c).value }) rfl
  rw [store, hcells]

theorem Route.read_value (h : w.Route (w.models.get m).data p.parents o)
    (hp : Path.parse path = .ok p) (hs : w.slot? o p.last = some (.cell c)) :
    (ViewModel.read compute m path).once w = some (.ok (w.cells.get c).value, w) := by
  have hread : Object.read compute o p.last {} w = some ((.ok (w.cells.get c).value, {}), w) := by
    rw [Object.read, Reading.getWorld_bind, hs]
    rfl
  rw [ViewModel.read_once hp, h.resolve hread]

theorem Route.assign_value (h : w.Route root p.parents o)
    (hs : w.slot? o p.last = some (.cell c)) :
    p.assign compute update root (w.cells.get c).value w =
      if (w.cells.get c).value.isNaN then
        (do
          let failed ← Source.notify update (.cell c)
          if 0 < failed then
            Action.emit (.leftBehind failed none)
          return true : Action Bool) w
      else some (.ok false, w) := by
  have hwrite : p.assign compute update root (w.cells.get c).value w =
      Cell.write update c (w.cells.get c).value w := by
    rw [Path.assign, Action.bind_apply, h.follow_once compute p]
    show Object.write update o p.last (w.cells.get c).value w = _
    exact Object.write_cell hs _
  -- The guard compares the value with itself, and storing it again changes no entry.
  rw [hwrite, Cell.write, Action.get_bind, Value.same_self]
  cases (w.cells.get c).value.isNaN with
  | false => rfl
  | true =>
    rw [Bool.not_true, if_neg Bool.false_ne_true, if_pos rfl, Action.modify_bind, ← World.store,
      store_value]

end World

namespace ViewModel

open World

variable {w : World} {o : Ref .object} {c : Ref .cell} {p : Path} {m : Ref .model} {path : String}
  {compute : Computed → Reading Value} {update : Subscriber → Action Unit}

/-- Reading what a path through plain data leads to and writing that there again changes nothing at
all and is told nobody, unless it is not a number. Then it counts as a change: the data stays as it
is, and the subscribers are told. -/
theorem write_back (hp : Path.parse path = .ok p)
    (hroute : w.Route (w.models.get m).data p.parents o) (hs : w.slot? o p.last = some (.cell c)) :
    (ViewModel.read compute m path).once w = some (.ok (w.cells.get c).value, w) ∧
    ((w.cells.get c).value.isNaN = false →
      writeBack compute update m path w = some (.ok false, w)) ∧
    ((w.cells.get c).value.isNaN = true →
      writeBack compute update m path w = (do
        let failed ← Source.notify update (.cell c)
        if 0 < failed then
          Action.emit (.leftBehind failed none)
        return true : Action Bool) w ∧
      ∀ w', writeBack compute update m path w ≠ some (.ok false, w')) := by
  have hread : (ViewModel.read compute m path).once w = some (.ok (w.cells.get c).value, w) :=
    hroute.read_value hp hs
  have hwrite : writeBack compute update m path w =
      p.assign compute update (w.models.get m).data (w.cells.get c).value w := by
    rw [writeBack, Action.bind_apply, hread]
    exact write_apply hp
  rw [hwrite, hroute.assign_value hs]
  refine ⟨hread, fun hv => if_neg (Bool.eq_false_iff.1 hv), fun hv => ?_⟩
  rw [if_pos hv]
  refine ⟨rfl, fun w' h => ?_⟩
  obtain ⟨_, _, ⟨⟩⟩ | ⟨failed, w₁, -, h⟩ := Action.bind_eq_some h
  by_cases hf : 0 < failed
  · rw [if_pos hf] at h
    cases h
  · rw [if_neg hf] at h
    cases h

def watchedKnot : List Step := knot ++ [.watcher none "u" "me.me" []]

/-- A shared object with a subscriber is written back where it was read, around a cycle. -/
theorem write_back_knot : ∃ (w : World) (p : Path), Moment {} w ∧
    Path.parse "me.me" = .ok p ∧ w.Route (w.models.get ⟨0⟩).data p.parents ⟨1⟩ ∧
      w.slot? ⟨1⟩ p.last = some (.cell ⟨2⟩) ∧ (w.cells.get ⟨2⟩).value = .object ⟨1⟩ ∧
      w.due (.cell ⟨2⟩) = [.watcher ⟨0⟩] ∧
      writeBack (Engine.ofFuel 4).compute (Subscriber.update (Engine.ofFuel 4)) ⟨0⟩ "me.me" w =
        some (.ok false, w) := by
  let p : Path := ⟨["me", "me"], by decide⟩
  obtain ⟨w, h, hc⟩ := Moment.exists_of_run 4 [] watchedKnot
    (fun w => decide ((w.models.get ⟨0⟩).data = ⟨1⟩ ∧ w.property? ⟨1⟩ "me" = some (.cell ⟨2⟩) ∧
      (w.cells.get ⟨2⟩).value.object? = some ⟨1⟩ ∧ w.due (.cell ⟨2⟩) = [.watcher ⟨0⟩]))
    (by simp [watchedKnot, knot, Step.AllPlain, Step.Plain, Step.PlainMethods, Expr.IsOwn])
    (by decide +kernel)
  obtain ⟨hdata, hme, hvalue, hdue⟩ := of_decide_eq_true hc
  have hp : Path.parse "me.me" = .ok p := by decide +kernel
  have hslot : w.slot? ⟨1⟩ "me" = some (.cell ⟨2⟩) := slot?_of_property? hme
  have hvalue := Value.eq_object hvalue
  have hroute : w.Route (w.models.get ⟨0⟩).data p.parents ⟨1⟩ := by
    rw [hdata]
    exact .cons hslot hvalue (.nil ⟨1⟩)
  have hnumber : (w.cells.get ⟨2⟩).value.isNaN = false := by
    rw [hvalue]
    rfl
  exact ⟨w, p, h, hp, hroute, hslot, hvalue, hdue, (write_back hp hroute hslot).2.1 hnumber⟩

/-- What is not a number is written where it is already, and whoever watches it is called. -/
theorem write_back_not_a_number : ∃ (w w' : World) (p : Path), Moment {} w ∧
    Path.parse "a" = .ok p ∧ w.Route (w.models.get ⟨0⟩).data p.parents ⟨0⟩ ∧
      w.slot? ⟨0⟩ p.last = some (.cell ⟨0⟩) ∧
      writeBack (Engine.ofFuel 4).compute (Subscriber.update (Engine.ofFuel 4)) ⟨0⟩ "a" w =
        some (.ok true, w') ∧
      (w.effectsFrom 0).map Effect.script? = #[] ∧
      (w'.effectsFrom 0).map Effect.script? = #[some "u"] := by
  let p : Path := ⟨["a"], by decide⟩
  obtain ⟨w, h, hc⟩ := Moment.exists_of_run 4 []
    [.build none (some (.data (.object []))) [] [], .write none "a" (.number (0 / 0)),
      .watcher none "u" "a" []]
    (fun w => decide ((w.models.get ⟨0⟩).data = ⟨0⟩ ∧ w.property? ⟨0⟩ "a" = some (.cell ⟨0⟩)) &&
      (writeBack (Engine.ofFuel 4).compute (Subscriber.update (Engine.ofFuel 4)) ⟨0⟩ "a" w).any
        fun (q : Except Fault Bool × World) => q.1.toOption == some true &&
          decide ((w.effectsFrom 0).map Effect.script? = #[] ∧
            (q.2.effectsFrom 0).map Effect.script? = #[some "u"]))
    (by simp [Step.AllPlain, Step.Plain, Step.PlainMethods, Expr.IsOwn])
    (by decide +kernel)
  simp only [Bool.and_eq_true, Option.any_eq_true, decide_eq_true_eq, beq_iff_eq] at hc
  obtain ⟨⟨hdata, hslot⟩, ⟨res, w'⟩, hback, hres, hbefore, hcall⟩ := hc
  have hp : Path.parse "a" = .ok p := by decide +kernel
  have hroute : w.Route (w.models.get ⟨0⟩).data p.parents ⟨0⟩ := by
    rw [hdata]
    exact .nil ⟨0⟩
  cases res with
  | error f => cases hres
  | ok b =>
    cases hres
    exact ⟨w, w', p, h, hp, hroute, slot?_of_property? hslot, hback, hbefore, hcall⟩

end ViewModel

end ViewBinding
