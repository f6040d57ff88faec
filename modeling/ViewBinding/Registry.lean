import Std.Data.ExtTreeSet
import ViewBinding.Store

/-! Subscribers, and the registries that keep those of one property. -/

namespace ViewBinding

/-- What is updated after a property it read was written. -/
inductive Subscriber
  | watcher (w : Ref .watcher)
  | reaction (r : Ref .reaction)
  deriving DecidableEq, Inhabited

namespace Subscriber

/-- A number for each subscriber, even for watchers and odd for reactions. -/
def number : Subscriber → Nat
  | watcher w => 2 * w.index
  | reaction r => 2 * r.index + 1

theorem number_inj {s t : Subscriber} (h : s.number = t.number) : s = t := by
  obtain ⟨⟨i⟩⟩ | ⟨⟨i⟩⟩ := s <;> obtain ⟨⟨j⟩⟩ | ⟨⟨j⟩⟩ := t <;> simp [number] at h ⊢ <;> omega

def order (s t : Subscriber) : Ordering := compare s.number t.number

instance : Std.TransCmp order := inferInstanceAs (Std.TransCmp (compareOn number))

instance : Std.LawfulEqCmp order where
  eq_of_compare h := number_inj (Std.LawfulEqCmp.eq_of_compare h)

end Subscriber

/-- The subscribers of one property in the order they came, each once. Those that are no longer
alive stay until the next notification. -/
structure Registry where
  order : List Subscriber := []
  members : Std.ExtTreeSet Subscriber Subscriber.order := ∅

namespace Registry

instance : Inhabited Registry := ⟨{}⟩

/-- Adds a subscriber at the end; one that is a member cannot be added again. -/
def add? (r : Registry) (s : Subscriber) : Option Registry :=
  if s ∈ r.members then none
  else some { order := r.order ++ [s], members := r.members.insert s }

def live (alive : Subscriber → Bool) (r : Registry) : List Subscriber := r.order.filter alive

def prune (alive : Subscriber → Bool) (r : Registry) : Registry where
  order := r.live alive
  members := (r.order.filter fun s => !alive s).foldl (·.erase ·) r.members

theorem add?_eq_none_iff (r : Registry) (s : Subscriber) : r.add? s = none ↔ s ∈ r.members := by
  simp [add?]

theorem order_add? {r r' : Registry} {s : Subscriber} (h : r.add? s = some r') :
    r'.order = r.order ++ [s] := by
  simp only [add?, Option.ite_none_left_eq_some] at h
  simp [← Option.some.inj h.2]

theorem mem_members_add? {r r' : Registry} {s t : Subscriber} (h : r.add? s = some r') :
    t ∈ r'.members ↔ t = s ∨ t ∈ r.members := by
  have hr : r'.members = r.members.insert s := by
    simp only [add?, Option.ite_none_left_eq_some] at h
    simp [← Option.some.inj h.2]
  rw [hr, Std.ExtTreeSet.mem_insert, Std.LawfulEqCmp.compare_eq_iff_eq, eq_comm]

theorem live_prune (alive : Subscriber → Bool) (r : Registry) :
    (r.prune alive).live alive = r.live alive := by
  simp [prune, live]

end Registry

end ViewBinding
