import ViewBinding.Proofs.Sources
import ViewBinding.Script.Run

/-! Conditions on every step of a script, however deep, and on all scripts that a world keeps. -/

namespace ViewBinding

variable (P : Step → Prop)

mutual

/-- Whether a condition holds of a step and of all the steps in it. -/
def Step.Every : Step → Prop
  | .build name data computed methods =>
    P (.build name data computed methods) ∧ Step.EveryMethod methods
  | .mount name target data computed methods settings =>
    P (.mount name target data computed methods settings) ∧ Step.EveryMethod methods
  | .watch model id path steps => P (.watch model id path steps) ∧ Step.EveryAll steps
  | .watcher model id path steps => P (.watcher model id path steps) ∧ Step.EveryAll steps
  | .react id steps => P (.react id steps) ∧ Step.EveryAll steps
  | .cond test yes no => P (.cond test yes no) ∧ Step.EveryAll yes ∧ Step.EveryAll no
  | .attempt steps => P (.attempt steps) ∧ Step.EveryAll steps
  | .loop times steps => P (.loop times steps) ∧ Step.EveryAll steps
  | s => P s
termination_by structural s => s

def Step.EveryAll : List Step → Prop
  | [] => True
  | s :: rest => s.Every ∧ Step.EveryAll rest
termination_by structural ss => ss

def Step.EveryMethod : List (String × List Step) → Prop
  | [] => True
  | method :: rest => Step.EveryIn method ∧ Step.EveryMethod rest
termination_by structural ms => ms

def Step.EveryIn : String × List Step → Prop
  | (_, steps) => Step.EveryAll steps
termination_by structural m => m

end

variable {P}

theorem Step.Every.head {s : Step} (h : s.Every P) : P s := by
  cases s with
  | build => exact h.1
  | mount => exact h.1
  | watch => exact h.1
  | watcher => exact h.1
  | react => exact h.1
  | cond => exact h.1
  | attempt => exact h.1
  | loop => exact h.1
  | _ => exact h

theorem Step.everyMethod_iff (methods : List (String × List Step)) :
    Step.EveryMethod P methods ↔ ∀ method ∈ methods, Step.EveryAll P method.2 := by
  induction methods with
  | nil => simp [Step.EveryMethod]
  | cons method rest ih =>
    obtain ⟨name, steps⟩ := method
    rw [List.forall_mem_cons, ← ih]
    exact Iff.rfl

mutual

theorem Step.every_of_forall (hP : ∀ s, P s) (s : Step) : s.Every P := by
  cases s with
  | build name data computed methods => exact ⟨hP _, Step.everyMethod_of_forall hP methods⟩
  | mount name target data computed methods settings =>
    exact ⟨hP _, Step.everyMethod_of_forall hP methods⟩
  | watch model id path steps => exact ⟨hP _, Step.everyAll_of_forall hP steps⟩
  | watcher model id path steps => exact ⟨hP _, Step.everyAll_of_forall hP steps⟩
  | react id steps => exact ⟨hP _, Step.everyAll_of_forall hP steps⟩
  | cond test yes no => exact ⟨hP _, Step.everyAll_of_forall hP yes, Step.everyAll_of_forall hP no⟩
  | attempt steps => exact ⟨hP _, Step.everyAll_of_forall hP steps⟩
  | loop times steps => exact ⟨hP _, Step.everyAll_of_forall hP steps⟩
  | _ => exact hP _
termination_by structural s

theorem Step.everyAll_of_forall (hP : ∀ s, P s) (steps : List Step) : Step.EveryAll P steps := by
  cases steps with
  | nil => trivial
  | cons s rest => exact ⟨Step.every_of_forall hP s, Step.everyAll_of_forall hP rest⟩
termination_by structural steps

theorem Step.everyMethod_of_forall (hP : ∀ s, P s) (methods : List (String × List Step)) :
    Step.EveryMethod P methods := by
  cases methods with
  | nil => trivial
  | cons method rest =>
    exact ⟨Step.everyIn_of_forall hP method, Step.everyMethod_of_forall hP rest⟩
termination_by structural methods

theorem Step.everyIn_of_forall (hP : ∀ s, P s) (method : String × List Step) :
    Step.EveryIn P method := by
  cases method with
  | mk name steps => exact Step.everyAll_of_forall hP steps
termination_by structural method

end

variable (P) in
def Callback.Every : Callback → Prop
  | .run _ steps => Step.EveryAll P steps
  | .write _ _ => True
  | .render _ _ => True

def Step.Calls : Step → Prop
  | .call _ _ _ _ => True
  | .input _ _ => True
  | .dispatch _ _ => True
  | .event _ _ _ => True
  | _ => False

variable (P) in
/-- Whether some step that may be taken calls methods. -/
def Callable : Prop := ∃ s : Step, P s ∧ s.Calls

variable (P) in
/-- Whether a condition holds of every step of the scripts that may be called. -/
structure World.Stored (w : World) : Prop where
  callback : ∀ r, (w.watchers.get r).callback.Every P
  methods : Callable P → ∀ m (name : String) steps, (w.models.get m).methods[name]? = some steps →
    Step.EveryAll P steps
  reaction : ∀ r, Step.EveryAll P (w.reactions.get r).steps

theorem World.stored_of_forall (hP : ∀ s, P s) (w : World) : w.Stored P where
  callback r := by
    cases (w.watchers.get r).callback with
    | run id steps => exact Step.everyAll_of_forall hP steps
    | _ => trivial
  methods _ _ _ steps _ := Step.everyAll_of_forall hP steps
  reaction r := Step.everyAll_of_forall hP _

theorem World.Stored.of_default {w : World} (hw : w.watchers = {}) (hm : w.models = {})
    (hr : w.reactions = {}) : w.Stored P where
  callback r := by
    rw [hw, Store.get_of_size_le _ (Nat.zero_le _)]
    trivial
  methods _ m name steps h := by
    rw [hm, Store.get_of_size_le _ (Nat.zero_le _)] at h
    simp [default, instInhabitedViewModel.default] at h
  reaction r := by
    rw [hr, Store.get_of_size_le _ (Nat.zero_le _)]
    trivial

end ViewBinding
