import ViewBinding.Proofs.Look

/-! Scripts whose view-models are built from plain documents of their own. -/

namespace ViewBinding

/-- An expression that makes its value from a document; without one there is an empty object. -/
def Expr.IsOwn : Option Expr → Prop
  | none => True
  | some (.data _) => True
  | some _ => False

mutual

/-- A step that builds view-models only from documents of their own, with computed properties that
depend on nothing but what they read. -/
def Step.Plain : Step → Prop
  | .build _ data computed methods =>
    Expr.IsOwn data ∧ (∀ c ∈ computed, c.2.Tracked) ∧ Step.PlainMethods methods
  | .mount _ _ data computed methods _ =>
    Expr.IsOwn data ∧ (∀ c ∈ computed, c.2.Tracked) ∧ Step.PlainMethods methods
  | .watch _ _ _ steps => Step.AllPlain steps
  | .watcher _ _ _ steps => Step.AllPlain steps
  | .react _ steps => Step.AllPlain steps
  | .cond _ yes no => Step.AllPlain yes ∧ Step.AllPlain no
  | .attempt steps => Step.AllPlain steps
  | .loop _ steps => Step.AllPlain steps
  | _ => True
termination_by structural s => s

def Step.AllPlain : List Step → Prop
  | [] => True
  | s :: rest => s.Plain ∧ Step.AllPlain rest
termination_by structural ss => ss

def Step.PlainMethods : List (String × List Step) → Prop
  | [] => True
  | method :: rest => Step.PlainMethod method ∧ Step.PlainMethods rest
termination_by structural ms => ms

def Step.PlainMethod : String × List Step → Prop
  | (_, steps) => Step.AllPlain steps
termination_by structural m => m

end

theorem Step.plainMethods_iff (methods : List (String × List Step)) :
    Step.PlainMethods methods ↔ ∀ method ∈ methods, Step.AllPlain method.2 := by
  induction methods with
  | nil => simp [Step.PlainMethods]
  | cons method rest ih =>
    obtain ⟨name, steps⟩ := method
    rw [List.forall_mem_cons, ← ih]
    exact Iff.rfl

end ViewBinding
