import ViewBinding.Proofs.Course.Scripts
import ViewBinding.Session

/-! Guests: watchers that do nothing when their value changes, recognized by their ids. What is left
of a script without them, and without the ways in which its callbacks end. -/

namespace ViewBinding

mutual

def Step.Verdict : Step → Prop
  | .fail _ => True
  | .cond _ yes no => Step.AllVerdict yes ∧ Step.AllVerdict no
  | _ => False
termination_by structural s => s

def Step.AllVerdict : List Step → Prop
  | [] => True
  | s :: rest => s.Verdict ∧ Step.AllVerdict rest
termination_by structural ss => ss

end

variable (G : List String)

/-- Whether a step makes a guest. -/
def Step.admits : Step → Bool
  | .watch _ id _ _ => id ∈ G
  | .watcher _ id _ _ => id ∈ G
  | _ => false

def Step.isGuest : Step → Bool
  | .dropWatcher id => id ∈ G
  | s => s.admits G

/-- A step that does not ask for numbers of watchers or subscribers, nor for a guest, and does not
update anyone itself. Guests do nothing. -/
def Step.Fair : Step → Prop
  | .watch _ id _ steps => id ∈ G → Step.AllVerdict steps
  | .watcher _ id _ steps => id ∈ G → Step.AllVerdict steps
  | .watcherValue id => id ∉ G
  | .watcherPath id => id ∉ G
  | .showWatcher id => id ∉ G
  | .watcherUpdate _ => False
  | .notify _ => False
  | .watcherCount _ => False
  | .cellSubscribers _ => False
  | .registrySize _ => False
  | _ => True

/-- A choice between two scripts, unless both are empty. -/
def Step.choice (test : Expr) : List Step → List Step → List Step
  | [], [] => []
  | yes, no => [.cond test yes no]

/-- A step that is the last one, or stands before others. -/
def Step.before (s : Step) (last : List Step) : List Step → List Step
  | [] => last
  | rest => s :: rest

mutual

def Step.core : Step → Step
  | .build name data computed methods => .build name data computed (Step.coreMethods methods)
  | .mount name target data computed methods settings =>
    .mount name target data computed (Step.coreMethods methods) settings
  | .watch model id path steps => .watch model id path (Step.coreCallback steps)
  | .watcher model id path steps => .watcher model id path (Step.coreCallback steps)
  | .react id steps => .react id (Step.coreAll steps)
  | .cond test yes no => .cond test (Step.coreAll yes) (Step.coreAll no)
  | .attempt steps => .attempt (Step.coreAll steps)
  | .loop times steps => .loop times (Step.coreAll steps)
  | s => s
termination_by structural s => s

/-- What is left of the steps of a script: those without guests. -/
def Step.coreAll : List Step → List Step
  | [] => []
  | s :: rest => if s.isGuest G then Step.coreAll rest else s.core :: Step.coreAll rest
termination_by structural ss => ss

/-- What is left of a callback, whose end may be a failure in one run and none in another. -/
def Step.coreCallback : List Step → List Step
  | [] => []
  | s :: rest =>
    if s.isGuest G then Step.coreCallback rest
    else
      let last := match s with
        | .fail _ => []
        | .cond test yes no => Step.choice test (Step.coreCallback yes) (Step.coreCallback no)
        | s => [s.core]
      Step.before s.core last (Step.coreCallback rest)
termination_by structural ss => ss

def Step.coreMethods : List (String × List Step) → List (String × List Step)
  | [] => []
  | method :: rest => Step.coreMethod method :: Step.coreMethods rest
termination_by structural ms => ms

def Step.coreMethod : String × List Step → String × List Step
  | (name, steps) => (name, Step.coreAll steps)
termination_by structural m => m

end

def Step.coreLast : Step → List Step
  | .fail _ => []
  | .cond test yes no => Step.choice test (Step.coreCallback G yes) (Step.coreCallback G no)
  | s => [s.core G]

theorem Step.coreCallback_cons (s : Step) (rest : List Step) :
    Step.coreCallback G (s :: rest) =
      if s.isGuest G then Step.coreCallback G rest
      else Step.before (s.core G) (s.coreLast G) (Step.coreCallback G rest) := by
  cases s <;> rfl

end ViewBinding
