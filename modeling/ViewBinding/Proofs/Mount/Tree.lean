import ViewBinding.Binding
import ViewBinding.Proofs.Nodes

/-! View trees, and what is watched and heard in them once they are bound. -/

namespace ViewBinding

/-- A part of a view as a tree. Below texts nothing is bound. -/
inductive Tree
  | element (n : Ref .node) (attrs : List (String × String)) (children : List Tree)
  | text (n : Ref .node) (text : String)
  | other (n : Ref .node)

namespace Tree

def root : Tree → Ref .node
  | element n _ _ => n
  | text n _ => n
  | other n => n

mutual

def nodes : Tree → List (Ref .node)
  | element n _ ts => n :: nodesAll ts
  | text n _ => [n]
  | other n => [n]
termination_by structural t => t

def nodesAll : List Tree → List (Ref .node)
  | [] => []
  | t :: ts => t.nodes ++ nodesAll ts
termination_by structural ts => ts

end

mutual

def height : Tree → Nat
  | element _ _ ts => heightAll ts + 1
  | text _ _ => 1
  | other _ => 1
termination_by structural t => t

def heightAll : List Tree → Nat
  | [] => 0
  | t :: ts => max t.height (heightAll ts)
termination_by structural ts => ts

end

mutual

theorem height_le : ∀ t : Tree, t.height ≤ t.nodes.length
  | element _ _ ts => Nat.succ_le_succ (heightAll_le ts)
  | text _ _ => Nat.le_refl 1
  | other _ => Nat.le_refl 1

theorem heightAll_le : ∀ ts : List Tree, heightAll ts ≤ (nodesAll ts).length
  | [] => Nat.le_refl 0
  | t :: ts => by
    have h := height_le t
    have hs := heightAll_le ts
    rw [heightAll, nodesAll, List.length_append]
    omega

end

theorem root_mem_nodes (t : Tree) : t.root ∈ t.nodes := by
  cases t <;> exact List.mem_cons_self

theorem mem_nodesAll {t : Tree} {ts : List Tree} (h : t ∈ ts) : t.nodes ⊆ nodesAll ts := by
  induction ts with
  | nil => cases h
  | cons t' ts ih =>
    rw [nodesAll]
    obtain rfl | h := List.mem_cons.1 h
    · exact List.subset_append_left ..
    · exact List.Subset.trans (ih h) (List.subset_append_right ..)

end Tree

namespace View

variable {v v' : View}

mutual

def Holds (v : View) : Tree → Prop
  | .element n attrs ts => (v.node n).sort = .element ∧ (v.node n).attrs = attrs ∧
      v.children n = ts.map Tree.root ∧ v.HoldsAll ts
  | .text n text => (v.node n).sort = .text ∧ (v.node n).text = text
  | .other n => (v.node n).sort = .other
termination_by structural t => t

def HoldsAll (v : View) : List Tree → Prop
  | [] => True
  | t :: ts => v.Holds t ∧ v.HoldsAll ts
termination_by structural ts => ts

end

mutual

theorem Holds.moved : ∀ t : Tree, (∀ n ∈ t.nodes, (v.node n).Moved (v'.node n)) →
    v.Holds t → v'.Holds t
  | .element n attrs ts, hm, ⟨hs, ha, hc, ht⟩ => by
    have hn := hm n List.mem_cons_self
    exact ⟨hn.sort.trans hs, hn.attrs.trans ha, hn.children.trans hc,
      HoldsAll.moved ts (fun n hn => hm n (List.mem_cons_of_mem _ hn)) ht⟩
  | .text n text, hm, ⟨hs, ht⟩ => by
    have hn := hm n List.mem_cons_self
    exact ⟨hn.sort.trans hs, hn.text.trans ht⟩
  | .other n, hm, hs => (hm n List.mem_cons_self).sort.trans hs

theorem HoldsAll.moved : ∀ ts : List Tree, (∀ n ∈ Tree.nodesAll ts, (v.node n).Moved (v'.node n)) →
    v.HoldsAll ts → v'.HoldsAll ts
  | [], _, _ => trivial
  | t :: ts, hm, ⟨ht, hts⟩ =>
    ⟨Holds.moved t (fun n hn => hm n (List.mem_append_left _ hn)) ht,
      HoldsAll.moved ts (fun n hn => hm n (List.mem_append_right _ hn)) hts⟩

end

/-- Whether there are trees below a node, and no node is in two places. -/
structure Bears (v : View) (root : Ref .node) (ts : List Tree) : Prop where
  children : v.children root = ts.map Tree.root
  holds : v.HoldsAll ts
  nodup : (root :: Tree.nodesAll ts).Nodup
  made : ∀ n ∈ root :: Tree.nodesAll ts, n.index < v.nodes.size

end View

section Plan

variable (s : Settings) (methods : Keyed (List Step)) (m : Ref .model)
  (reach : String → Except Fault Path) (inner : String → List String)

def Directive.Use.watched (u : Directive.Use) (value : String) : Except Fault (List Path) :=
  match u.directive, u.argument with
  | .on, none => .error (.missingArgument .on)
  | .on, some _ => if value ∈ methods then .ok [] else .error (.unknownMethod value)
  | _, _ => (reach value).map fun p => [p]

def Directive.Use.heard (u : Directive.Use) (value : String) (n : Ref .node) : List Listener :=
  match u.directive, u.argument with
  | .model, _ => [{ event := "input", response := .assign m value n }]
  | .on, some event => [{ event, response := .call m value }]
  | _, _ => []

def Settings.use? (attr : String × String) : Option Directive.Use :=
  match Directive.parse s.marker attr.1 with
  | .ok u? => u?
  | .error _ => none

/-- The path that an attribute renders as text, if it uses a text directive. -/
def Settings.rendered? (attr : String × String) : Option String :=
  if (s.use? attr).any (·.directive = .text) then some attr.2 else none

/-- The path of the last text directive among attributes. -/
def Settings.textPath? : List (String × String) → Option String
  | [] => none
  | attr :: attrs => (textPath? attrs).or (s.rendered? attr)

def Settings.watchedAttr (attr : String × String) : Except Fault (List Path) := do
  match ← Directive.parse s.marker attr.1 with
  | some u => u.watched methods reach attr.2
  | none => return []

def Settings.watchedAttrs : List (String × String) → Except Fault (List Path)
  | [] => return []
  | attr :: attrs => do
    let ps ← s.watchedAttr methods reach attr
    let qs ← watchedAttrs attrs
    return ps ++ qs

def Settings.heardAttr (n : Ref .node) (attr : String × String) : List (Ref .node × Listener) :=
  match s.use? attr with
  | some u => (u.heard m attr.2 n).map (n, ·)
  | none => []

def Template.pathsOf (d : Delimiters) (text : String) : List String :=
  ((Template.parse d text).map Template.paths).getD []

namespace Tree

mutual

/-- The paths that are watched for a tree, in order. Below an element with a text directive there is
nothing but the text which that rendered, with the interpolated paths that are `inner` to its path.
-/
def watched : Tree → Except Fault (List Path)
  | element _ attrs ts => do
    let ps ← s.watchedAttrs methods reach attrs
    let qs ← (s.textPath? attrs).elim (watchedAll ts) fun path => (inner path).mapM reach
    return ps ++ qs
  | text _ content => (Template.pathsOf s.delimiters content).mapM reach
  | other _ => return []
termination_by structural t => t

def watchedAll : List Tree → Except Fault (List Path)
  | [] => return []
  | t :: ts => do
    let ps ← t.watched
    let qs ← watchedAll ts
    return ps ++ qs
termination_by structural ts => ts

end

mutual

def heard : Tree → List (Ref .node × Listener)
  | element n attrs ts =>
    attrs.flatMap (s.heardAttr m n) ++ if (s.textPath? attrs).isSome then [] else heardAll ts
  | text _ _ => []
  | other _ => []
termination_by structural t => t

def heardAll : List Tree → List (Ref .node × Listener)
  | [] => []
  | t :: ts => t.heard ++ heardAll ts
termination_by structural ts => ts

end

mutual

def textPaths : Tree → List String
  | element _ attrs ts =>
    match s.textPath? attrs with
    | some path => [path]
    | none => textPathsAll ts
  | text _ _ => []
  | other _ => []
termination_by structural t => t

def textPathsAll : List Tree → List String
  | [] => []
  | t :: ts => t.textPaths ++ textPathsAll ts
termination_by structural ts => ts

end

variable {inner} {inner' : String → List String}

mutual

theorem watched_congr : ∀ t : Tree, (∀ path ∈ t.textPaths s, inner path = inner' path) →
    t.watched s methods reach inner = t.watched s methods reach inner'
  | element _ attrs ts, h => by
    rw [watched, watched]
    rw [textPaths] at h
    cases hp : s.textPath? attrs with
    | some path =>
      rw [hp] at h
      rw [Option.elim_some, Option.elim_some, h path (List.mem_singleton_self path)]
    | none =>
      rw [hp] at h
      rw [Option.elim_none, Option.elim_none, watchedAll_congr ts h]
  | text _ _, _ => rfl
  | other _, _ => rfl

theorem watchedAll_congr : ∀ ts : List Tree,
    (∀ path ∈ textPathsAll s ts, inner path = inner' path) →
    watchedAll s methods reach inner ts = watchedAll s methods reach inner' ts
  | [], _ => rfl
  | t :: ts, h => by
    rw [watchedAll, watchedAll, watched_congr t fun path hp => h path (List.mem_append_left _ hp),
      watchedAll_congr ts fun path hp => h path (List.mem_append_right _ hp)]

end

end Tree

end Plan

end ViewBinding
