import Mathlib.Data.List.Nodup
import Mathlib.Data.List.Perm.Subperm
import ViewBinding.Proofs.Mount.Walk
import ViewBinding.Proofs.Run.Bindings
import ViewBinding.Script.Model

/-! Mounting a view tree on plain data: what the new view-model watches, and what the nodes listen
to. -/

namespace ViewBinding

variable {w : World} {compute : Computed → Reading Value} {root : Ref .node} {ts : List Tree}

theorem View.Bears.length_lt {v : View} (hb : v.Bears root ts) :
    (Tree.nodesAll ts).length < v.nodes.size := by
  have hn : ((root :: Tree.nodesAll ts).map Ref.index).Nodup :=
    List.Nodup.map (fun a b h => by cases a; cases b; cases h; rfl) hb.nodup
  have hs : (root :: Tree.nodesAll ts).map Ref.index ⊆ List.range v.nodes.size := fun i hi => by
    obtain ⟨n, hn, rfl⟩ := List.mem_map.1 hi
    exact List.mem_range.2 (hb.made n hn)
  have hl := (hn.subperm hs).length_le
  rw [List.length_map, List.length_range] at hl
  exact hl

theorem Settings.compile_apply (s : Settings) (m : Ref .model) :
    s.compile compute m root w = (s.bindNodes compute m ((w.view.detach root).2.nodes.size + 1)
      (w.view.children root) { w with
        view := (w.view.detach root).2
        trace := (w.emit (.detach root (w.view.children root))).trace }).map fun p =>
          (p.1, { p.2 with
            view := p.2.view.append root (w.view.children root)
            trace := (p.2.emit (.append root (w.view.children root))).trace }) := by
  rw [compile, Action.modifyGet_bind]
  dsimp only
  rw [Action.emit, Action.tell, Action.modify_bind, Action.get_bind, Action.bind_apply,
    Action.faultOf_apply]
  dsimp only [View.detach, World.emit, World.tell]
  cases s.bindNodes compute m _ (w.view.children root) _ with
  | none => rfl
  | some p => obtain ⟨_ | _, _⟩ := p <;> rfl

variable (compute) in
theorem Settings.compile_binds {h : Host} (s : Settings) (hp : h.Plain) (hw : w.Hosts h)
    (hb : w.view.Bears root ts) (hbase : w.view.nodes.size = h.base) :
    (s.compile compute h.model root).Binds w
      (Tree.watchedAll s h.methods h.reach (h.inner s.delimiters) ts) fun ps w' =>
        w'.watched h.model = w.watched h.model ++ ps ∧ ∀ n, (w'.view.node n).listeners =
          (w.view.node n).listeners ++ heardAt n (Tree.heardAll s h.model ts) := by
  let w₁ : World := { w with
    view := (w.view.detach root).2
    trace := (w.emit (.detach root (w.view.children root))).trace }
  have hsize : w₁.view.nodes.size = w.view.nodes.size := w.view.size_detach root
  have hw₁ : w₁.Hosts h := { hw with nodes := Nat.le_of_eq (hbase.symm.trans hsize.symm) }
  have hu := List.nodup_cons.1 hb.nodup
  have ht₁ : w₁.view.HoldsAll ts := View.HoldsAll.moved ts (fun n hn =>
    w.view.moved_detach fun e => hu.1 (e ▸ hn)) hb.holds
  have hd : Tree.heightAll ts < w₁.view.nodes.size + 1 := by
    have hle := Tree.heightAll_le ts
    have hlt := hb.length_lt
    omega
  have hm (n : Ref .node) (hn : n ∈ Tree.nodesAll ts) : n.index < h.base :=
    hbase ▸ hb.made n (List.mem_cons_of_mem root hn)
  have hbind := s.bindNodes_binds compute hp _ ts w₁ hd hw₁ ht₁ hu.2 hm
  rw [← hb.children] at hbind
  cases hplan : Tree.watchedAll s h.methods h.reach (h.inner s.delimiters) ts with
  | error f =>
    rw [hplan] at hbind
    obtain ⟨w₂, he⟩ := hbind
    exact ⟨_, (s.compile_apply h.model).trans (congrArg _ he)⟩
  | ok ps =>
    rw [hplan] at hbind
    obtain ⟨w₂, he, hbo⟩ := hbind
    refine ⟨_, (s.compile_apply h.model).trans (congrArg _ he), hbo.watched, fun n => ?_⟩
    refine (w₂.view.listeners_append root n (w.view.children root)).trans ?_
    rw [hbo.view.listeners, w.view.listeners_detach]

def MountPoint.find (v : View) : MountPoint → Option (Ref .node)
  | .node n => some n
  | .selector text => v.query text

/-- The host that mounting on an object makes. -/
def World.host (w : World) (o : Ref .object) (methods : List (String × List Step)) : Host where
  sight := w.sight
  model := w.models.fresh
  root := o
  methods := Setup.methodTable { data := .object o, methods }
  base := w.view.nodes.size

def World.mounting (w : World) (o : Ref .object) (methods : List (String × List Step)) : World :=
  World.useModel
    { w with models := w.models.add { data := o, methods := (w.host o methods).methods } }
    w.models.fresh

section

variable {o : Ref .object} {methods : List (String × List Step)} {point : MountPoint}

theorem World.hosts_mounting (w : World) (o : Ref .object) (methods : List (String × List Step)) :
    (w.mounting o methods).Hosts (w.host o methods) ∧
      (w.mounting o methods).watched w.models.fresh = [] := by
  have hm : (w.mounting o methods).models.get w.models.fresh =
      { data := o, methods := (w.host o methods).methods } :=
    (w.models.get_add _ _).trans (if_pos rfl)
  refine ⟨{
    slot? := rfl
    value := rfl
    made := Nat.lt_of_lt_of_eq (Nat.lt_succ_self _) (w.models.size_add _).symm
    root := congrArg ViewModel.data hm
    methods := congrArg ViewModel.methods hm
    owned := fun r hr => ?_
    nodes := Nat.le_refl _ }, ?_⟩
  · rw [show (w.host o methods).model = w.models.fresh from rfl, hm] at hr
    cases hr
  · rw [World.watched, hm]
    rfl

theorem ViewModel.mount_apply (hpoint : point.find w.view = some root) (s : Settings)
    (name : Option String) : ViewModel.mount compute point { data := .object o, methods } s
      (Script.nameModel name) w =
        (s.compile compute w.models.fresh root (w.mounting o methods)).map fun
          | (.error f, w') => (.error f, w'.releaseModel w.models.fresh)
          | (.ok (), w') => (.ok w.models.fresh, World.releaseModel { w' with
              names := { w'.names with
                models := w'.names.models.bind (Script.modelName name) w.models.fresh } }
              w.models.fresh) := by
  have hat (n : Ref .node) : (ViewModel.create { data := .object o, methods } >>= fun m => do
      Action.usingModel m do
        s.compile compute m n
        Script.nameModel name m
      return m) w = (s.compile compute w.models.fresh n (w.mounting o methods)).map fun
          | (.error f, w') => (.error f, w'.releaseModel w.models.fresh)
          | (.ok (), w') => (.ok w.models.fresh, World.releaseModel { w' with
              names := { w'.names with
                models := w'.names.models.bind (Script.modelName name) w.models.fresh } }
              w.models.fresh) := by
    have hc : ViewModel.create { data := .object o, methods } w = some (.ok w.models.fresh, { w with
        models := w.models.add { data := o, methods := (w.host o methods).methods } }) := by
      rw [create_apply]
      rfl
    rw [Action.bind_apply, hc]
    dsimp only
    rw [Action.bind_apply, Action.usingModel_apply, Action.bind_apply, World.mounting]
    cases s.compile compute w.models.fresh n _ with
    | none => rfl
    | some p => obtain ⟨_ | _, _⟩ := p <;> rfl
  cases point with
  | node n =>
    cases hpoint
    exact hat root
  | selector text =>
    rw [mount, Action.get_bind, show w.view.query text = some root from hpoint]
    exact hat root

variable (compute methods) in
/-- Mounting on plain data goes as planned. -/
theorem ViewModel.mount_binds {P : Ref .object → Prop} (hP : w.sight.PlainOn P) (ho : P o)
    (hb : w.view.Bears root ts) (hpoint : point.find w.view = some root) (s : Settings)
    (name : Option String) :
    let h := w.host o methods
    let plan := Tree.watchedAll s h.methods h.reach (h.inner s.delimiters) ts
    (∀ f, plan = .error f → ∃ w', ViewModel.mount compute point { data := .object o, methods } s
      (Script.nameModel name) w = some (.error f, w')) ∧
    (∀ ps, plan = .ok ps → ∃ w', ViewModel.mount compute point { data := .object o, methods } s
      (Script.nameModel name) w = some (.ok w.models.fresh, w') ∧
        w'.watched w.models.fresh = ps ∧ ∀ n, (w'.view.node n).listeners =
          (w.view.node n).listeners ++ heardAt n (Tree.heardAll s w.models.fresh ts)) := by
  intro h plan
  obtain ⟨hw, hwa⟩ := w.hosts_mounting o methods
  have hc := s.compile_binds compute ⟨P, hP, ho⟩ hw hb rfl
  rw [mount_apply hpoint]
  refine ⟨fun f hplan => ?_, fun ps hplan => ?_⟩
  · rw [show Tree.watchedAll s h.methods h.reach (h.inner s.delimiters) ts = _ from hplan] at hc
    obtain ⟨w₂, he⟩ := hc
    exact ⟨_, congrArg _ he⟩
  · rw [show Tree.watchedAll s h.methods h.reach (h.inner s.delimiters) ts = _ from hplan] at hc
    obtain ⟨w₂, he, hps, hl⟩ := hc
    refine ⟨_, congrArg _ he, ?_, hl⟩
    rw [show h.model = w.models.fresh from rfl, hwa] at hps
    exact hps

end

end ViewBinding
