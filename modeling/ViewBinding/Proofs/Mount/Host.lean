import ViewBinding.Proofs.Goes
import ViewBinding.Proofs.Mount.Data
import ViewBinding.Proofs.Mount.Tree

/-! View-models on plain data that views are bound to. -/

namespace ViewBinding

variable {w w' : World} {compute : Computed → Reading Value}

section Watching

variable {m : Ref .model} {path : String} {p : Path} {callback : Callback}

theorem Watcher.create_looks (h : Path.parse path = .ok p) :
    create compute m path callback w =
      (evaluate compute w.watchers.fresh >>= fun v => setValue w.watchers.fresh v >>= fun _ =>
        Action.tell (.made w.watchers.fresh v) >>= fun _ => pure w.watchers.fresh)
          { w with watchers := w.watchers.add { model := m, path := p, callback } } := by
  rw [create, Action.bind_apply, h]
  rfl

namespace ViewModel

theorem watch_misspelt {f : Fault} (h : Path.parse path = .error f) :
    watch compute m path callback w = some (.error f, w) := by
  rw [watch, Action.bind_apply, Watcher.create, Action.bind_apply, h]
  rfl

variable (h : Path.parse path = .ok p)
include h

theorem watch_unseen {f : Fault} (he : Watcher.evaluate compute w.watchers.fresh
      { w with watchers := w.watchers.add { model := m, path := p, callback } } =
        some (.error f, w')) :
    watch compute m path callback w = some (.error f, w') := by
  rw [watch, Action.bind_apply, Watcher.create_looks h, Action.bind_apply, he]

theorem watch_seen {v : Value} (he : Watcher.evaluate compute w.watchers.fresh
      { w with watchers := w.watchers.add { model := m, path := p, callback } } =
        some (.ok v, w')) :
    watch compute m path callback w = some (.ok w.watchers.fresh,
      { w'.tell (.made w.watchers.fresh v) with
      watchers := w'.watchers.modify w.watchers.fresh fun watcher => { watcher with value := v }
      models := w'.models.modify m fun model =>
        { model with watchers := model.watchers ++ [w.watchers.fresh] } }) := by
  rw [watch, Action.bind_apply, Watcher.create_looks h, Action.bind_apply, he]
  rfl

end ViewModel

end Watching

/-- What matters of a world for binding a view to a view-model in it. -/
structure Host where
  sight : Sight
  model : Ref .model
  root : Ref .object
  methods : Keyed (List Step)
  /-- How many nodes there were at first. -/
  base : Nat

namespace Host

variable {h : Host}

/-- What a path leads to. -/
def data (h : Host) (path : String) : Except Fault Value :=
  match Path.parse path with
  | .ok p => h.sight.follow p p.segments (.object h.root)
  | .error f => .error f

/-- A path that leads to something. -/
def reach (h : Host) (path : String) : Except Fault Path :=
  match Path.parse path with
  | .ok p => (h.sight.follow p p.segments (.object h.root)).map fun _ => p
  | .error f => .error f

def shown (h : Host) (path : String) : String :=
  match h.data path with
  | .ok v => v.text
  | .error _ => ""

/-- The paths that are interpolated in the text of what a path leads to. -/
def inner (h : Host) (d : Delimiters) (path : String) : List String :=
  Template.pathsOf d (h.shown path)

/-- Whether the data has no computed properties. -/
def Plain (h : Host) : Prop := ∃ P, h.sight.PlainOn P ∧ P h.root

theorem data_of_reach {path : String} {p : Path} (hr : h.reach path = .ok p) :
    ∃ v, h.data path = .ok v := by
  rw [reach] at hr
  rw [data]
  cases hp : Path.parse path with
  | error f =>
    rw [hp] at hr
    cases hr
  | ok p' =>
    rw [hp] at hr
    dsimp only at hr ⊢
    cases hf : h.sight.follow p' p'.segments (.object h.root) with
    | error f =>
      rw [hf] at hr
      cases hr
    | ok v => exact ⟨v, rfl⟩

end Host

def World.watched (w : World) (m : Ref .model) : List Path :=
  (w.models.get m).watchers.map fun r => (w.watchers.get r).path

structure World.Hosts (w : World) (h : Host) : Prop where
  slot? : w.sight.slot? = h.sight.slot?
  value : w.sight.value = h.sight.value
  made : h.model.index < w.models.size
  root : (w.models.get h.model).data = h.root
  methods : (w.models.get h.model).methods = h.methods
  owned : ∀ r ∈ (w.models.get h.model).watchers, r.index < w.watchers.size
  nodes : h.base ≤ w.view.nodes.size

namespace World.Hosts

variable {h : Host}

theorem noted (hw : w.Hosts h) (hn : w.Noted w') (hv : h.base ≤ w'.view.nodes.size) :
    w'.Hosts h where
  slot? := by rw [hn.sight, hw.slot?]
  value := by rw [hn.sight, hw.value]
  made := by
    rw [hn.models]
    exact hw.made
  root := by rw [hn.models, hw.root]
  methods := by rw [hn.models, hw.methods]
  owned := by
    rw [hn.models, hn.watchers]
    exact hw.owned
  nodes := hv

variable (compute) in
theorem follow_apply (hp : h.Plain) (hw : w.Hosts h) (p : Path) (e : Evaluation) :
    ∃ ms, p.resolve compute h.root e w = some ((h.sight.follow p p.segments (.object h.root),
      (Mark.leaveAll ms (e, w)).1), (Mark.leaveAll ms (e, w)).2) := by
  obtain ⟨P, hP, hr⟩ := hp
  have hP' := hP.congr hw.slot? hw.value
  rw [← Sight.follow_congr hw.slot? hw.value]
  exact hP'.follow_apply compute p p.segments (fun o ho => by cases ho; exact hr) e

variable (compute) in
theorem read_apply (hp : h.Plain) (hw : w.Hosts h) (path : String) :
    ∃ es, (ViewModel.read compute h.model path).once w =
      some (h.data path, { w with trace := es }) := by
  rw [Host.data]
  cases hpath : Path.parse path with
  | error f =>
    refine ⟨w.trace, ?_⟩
    show Option.bind (Option.map _ (ViewModel.read compute h.model path {} w)) _ = _
    rw [ViewModel.read, Reading.bind_apply, hpath]
    rfl
  | ok p =>
    obtain ⟨ms, hms⟩ := hw.follow_apply compute hp p {}
    obtain ⟨es, hes⟩ := Mark.leaveAll_nobody ms w
    have hr : ViewModel.read compute h.model path {} w = p.resolve compute h.root {} w := by
      rw [ViewModel.read, hpath, ← hw.root]
      rfl
    refine ⟨es, ?_⟩
    show Option.bind (Option.map _ (ViewModel.read compute h.model path {} w)) _ = _
    rw [hr, hms, hes]
    dsimp only
    cases h.sight.follow p p.segments (.object h.root) <;> rfl

variable (compute) in
theorem evaluate_apply (hp : h.Plain) (hw : w.Hosts h) {r : Ref .watcher}
    (hr : (w.watchers.get r).model = h.model) : ∃ w', w.Noted w' ∧ w'.view = w.view ∧
      Watcher.evaluate compute r w = some (h.sight.follow (w.watchers.get r).path
        (w.watchers.get r).path.segments (.object h.root), w') := by
  obtain ⟨ms, hms⟩ := hw.follow_apply compute hp (w.watchers.get r).path
    { subscriber := some (.watcher r) }
  refine ⟨_, .leaveAll ms ({ subscriber := some (.watcher r) }, w), Mark.view_leaveAll .., ?_⟩
  show Option.bind (Option.map _ (Path.resolve _ _ (w.models.get _).data _ w)) _ = _
  rw [hr, hw.root, hms]
  dsimp only
  cases h.sight.follow (w.watchers.get r).path (w.watchers.get r).path.segments (.object h.root) <;>
    rfl

theorem enlist (hw : w.Hosts h) {r : Ref .watcher} (hr : r.index < w.watchers.size) (v : Value) :
    let w' : World := { w with
      watchers := w.watchers.modify r fun watcher => { watcher with value := v }
      models := w.models.modify h.model fun model =>
        { model with watchers := model.watchers ++ [r] } }
    w'.Hosts h ∧ w'.watched h.model = w.watched h.model ++ [(w.watchers.get r).path] ∧
      (w'.watchers.get r).value = v := by
  intro w'
  have hm : w'.models.get h.model = { w.models.get h.model with
      watchers := (w.models.get h.model).watchers ++ [r] } := w.models.get_modify_self _ hw.made
  have hp (r' : Ref .watcher) : (w'.watchers.get r').path = (w.watchers.get r').path := by
    obtain e | ⟨-, -, e⟩ := w.watchers.get_modify_cases r r' fun watcher =>
      { watcher with value := v }
    · exact congrArg Watcher.path e
    · exact (congrArg Watcher.path e : _)
  refine ⟨{ hw with made := ?_, root := ?_, methods := ?_, owned := ?_ }, ?_, ?_⟩
  · rw [Store.size_modify]
    exact hw.made
  · rw [hm]
    exact hw.root
  · rw [hm]
    exact hw.methods
  · intro r' hr'
    rw [hm] at hr'
    show _ < (w.watchers.modify r _).size
    rw [Store.size_modify]
    obtain hr' | hr' := List.mem_append.1 hr'
    · exact hw.owned r' hr'
    · exact List.mem_singleton.1 hr' ▸ hr
  · rw [World.watched, hm, List.map_append, List.map_congr_left fun r' _ => hp r',
    List.map_singleton,
      hp r]
    rfl
  · exact congrArg Watcher.value (w.watchers.get_modify_self _ hr)

variable (compute) in
theorem watch_apply (hp : h.Plain) (hw : w.Hosts h) (path : String) (callback : Callback) :
    (∃ f w', h.reach path = .error f ∧
      ViewModel.watch compute h.model path callback w = some (.error f, w')) ∨
    ∃ p v r w', h.reach path = .ok p ∧ h.data path = .ok v ∧
      ViewModel.watch compute h.model path callback w = some (.ok r, w') ∧ w'.Hosts h ∧
      w'.watched h.model = w.watched h.model ++ [p] ∧ (w'.watchers.get r).value = v ∧
      w'.view = w.view := by
  rw [Host.reach, Host.data]
  cases hpath : Path.parse path with
  | error f =>
    exact .inl ⟨f, w, rfl, ViewModel.watch_misspelt hpath⟩
  | ok p =>
    let r := w.watchers.fresh
    let w₁ : World :=
      { w with watchers := w.watchers.add { model := h.model, path := p, callback } }
    have hw₁ : w₁.Hosts h := { hw with
      owned := fun r hr => Nat.lt_of_lt_of_le (hw.owned r hr) (by
        rw [Store.size_add]
        exact Nat.le_succ _) }
    have hr : w₁.watchers.get r = { model := h.model, path := p, callback } :=
      (w.watchers.get_add _ r).trans (if_pos rfl)
    obtain ⟨w₂, hn, hv, he⟩ := hw₁.evaluate_apply compute hp (r := r) (by rw [hr])
    rw [hr] at he
    dsimp only
    cases hf : h.sight.follow p p.segments (.object h.root) with
    | error f =>
      rw [hf] at he
      exact .inl ⟨f, w₂, rfl, ViewModel.watch_unseen hpath he⟩
    | ok v =>
      rw [hf] at he
      -- Looking leaves a note at most, which is nothing that the host is about.
      have hw₂ := hw₁.noted hn (hv ▸ hw₁.nodes)
      have hr₂ : w₂.watchers.get r = { model := h.model, path := p, callback } := by
        rw [hn.watchers, hr]
      have hl : r.index < w₂.watchers.size := by
        rw [hn.watchers, Store.size_add]
        exact Nat.lt_succ_self _
      have hown : w₂.models.get h.model = w.models.get h.model := by rw [hn.models]
      have hold (r' : Ref .watcher) (hr' : r' ∈ (w.models.get h.model).watchers) :
          (w₂.watchers.get r').path = (w.watchers.get r').path := by
        rw [hn.watchers, w.watchers.get_add_of_lt _ (hw.owned r' hr')]
      have hw₃ : (w₂.tell (.made r v)).Hosts h := { hw₂ with }
      obtain ⟨hh, hwa, hva⟩ := hw₃.enlist hl v
      refine .inr ⟨p, v, r, _, rfl, rfl, ViewModel.watch_seen hpath he, hh, hwa.trans ?_, hva, hv⟩
      show w₂.watched h.model ++ [(w₂.watchers.get r).path] = _
      rw [World.watched, World.watched, hown, hr₂, List.map_congr_left hold]

end World.Hosts

end ViewBinding
