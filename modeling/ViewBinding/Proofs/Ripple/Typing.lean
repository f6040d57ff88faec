import ViewBinding.Proofs.Ripple.Routes
import ViewBinding.Proofs.Ripple.Sets
import ViewBinding.Proofs.TwoWay

/-! Typing into a node that is bound both ways. The text is stored in one pass, and goes back to the
node once if it is new. -/

namespace ViewBinding

variable {w w' w'' : World} {f : Frame} {k : Nat} {n : Ref .node} {m : Ref .model} {path s : String}
  {r : Ref .watcher} {o root : Ref .object} {models : Store .model ViewModel} {v : Value}

def Event.typed (s : String) : Event := { kind := "input", value := some s }

def World.type (w : World) (n : Ref .node) (s : String) : World :=
  { w with view := w.view.modify n fun node => { node with value := s } }

/-- Whether a response to an event leaves remarks only, as long as the view-models are these. -/
def Response.Silent (models : Store .model ViewModel) (event : Event) (response : Response) :
    Prop :=
  ∀ k w res w', w.models = models →
    response.perform (Engine.ofFuel k) event w = some (res, w') → w.Remarks w'

/-- Whether of the listeners of a node for input just one assigns the text, to a path, and all
others are silent when the text is typed. -/
def World.Hears (w : World) (n : Ref .node) (m : Ref .model) (path s : String) : Prop :=
  ∃ pre post, (w.view.node n).listeners.filter (·.event == "input") =
      pre ++ { event := "input", response := .assign m path n } :: post ∧
    ∀ l ∈ pre ++ post, l.response.Silent w.models (.typed s)

theorem World.Hears.lt (h : w.Hears n m path s) : n.index < w.view.nodes.size := by
  by_contra hn
  obtain ⟨pre, post, hl, -⟩ := h
  rw [View.node_of_size_le (Nat.le_of_not_lt hn)] at hl
  simp [default, instInhabitedNode.default] at hl

theorem World.Hears.paints {xs : List Shown} (h : w.Hears n m path s) (hp : w.Paints xs w') :
    w'.Hears n m path s := by
  have hn := h.lt
  obtain ⟨pre, post, hl, hsilent⟩ := h
  refine ⟨pre, post, ?_, ?_⟩
  · rw [hp.listeners n hn]
    exact hl
  · rw [hp.models]
    exact hsilent

theorem World.remarks_of_silent {event : Event} {ls : List Listener}
    (hs : ∀ l ∈ ls, l.response.Silent models event) (hm : w.models = models)
    {res : Except Fault Unit}
    (h : (forM ls fun l => l.response.perform (Engine.ofFuel k) event : Action Unit) w =
      some (res, w')) : w.Remarks w' := by
  induction ls generalizing w with
  | nil =>
    cases h
    exact .refl _
  | cons l ls ih =>
    have hl := hs l List.mem_cons_self
    rw [List.forM_cons] at h
    rcases Action.bind_eq_some h with ⟨g, hg, rfl⟩ | ⟨_, w₁, hw₁, h⟩
    · exact hl k w _ w' hm hg
    · have hr := hl k w _ w₁ hm hw₁
      refine hr.trans (ih (fun t ht => hs t (List.mem_cons_of_mem l ht)) ?_ h)
      rw [hr.paints.models, hm]

theorem Event.input_apply (e : Engine) (n : Ref .node) (s : String) (w : World) :
    Event.input e n s w =
      (((w.view.node n).listeners.filter (·.event == "input")).forM
        fun l => l.response.perform e (.typed s)) (w.type n s) := by
  have hl := w.view.listeners_modify n n (fun node => { node with value := s }) fun _ => rfl
  rw [← hl]
  rfl

theorem Response.assign_apply (e : Engine) (m : Ref .model) (path s : String) (n : Ref .node)
    (w : World) : (Response.assign m path n).perform e (.typed s) w =
      if w.modelAlive m then
        (ViewModel.write e.compute (Subscriber.update e) m path (.string s)
          (w.useModel m)).map fun p => (p.1.map fun _ => (), p.2.releaseModel m)
      else some (.ok (), w) := by
  rw [Response.perform, Action.get_bind]
  by_cases hm : w.modelAlive m
  · simp only [hm, if_true]
    rw [Action.usingModel_apply, Action.get_bind]
    show Option.map _ ((ViewModel.write _ _ m path (.string s) >>= fun _ => pure ()) _) = _
    rw [Action.bind_apply]
    cases ViewModel.write e.compute (Subscriber.update e) m path (.string s) (w.useModel m) with
    | none => rfl
    | some p => obtain ⟨⟨⟩, w'⟩ := p <;> rfl
  · simp only [hm]
    rfl

theorem World.Hears.input_cases (h : w.Hears n m path s) {res : Except Fault Unit}
    (hi : Event.input (Engine.ofFuel k) n s w = some (res, w')) :
    (∃ g, res = .error g ∧ (w.type n s).Remarks w') ∨
      ∃ w₁ res' w₂, (w.type n s).Remarks w₁ ∧
        (Response.assign m path n).perform (Engine.ofFuel k) (.typed s) w₁ = some (res', w₂) ∧
        (res' = res ∧ w' = w₂ ∨ res' = .ok () ∧ (w₂.models = w.models → w₂.Remarks w')) := by
  obtain ⟨pre, post, hl, hsilent⟩ := h
  rw [Event.input_apply, hl, List.forM_eq_forM, List.forM_append, List.forM_cons] at hi
  have hpre : ∀ l ∈ pre, l.response.Silent w.models (.typed s) :=
    fun l hl => hsilent l (List.mem_append_left post hl)
  have hpost : ∀ l ∈ post, l.response.Silent w.models (.typed s) :=
    fun l hl => hsilent l (List.mem_append_right pre hl)
  rcases Action.bind_eq_some hi with ⟨g, hg, rfl⟩ | ⟨_, w₁, hw₁, hi⟩
  · exact .inl ⟨g, rfl, remarks_of_silent hpre rfl hg⟩
  · refine .inr ?_
    have hr : (w.type n s).Remarks w₁ := remarks_of_silent hpre rfl hw₁
    rcases Action.bind_eq_some hi with ⟨g, hg, rfl⟩ | ⟨_, w₂, hw₂, hi⟩
    · exact ⟨w₁, _, w', hr, hg, .inl ⟨rfl, rfl⟩⟩
    · exact ⟨w₁, _, w₂, hr, hw₂, .inr ⟨rfl, fun hm => remarks_of_silent hpost hm hi⟩⟩

theorem World.alive_useModel (hm : w.modelAlive m) : (w.useModel m).alive = w.alive := by
  have ha : (w.useModel m).modelAlive = w.modelAlive := congrArg Sight.alive (sight_useModel hm)
  funext t
  unfold alive
  rw [ha]
  rfl

theorem World.OnlyBindings.useModel (hb : w.OnlyBindings) (hm : w.modelAlive m) :
    (w.useModel m).OnlyBindings := by
  refine ⟨fun r id steps ha => hb.watcher r id steps ?_, fun r ha => hb.reaction r ?_⟩
  · rwa [World.alive_useModel hm] at ha
  · rwa [World.alive_useModel hm] at ha

theorem World.releaseModel_useModel (w : World) (m : Ref .model) :
    (w.useModel m).releaseModel m = w := by
  simp [useModel, releaseModel]

theorem World.Hears.again (h : w.Hears n m path s) {p : Path} (hp : Path.parse path = .ok p)
    (hroute : w.Route (w.models.get m).data p.parents o) {c : Ref .cell}
    (hs : w.slot? o p.last = some (.cell c)) (hv : (w.cells.get c).value = .string s)
    {res : Except Fault Unit} (hi : Event.input (Engine.ofFuel k) n s w = some (res, w')) :
    w'.shown = w.shown := by
  rcases h.input_cases hi with ⟨g, -, hr⟩ | ⟨w₁, res', w₂, hr, hassign, hend⟩
  · exact hr.2
  have hmodels : w₁.models = w.models := hr.paints.models
  have hsame : w₂ = w₁ := by
    rw [Response.assign_apply] at hassign
    split at hassign
    · have hroute' : (w₁.useModel m).Route (w.models.get m).data p.parents o :=
        hroute.of_eq hr.slot? hr.cells
      have hs' : (w₁.useModel m).slot? o p.last = some (.cell c) :=
        (congrFun (congrFun hr.slot? o) p.last).trans hs
      have hv' : ((w₁.useModel m).cells.get c).value = .string s := by
        rw [show (w₁.useModel m).cells = w.cells from hr.cells, hv]
      rw [ViewModel.write_apply hp, show (w₁.useModel m).models = w.models from hmodels,
        hroute'.assign_same hs' hv'] at hassign
      cases hassign
      exact w₁.releaseModel_useModel m
    · cases hassign
      rfl
  subst hsame
  rcases hend with ⟨-, rfl⟩ | ⟨-, hend⟩
  · exact hr.2
  · exact (hend hmodels).2.trans hr.2

end ViewBinding
