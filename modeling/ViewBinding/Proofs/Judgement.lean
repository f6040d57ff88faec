import ViewBinding.Proofs.Course.Moves

/-! Judgements of scripts. What is shown of the few things that steps are made of holds of every
step, and of whole scripts. -/

namespace ViewBinding

variable {σ : Type} {α β : Type}

/-- Something that can be shown of actions, from states that say as much of the world as it takes.
An action may depend on the engine. -/
structure Judgement (σ : Type) where
  holds {α : Type} : σ → (Engine → Action α) → Prop
  /-- The worlds in a state. -/
  here : σ → World → Prop
  /-- The states that an action may lead to. -/
  later : σ → σ → Prop
  frame : σ → Frame → Prop
  value : σ → Value → Prop
  object : σ → Ref .object → Prop
  model : σ → Ref .model → Prop
  /-- The steps that may be taken. -/
  takes : Step → Prop
  takesAll : List Step → Prop
  /-- Whether data may be written. -/
  writes : Prop
  /-- Whether methods may be called. -/
  calls : Prop

def Step.Quiet : Step → Prop
  | .mount _ _ _ _ _ _ => False
  | .compile _ _ _ => False
  | .write _ _ _ => False
  | .call _ _ _ _ => False
  | .snapshot _ => False
  | .showModel _ => False
  | .watch _ _ _ _ => False
  | .watcher _ _ _ _ => False
  | .watcherUpdate _ => False
  | .showWatcher _ => False
  | .exported _ => False
  | .showValue _ => False
  | .setProperty _ _ _ => False
  | .assign _ _ _ => False
  | .showCell _ => False
  | .setCell _ _ => False
  | .notify _ => False
  | .input _ _ => False
  | .dispatch _ _ => False
  | .event _ _ _ => False
  | .cond _ _ _ => False
  | .attempt _ => False
  | .loop _ _ => False
  | _ => True

namespace Judgement

structure Composes (J : Judgement σ) : Prop where
  pure {α : Type} (s : σ) (a : α) : J.holds s fun _ => Pure.pure a
  throw {α : Type} (s : σ) (g : Fault) : J.holds s fun _ => (MonadExcept.throw g : Action α)
  get {α : Type} {s : σ} {x : Engine → World → Action α} :
    (∀ w, J.here s w → J.holds s fun e => x e w) → J.holds s fun e => MonadState.get >>= x e
  bind {α β : Type} {s : σ} {x : Engine → Action α} {k : Engine → α → Action β} : J.holds s x →
    (∀ a t, J.later s t → J.holds t fun e => k e a) → J.holds s fun e => x e >>= k e

structure Looks (J : Judgement σ) : Prop extends J.Composes where
  value {α : Type} {s : σ} {f : Frame} {x : Expr} {k : Engine → Value → Action α} : J.frame s f →
    (∀ v t, J.later s t → J.frame t f → J.value t v → J.holds t fun e => k e v) →
    J.holds s fun e => Script.value e f x >>= k e
  withModel {α : Type} {s : σ} {f : Frame} {name : Option String}
    {x : Engine → Ref .model → Action α} : J.frame s f →
    (∀ m t, J.frame t f → J.model t m → J.holds t fun e => x e m) →
    J.holds s fun e => Script.withModel f name (x e)
  /-- Only the node that is looked for is found. -/
  findNode {α : Type} {s : σ} {i : Nat} {k : Engine → Ref .node → Action α} :
    (∀ t, J.later s t → J.holds t fun e => k e ⟨i⟩) → J.holds s fun e => Script.findNode i >>= k e
  object {s : σ} {v : Value} {o : Ref .object} : J.value s v → v.object? = some o → J.object s o
  root {s : σ} {w : World} {m : Ref .model} : J.here s w → J.model s m →
    J.object s (w.models.get m).data
  null (s : σ) : J.value s .null
  read {s : σ} {f : Frame} {m : Ref .model} (path : String) : J.frame s f → J.model s m →
    J.holds s fun e => (ViewModel.read e.compute m path).once
  property {s : σ} {f : Frame} {o : Ref .object} (key : String) : J.frame s f → J.object s o →
    J.holds s fun e => (Object.read e.compute o key).once
  render {s : σ} {f : Frame} {m : Ref .model} (t : Template) : J.frame s f → J.model s m →
    J.holds s fun e => t.render e.compute m
  emit {s : σ} {e : Effect} : e.Mere → J.holds s fun _ => Action.emit e
  rename {s : σ} {change : Names → Names} :
    (∀ w, J.here s w → w.Renamed (change w.names)) →
    (∀ names, (change names).values = names.values) → J.holds s fun _ => Script.changeNames change
  save {s : σ} {v : Value} (name : String) : J.value s v → J.holds s fun _ =>
    Script.changeNames fun names => { names with values := names.values.insert name v }
  addCell {s : σ} {v : Value} : J.value s v →
    J.holds s fun _ => (modifyGet (·.addCell v) : Action (Ref .cell))
  addReaction {s : σ} {id : String} {steps : List Step} : J.takes (.react id steps) →
    J.holds s fun _ =>
      (modify fun w => { w with reactions := w.reactions.add { id, steps } } : Action Unit)
  addRegistry (s : σ) : J.holds s fun _ =>
    (modify fun w => { w with registries := w.registries.add {} } : Action Unit)
  edit {s : σ} {step : Step} {change : View → View} : J.takes step →
    (∀ w, J.here s w → step.Edits w.view (change w.view)) →
    J.holds s fun _ => Script.changeView change
  build {s : σ} {f : Frame} {name : Option String} {data : Option Expr}
    {computed : List (String × Expr)} {methods : List (String × List Step)} : J.frame s f →
    J.takes (.build name data computed methods) →
    J.holds s fun e => Script.build e f name data computed methods
  track {s : σ} {f : Frame} (name : Option String) (reaction : String) (paths : List String) :
    J.frame s f → J.holds s fun e => Script.track e f name reaction paths
  trackCell {s : σ} {f : Frame} (reaction id : String) : J.frame s f →
    J.holds s fun _ => Script.trackCell reaction id
  register (s : σ) (id reaction : String) : J.holds s fun _ => Script.register id reaction
  create {s : σ} {markup : Markup} : J.takes (.create markup) →
    J.holds s fun _ => Script.create markup

structure Acts (J : Judgement σ) : Prop extends J.Looks where
  frame_later {s t : σ} {f : Frame} : J.later s t → J.frame s f → J.frame t f
  object_later {s t : σ} {o : Ref .object} : J.later s t → J.object s o → J.object t o
  model_later {s t : σ} {m : Ref .model} : J.later s t → J.model s m → J.model t m
  string (s : σ) (text : String) : J.value s (.string text)
  finished {α : Type} (s : σ) (a? : Option α) : J.holds s fun _ => Action.finished a?
  faultOf {s : σ} {x : Engine → Action Unit} : J.holds s x → J.holds s fun e => (x e).faultOf
  /-- What is done with a view-model while it is alive. -/
  whileAlive {s : σ} {m : Ref .model} {x : Engine → Action Unit} :
    (∀ t, J.model t m → J.holds t x) → J.holds s fun e => MonadState.get >>= fun w : World =>
      if w.modelAlive m then Action.usingModel m (x e) else Pure.pure ()
  writes {step : Step} : J.takes step → step.Writes → J.writes
  calls {step : Step} : J.takes step → step.Calls → J.calls
  store {s : σ} {c : Ref .cell} {v : Value} : J.writes → J.value s v →
    J.holds s fun e => Cell.write (Subscriber.update e) c v
  setProperty {s : σ} {o : Ref .object} {v : Value} (key : String) : J.writes → J.value s v →
    J.holds s fun e => Object.write (Subscriber.update e) o key v
  assign {s : σ} {o : Ref .object} {v : Value} (p : Path) : J.writes → J.object s o →
    J.value s v → J.holds s fun e => p.assign e.compute (Subscriber.update e) o v
  call {s : σ} {m : Ref .model} (name : String) (event : Event) : J.calls → J.model s m →
    J.holds s fun e => ViewModel.call e m name event
  compile {s : σ} {name : Option String} {i : Nat} {settings : Settings} {m : Ref .model} :
    J.takes (.compile name i settings) → J.model s m →
    J.holds s fun e => settings.compile e.compute m ⟨i⟩
  notify (s : σ) (r : Ref .registry) :
    J.holds s fun e => Source.notify (Subscriber.update e) (.registry r)
  mount {s : σ} {f : Frame} {name : Option String} {target : Target} {data : Option Expr}
    {computed : List (String × Expr)} {methods : List (String × List Step)}
    {settings : Settings} : J.frame s f →
    J.takes (.mount name target data computed methods settings) →
    J.holds s fun e => Script.mount e f name target data computed methods settings
  watch {s : σ} {f : Frame} {name : Option String} {id path : String} {steps : List Step} :
    J.frame s f → J.takes (.watch name id path steps) →
    J.holds s fun e => Script.watch e f name id path steps
  watcher {s : σ} {f : Frame} {name : Option String} {id path : String} {steps : List Step} :
    J.frame s f → J.takes (.watcher name id path steps) →
    J.holds s fun e => Script.watcher e f name id path steps
  watcherUpdate (s : σ) (id : String) : J.holds s fun e => Script.watcherUpdate e id
  cond {test : Expr} {yes no : List Step} : J.takes (.cond test yes no) →
    J.takesAll yes ∧ J.takesAll no
  attempt {steps : List Step} : J.takes (.attempt steps) → J.takesAll steps
  loop {times : Nat} {steps : List Step} : J.takes (.loop times steps) → J.takesAll steps
  cons {step : Step} {rest : List Step} : J.takesAll (step :: rest) →
    J.takes step ∧ J.takesAll rest

variable {J : Judgement σ} {s : σ} {f : Frame}

namespace Composes

variable (h : J.Composes)
include h

theorem reply {x : Engine → Action α} {g : α → β} (hx : J.holds s x) :
    J.holds s fun e => x e >>= fun a => Pure.pure (g a) :=
  h.bind hx fun a t _ => h.pure t (g a)

theorem ofExcept {r : Except Fault α} {k : Engine → α → Action β}
    (hk : ∀ a, r = .ok a → J.holds s fun e => k e a) :
    J.holds s fun e => (MonadExcept.ofExcept r : Action α) >>= k e := by
  cases r with
  | error g => exact h.throw s g
  | ok a => exact hk a rfl

theorem require {g : Fault} {a? : Option α} {k : Engine → α → Action β}
    (hk : ∀ a, a? = some a → J.holds s fun e => k e a) :
    J.holds s fun e => Action.require g a? >>= k e := by
  cases a? with
  | none => exact h.throw s g
  | some a => exact hk a rfl

theorem find {g : Fault} {a? : World → Option α} {k : Engine → α → Action β}
    (hk : ∀ a, J.holds s fun e => k e a) :
    J.holds s fun e => (do Action.require g (a? (← MonadState.get))) >>= k e := by
  have hr : J.holds s fun e => MonadState.get >>= fun w => Action.require g (a? w) >>= k e :=
    h.get fun _ _ => h.require fun a _ => hk a
  simpa only [bind_assoc] using hr

theorem forM {l : List β} {x : Engine → β → Action Unit} (hx : ∀ t, ∀ b ∈ l, J.holds t (x · b)) :
    J.holds s fun e => l.forM (x e) := by
  induction l generalizing s with
  | nil => exact h.pure s ()
  | cons b l ih =>
    exact h.bind (hx s b List.mem_cons_self) fun _ t _ =>
      ih fun t c hc => hx t c (List.mem_cons_of_mem b hc)

end Composes

namespace Looks

variable (h : J.Looks)
include h

theorem withObject {place : Place} {x : Engine → Ref .object → Action α} (hf : J.frame s f)
    (hx : ∀ o t, J.frame t f → J.object t o → J.holds t fun e => x e o) :
    J.holds s fun e => Script.withObject e f place (x e) := by
  cases place with
  | of expr =>
    exact h.value hf fun v t _ hf' hv => h.require fun o ho => hx o t hf' (h.object hv ho)
  | root name => exact h.withModel hf fun m t hf' hm => h.get fun w hw => hx _ t hf' (h.root hw hm)

theorem findNodes {ks : List Nat} {k : Engine → List (Ref .node) → Action α}
    (hk : ∀ t, J.holds t fun e => k e (ks.map Ref.mk)) :
    J.holds s fun e => ks.mapM Script.findNode >>= k e := by
  induction ks generalizing s k with
  | nil => exact hk s
  | cons i ks ih =>
    simp only [List.mapM_cons, bind_assoc]
    exact h.findNode fun t _ => ih fun t => hk t

theorem nameCell (id : String) (c : Ref .cell) : J.holds s fun _ => Script.nameCell id c :=
  h.rename (fun _ _ => .cell id c) fun _ => rfl

theorem cell (hf : J.frame s f) (id : String) (x : Option Expr) :
    J.holds s fun e => Script.cell e f id x := by
  have hadd (t : σ) (v : Value) (hv : J.value t v) : J.holds t fun _ =>
      (modifyGet (·.addCell v) : Action (Ref .cell)) >>= fun c =>
        Script.nameCell id c >>= fun _ => Pure.pure Answer.nothing :=
    h.bind (h.addCell hv) fun c t _ => h.reply (h.nameCell id c)
  cases x with
  | none => exact hadd s .null (h.null s)
  | some x => exact h.value hf fun v t _ _ hv => hadd t v hv

/-- A step that runs no scripts is as its parts are. -/
theorem run (hf : J.frame s f) (step : Step) (hq : step.Quiet) (hs : J.takes step) :
    J.holds s fun e => step.run e f := by
  cases step with
  | mount | compile | write | call | snapshot | showModel | watch | watcher | watcherUpdate
  | showWatcher | exported | showValue | setProperty | assign | showCell | setCell | notify | input
  | dispatch | event | cond | attempt | loop => exact hq.elim
  | build name data computed methods => exact h.build hf hs
  | track model reaction paths => exact h.track model reaction paths hf
  | trackCell reaction id => exact h.trackCell reaction id hf
  | register id reaction => exact h.register s id reaction
  | create markup => exact h.create hs
  | dropModel name =>
    exact h.get fun w _ => h.reply (h.rename (fun _ _ => .dropModel _) fun _ => rfl)
  | alive name => exact h.get fun _ _ => h.pure s _
  | read model path =>
    exact h.withModel hf fun m t hf' hm => h.reply (h.read path hf' hm)
  | hasMethod model method =>
    exact h.withModel hf fun _ t _ _ => h.get fun _ _ => h.pure t _
  | watcherCount model =>
    exact h.withModel hf fun m t _ _ => h.reply (h.get fun _ _ => h.pure t _)
  | render model text delimiters =>
    show J.holds s fun e => Script.render e f model text delimiters
    unfold Script.render
    cases Template.parse delimiters text with
    | none => exact h.pure s _
    | some t => exact h.withModel hf fun m _ hf' hm => h.reply (h.render t hf' hm)
  | watcherValue id => exact h.find fun _ => h.get fun _ _ => h.pure s _
  | watcherPath id => exact h.find fun _ => h.get fun _ _ => h.pure s _
  | dropWatcher id =>
    exact h.get fun w _ => h.reply (h.rename (fun _ _ => .dropWatcher _) fun _ => rfl)
  | save name x => exact h.value hf fun v t _ _ hv => h.reply (h.save name hv)
  | eval x => exact h.value hf fun v t _ _ _ => h.pure t _
  | property place key =>
    exact h.withObject hf fun o t hf' ho => h.reply (h.property key hf' ho)
  | keys place => exact h.withObject hf fun o t _ _ => h.get fun w _ => h.pure t _
  | hasProperty place key =>
    refine h.withObject hf fun o t _ _ => h.get fun w _ => ?_
    cases w.slot? o key with
    | none => exact h.pure t _
    | some slot => cases slot <;> exact h.pure t _
  | cell id x => exact h.cell hf id x
  | cellOf id place key =>
    refine h.withObject hf fun o t _ _ => h.get fun w _ => ?_
    cases w.slot? o key with
    | none => exact h.pure t _
    | some slot =>
      cases slot with
      | cell c => exact h.reply (h.nameCell id c)
      | computed => exact h.pure t _
  | cellValue id => exact h.find fun _ => h.get fun _ _ => h.pure s _
  | cellSubscribers id => exact h.find fun _ => h.get fun _ _ => h.pure s _
  | react id steps =>
    exact h.get fun w _ => h.bind (h.addReaction hs) fun _ t _ =>
      h.reply (h.rename (fun _ _ => .reaction id _) fun _ => rfl)
  | dropReaction id =>
    exact h.get fun w _ => h.reply (h.rename (fun _ _ => .dropReaction _) fun _ => rfl)
  | registry id =>
    exact h.get fun w _ => h.bind (h.addRegistry s) fun _ t _ =>
      h.reply (h.rename (fun _ _ => .registry id _) fun _ => rfl)
  | registrySize id => exact h.find fun _ => h.get fun _ _ => h.pure s _
  | node i => exact h.findNode fun t _ => h.get fun _ _ => h.pure t _
  | nodeCount => exact h.get fun _ _ => h.pure s _
  | query selector => exact h.get fun _ _ => h.pure s _
  | setText i text =>
    exact h.findNode fun t _ => h.reply (h.edit hs fun _ _ => .setText i text)
  | setValue i text =>
    exact h.findNode fun t _ => h.reply (h.edit hs fun _ _ => .setValue i text)
  | detach i =>
    exact h.findNode fun t _ => h.get fun _ _ => h.reply (h.edit hs fun _ _ => .detach i)
  | append i children =>
    exact h.findNode fun t _ => h.findNodes fun t =>
      h.reply (h.edit hs fun _ _ => .append i children)
  | log x => exact h.value hf fun v t _ _ _ => h.reply (h.emit (e := .log v) trivial)
  | fail message => exact h.throw s _

end Looks

namespace Acts

variable (h : J.Acts)
include h

theorem times {x : Engine → Action Unit} (hx : ∀ t, J.frame t f → J.holds t x) (hf : J.frame s f)
    (n : Nat) : J.holds s fun e => Action.times n (x e) := by
  induction n generalizing s with
  | zero => exact h.pure s ()
  | succ n ih => exact h.bind (hx s hf) fun _ t ht => ih (h.frame_later ht hf)

theorem writePath {m : Ref .model} {v : Value} (hw : J.writes) (hm : J.model s m) (path : String)
    (hv : J.value s v) :
    J.holds s fun e => ViewModel.write e.compute (Subscriber.update e) m path v :=
  h.ofExcept fun p _ => h.get fun _ hw' => h.assign p hw (h.root hw' hm) hv

theorem perform (hw : J.writes) (hc : J.calls) (event : Event) (response : Response) :
    J.holds s fun e => response.perform e event := by
  cases response with
  | assign m path node =>
    refine h.whileAlive fun t hm => h.get fun w _ => ?_
    simp only [discard]
    exact h.reply (h.writePath hw hm path (h.string t _))
  | call m name => exact h.whileAlive fun t hm => h.call name event hc hm

theorem dispatch (hw : J.writes) (hc : J.calls) (node : Ref .node) (event : Event) :
    J.holds s fun e => Event.dispatch e node event :=
  h.get fun _ _ => h.forM fun _ l _ => h.perform hw hc event l.response

theorem input {i : Nat} {text : String} (hs : J.takes (.input i text)) :
    J.holds s fun e => Event.input e ⟨i⟩ text :=
  have hedit : J.holds s fun _ => Script.changeView fun v =>
      v.modify ⟨i⟩ fun node => { node with value := text } := h.edit hs fun _ _ => .typed i text
  h.bind hedit fun _ _ _ => h.dispatch (h.writes hs trivial) (h.calls hs trivial) _ _

mutual

/-- A step is as its parts are, and as the scripts that it runs. -/
theorem run {s : σ} (hf : J.frame s f) (step : Step) (hs : J.takes step) :
    J.holds s fun e => step.run e f := by
  cases step with
  | mount name target data computed methods settings => exact h.mount hf hs
  | watch model id path steps => exact h.watch hf hs
  | watcher model id path steps => exact h.watcher hf hs
  | watcherUpdate id => exact h.watcherUpdate s id
  | compile model i settings =>
    exact h.withModel hf fun m t _ hm => h.findNode fun t' ht =>
      h.bind (h.compile hs (h.model_later ht hm)) fun _ t _ =>
        h.reply (h.get fun _ _ => h.pure t _)
  | write model path x =>
    exact h.withModel hf fun m t hf hm => h.value hf fun v t' ht _ hv =>
      h.reply (h.writePath (h.writes hs trivial) (h.model_later ht hm) path hv)
  | call model method kind text =>
    exact h.withModel hf fun m t _ hm => h.reply (h.call method _ (h.calls hs trivial) hm)
  | snapshot model =>
    exact h.withModel hf fun _ t _ _ => h.get fun _ _ => h.reply (h.finished t _)
  | showModel model =>
    exact h.withModel hf fun _ t _ _ => h.get fun _ _ => h.reply (h.finished t _)
  | showWatcher id => exact h.find fun _ => h.get fun _ _ => h.reply (h.finished s _)
  | exported x =>
    exact h.value hf fun _ t _ _ _ => h.get fun _ _ => h.reply (h.finished t _)
  | showValue x =>
    exact h.value hf fun _ t _ _ _ => h.get fun _ _ => h.reply (h.finished t _)
  | showCell id => exact h.find fun _ => h.get fun _ _ => h.reply (h.finished s _)
  | setProperty place key x =>
    exact h.withObject hf fun o t hf _ => h.value hf fun v t' _ _ hv =>
      h.reply (h.setProperty key (h.writes hs trivial) hv)
  | assign place path x =>
    exact h.withObject hf fun o t hf ho => h.ofExcept fun p _ => h.value hf fun v t' ht _ hv =>
      h.reply (h.assign p (h.writes hs trivial) (h.object_later ht ho) hv)
  | setCell id x =>
    exact h.find fun c => h.value hf fun v t _ _ hv => h.reply (h.store (h.writes hs trivial) hv)
  | notify id => exact h.find fun r => h.reply (h.notify s r)
  | input i text => exact h.findNode fun t _ => h.reply (h.input hs)
  | dispatch i kind =>
    exact h.findNode fun t _ => h.get fun _ _ =>
      h.reply (h.dispatch (h.writes hs trivial) (h.calls hs trivial) _ _)
  | event i kind text =>
    exact h.findNode fun t _ => h.reply (h.dispatch (h.writes hs trivial) (h.calls hs trivial) _ _)
  | cond test yes no =>
    refine h.value hf fun v t _ hf' _ => ?_
    cases v.isTrue with
    | true => exact h.reply (runAll hf' yes (h.cond hs).1)
    | false => exact h.reply (runAll hf' no (h.cond hs).2)
  | attempt steps =>
    refine h.bind (h.faultOf (runAll hf steps (h.attempt hs))) fun fault t _ => ?_
    cases fault with
    | none => exact h.pure t _
    | some g => exact h.reply (h.emit (e := .caught g) trivial)
  | loop n steps => exact h.reply (h.times (fun t hf => runAll hf steps (h.loop hs)) hf n)
  | _ => exact h.toLooks.run hf _ trivial hs
termination_by structural step

theorem runAll {s : σ} (hf : J.frame s f) (steps : List Step) (hs : J.takesAll steps) :
    J.holds s fun e => Step.runAll e f steps := by
  cases steps with
  | nil => exact h.pure s ()
  | cons step rest =>
    exact h.bind (run hf step (h.cons hs).1) fun _ t ht =>
      runAll (h.frame_later ht hf) rest (h.cons hs).2
termination_by structural steps

end

end Acts

end Judgement

end ViewBinding
