import ViewBinding.Proofs.Goes
import ViewBinding.Session

/-! More fuel changes nothing: an outcome that scripts reach with some engine they reach with every
engine that goes further, and so with any more levels of calls. -/

namespace ViewBinding

variable {α β : Type}

def Action.Below (x x' : Action α) : Prop := ∀ w p, x w = some p → x' w = some p

def Reading.Below (x x' : Reading α) : Prop := ∀ e w p, x e w = some p → x' e w = some p

structure Engine.Below (e e' : Engine) : Prop where
  compute : ∀ p, (e.compute p).Below (e'.compute p)
  call : ∀ f steps, (e.call f steps).Below (e'.call f steps)

namespace Reading.Below

variable {x x' : Reading α}

theorem refl (x : Reading α) : x.Below x := fun _ _ _ h => h

theorem bind {f f' : α → Reading β} (hx : x.Below x') (hf : ∀ a, (f a).Below (f' a)) :
    (x >>= f).Below (x' >>= f') := by
  intro e w p h
  rw [bind_apply] at h ⊢
  cases hr : x e w with
  | none =>
    rw [hr] at h
    cases h
  | some q =>
    obtain ⟨⟨g | a, e₁⟩, w₁⟩ := q
    · rw [hr] at h
      rw [hx _ _ _ hr]
      exact h
    · rw [hr] at h
      rw [hx _ _ _ hr]
      exact hf a _ _ _ h

theorem ite {c : Prop} [Decidable c] {y y' : Reading α} (hx : x.Below x') (hy : y.Below y') :
    (if c then x else y).Below (if c then x' else y') := by
  split
  · exact hx
  · exact hy

theorem mapM {l : List β} {f f' : β → Reading α} (hf : ∀ b, (f b).Below (f' b)) :
    (l.mapM f).Below (l.mapM f') := by
  induction l with
  | nil => exact .refl _
  | cons b l ih =>
    rw [List.mapM_cons, List.mapM_cons]
    exact .bind (hf b) fun _ => .bind ih fun _ => .refl _

theorem outcome (hx : x.Below x') : (Script.outcome x).Below (Script.outcome x') := by
  intro e w p h
  rw [Reading.outcome_apply, Option.map_eq_some_iff] at h ⊢
  obtain ⟨q, hq, he⟩ := h
  exact ⟨q, hx e w q hq, he⟩

end Reading.Below

namespace Action.Below

variable {x x' : Action α}

theorem refl (x : Action α) : x.Below x := fun _ _ h => h

theorem bind {f f' : α → Action β} (hx : x.Below x') (hf : ∀ a, (f a).Below (f' a)) :
    (x >>= f).Below (x' >>= f') := by
  intro w p h
  rw [bind_apply] at h ⊢
  cases hr : x w with
  | none =>
    rw [hr] at h
    cases h
  | some q =>
    obtain ⟨g | a, w₁⟩ := q
    · rw [hr] at h
      rw [hx _ _ hr]
      exact h
    · rw [hr] at h
      rw [hx _ _ hr]
      exact hf a _ _ h

theorem ite {c : Prop} [Decidable c] {y y' : Action α} (hx : x.Below x') (hy : y.Below y') :
    (if c then x else y).Below (if c then x' else y') := by
  split
  · exact hx
  · exact hy

theorem andThen (hx : x.Below x') (after : World → World) :
    (x.andThen after).Below (x'.andThen after) := by
  intro w p h
  obtain ⟨q, hq, he⟩ := Option.map_eq_some_iff.1 h
  exact Option.map_eq_some_iff.2 ⟨q, hx w q hq, he⟩

theorem usingModel (hx : x.Below x') (m : Ref .model) :
    (Action.usingModel m x).Below (Action.usingModel m x') :=
  .bind (.refl _) fun _ => .andThen hx _

theorem usingSubscriber (hx : x.Below x') (s : Subscriber) :
    (Action.usingSubscriber s x).Below (Action.usingSubscriber s x') :=
  .bind (.refl _) fun _ => .andThen hx _

theorem faultOf {x x' : Action Unit} (hx : x.Below x') : x.faultOf.Below x'.faultOf := by
  intro w p h
  rw [faultOf_apply, Option.bind_eq_some_iff] at h ⊢
  obtain ⟨q, hq, he⟩ := h
  exact ⟨q, hx w q hq, he⟩

theorem forM {l : List β} {f f' : β → Action Unit} (hf : ∀ b, (f b).Below (f' b)) :
    (l.forM f).Below (l.forM f') := by
  induction l with
  | nil => exact .refl _
  | cons b l ih => exact .bind (hf b) fun _ => ih

theorem mapM {l : List β} {f f' : β → Action α} (hf : ∀ b, (f b).Below (f' b)) :
    (l.mapM f).Below (l.mapM f') := by
  induction l with
  | nil => exact .refl _
  | cons b l ih =>
    rw [List.mapM_cons, List.mapM_cons]
    exact .bind (hf b) fun _ => .bind ih fun _ => .refl _

theorem times {x x' : Action Unit} (hx : x.Below x') (n : Nat) :
    (Action.times n x).Below (Action.times n x') := by
  induction n with
  | zero => exact .refl _
  | succ n ih => exact .bind hx fun _ => ih

end Action.Below

namespace Reading.Below

variable {x x' : Reading α}

theorem evaluate (hx : x.Below x') (s : Option Subscriber) :
    (x.evaluate s).Below (x'.evaluate s) := by
  intro w p h
  obtain ⟨q, hq, he⟩ := Option.map_eq_some_iff.1 h
  exact Option.map_eq_some_iff.2 ⟨q, hx _ w q hq, he⟩

theorem once (hx : x.Below x') : x.once.Below x'.once := .bind (hx.evaluate none) fun _ => .refl _

theorem track (hx : x.Below x') (s : Subscriber) : (x.track s).Below (x'.track s) :=
  .bind (hx.evaluate (some s)) fun _ => .refl _

theorem ofAction {x x' : Action α} (hx : x.Below x') :
    (Reading.ofAction x).Below (Reading.ofAction x') := by
  intro e w p h
  obtain ⟨q, hq, he⟩ := Option.map_eq_some_iff.1 h
  exact Option.map_eq_some_iff.2 ⟨q, hx w q hq, he⟩

section

variable {compute compute' : Computed → Reading Value}

section

variable (hc : ∀ p, (compute p).Below (compute' p))

include hc

theorem object (o : Ref .object) (key : String) :
    (Object.read compute o key).Below (Object.read compute' o key) := by
  refine .bind (.refl _) fun w => ?_
  cases w.slot? o key with
  | none => exact .refl _
  | some slot =>
    cases slot with
    | cell c => exact .refl _
    | computed p => exact hc p

theorem follow (p : Path) (segments : List String) (v : Value) :
    (p.follow compute segments v).Below (p.follow compute' segments v) := by
  induction segments generalizing v with
  | nil => exact .refl _
  | cons segment rest ih => exact .bind (.refl _) fun o => .bind (object hc o segment) ih

theorem model (m : Ref .model) (path : String) :
    (ViewModel.read compute m path).Below (ViewModel.read compute' m path) :=
  .bind (.refl _) fun p => .bind (.refl _) fun _ => follow hc p p.segments _

theorem frame (f : Frame) (name : Option String) (path : String) :
    (f.read compute name path).Below (f.read compute' name path) :=
  .bind (.refl _) fun _ => .bind (.refl _) fun m => model hc m path

end

mutual

theorem expr (hc : ∀ p, (compute p).Below (compute' p)) (f : Frame) :
    ∀ x : Expr, (x.eval compute f).Below (x.eval compute' f)
  | .get model path => frame hc f model path
  | .peek model path => .ofAction (frame hc f model path).once
  | .property object key =>
    .bind (expr hc f object) fun u => .bind (expr hc f key) fun k => by
      cases u.object? with
      | none => exact .refl _
      | some o => exact Below.object hc o k.text
  | .array items => .bind (exprs hc f items) fun _ => .refl _
  | .concat parts => .bind (exprs hc f parts) fun _ => .refl _
  | .add a b => .bind (expr hc f a) fun _ => .bind (expr hc f b) fun _ => .refl _
  | .mul a b => .bind (expr hc f a) fun _ => .bind (expr hc f b) fun _ => .refl _
  | .less a b => .bind (expr hc f a) fun _ => .bind (expr hc f b) fun _ => .refl _
  | .same a b => .bind (expr hc f a) fun _ => .bind (expr hc f b) fun _ => .refl _
  | .cond test yes no =>
    .bind (expr hc f test) fun _ => .ite (expr hc f yes) (expr hc f no)
  | .sort e => .bind (expr hc f e) fun _ => .refl _
  | .data _ | .number _ | .root _ | .saved _ | .fail _ | .tracking | .registrations
  | .argument _ => .refl _

theorem exprs (hc : ∀ p, (compute p).Below (compute' p)) (f : Frame) :
    ∀ xs : List Expr, (Expr.evalAll compute f xs).Below (Expr.evalAll compute' f xs)
  | [] => .refl _
  | x :: xs => .bind (expr hc f x) fun _ => .bind (exprs hc f xs) fun _ => .refl _

end

theorem computed (hc : ∀ p, (compute p).Below (compute' p)) (p : Computed) :
    (p.eval compute).Below (p.eval compute') :=
  have hb : (Reading.ofAction (Action.tell (.computed p)) >>= fun _ =>
      p.body.eval compute { model := p.model }).Below
        (Reading.ofAction (Action.tell (.computed p)) >>= fun _ =>
          p.body.eval compute' { model := p.model }) :=
    .bind (.refl _) fun _ => expr hc _ p.body
  .bind (.refl _) fun _ => .ite hb (.bind (.refl _) fun _ => hb)

end

end Reading.Below

namespace Action.Below

section

variable {compute compute' : Computed → Reading Value} (hc : ∀ p, (compute p).Below (compute' p))

include hc

theorem template (t : Template) (m : Ref .model) :
    (t.render compute m).Below (t.render compute' m) := by
  refine .bind (.mapM fun segment => ?_) fun _ => .refl _
  cases segment with
  | literal text => exact .refl _
  | path path => exact .bind (Reading.Below.model hc m path).once fun _ => .refl _

theorem evaluateWatcher (r : Ref .watcher) :
    (Watcher.evaluate compute r).Below (Watcher.evaluate compute' r) :=
  .bind (.refl _) fun _ => .bind (.refl _) fun _ => (Reading.Below.follow hc _ _ _).track _

theorem createWatcher (m : Ref .model) (path : String) (callback : Callback) :
    (Watcher.create compute m path callback).Below (Watcher.create compute' m path callback) :=
  .bind (.refl _) fun _ => .bind (.refl _) fun _ => .bind (.refl _) fun _ =>
    .bind (evaluateWatcher hc _) fun _ => .refl _

theorem watch (m : Ref .model) (path : String) (callback : Callback) :
    (ViewModel.watch compute m path callback).Below (ViewModel.watch compute' m path callback) :=
  .bind (createWatcher hc m path callback) fun _ => .refl _

theorem bindFace (face : Face) (n : Ref .node) (m : Ref .model) (path : String) :
    (face.bind compute n m path).Below (face.bind compute' n m path) :=
  .bind (watch hc m path _) fun _ => .refl _

theorem bindDirective (u : Directive.Use) (value : String) (n : Ref .node) (m : Ref .model) :
    (Directive.bind compute u value n m).Below (Directive.bind compute' u value n m) := by
  rw [Directive.bind, Directive.bind]
  cases u.directive with
  | model => exact .bind (bindFace hc .value n m value) fun _ => .refl _
  | html => exact bindFace hc .html n m value
  | text => exact bindFace hc .text n m value
  | on => exact .refl _

theorem bindTemplate (t : Template) (n : Ref .node) (m : Ref .model) :
    (t.bind compute n m).Below (t.bind compute' n m) :=
  .bind (.forM fun path => .bind (watch hc m path _) fun _ => .refl _) fun _ =>
    .bind (template hc t m) fun _ => .refl _

theorem bindAttrs (s : Settings) (n : Ref .node) (m : Ref .model) :
    (s.bindAttrs compute n m).Below (s.bindAttrs compute' n m) := by
  refine .bind (.refl _) fun _ => .forM fun attr => .bind (.refl _) fun u => ?_
  cases u with
  | none => exact .refl _
  | some u => exact bindDirective hc u _ n m

theorem bindText (s : Settings) (n : Ref .node) (m : Ref .model) :
    (s.bindText compute n m).Below (s.bindText compute' n m) := by
  refine .bind (.refl _) fun w => ?_
  cases Template.parse s.delimiters (w.view.text n) with
  | none => exact .refl _
  | some t => exact bindTemplate hc t n m

theorem bindNodes (s : Settings) (m : Ref .model) (depth : Nat) (ns : List (Ref .node)) :
    (s.bindNodes compute m depth ns).Below (s.bindNodes compute' m depth ns) := by
  induction depth generalizing ns with
  | zero => exact .refl _
  | succ depth ih =>
    refine .forM fun n => .bind (.refl _) fun w => ?_
    cases (w.view.node n).sort with
    | element => exact .bind (bindAttrs hc s n m) fun _ => .bind (.refl _) fun _ => ih _
    | text => exact bindText hc s n m
    | other => exact .refl _

theorem compile (s : Settings) (m : Ref .model) (root : Ref .node) :
    (s.compile compute m root).Below (s.compile compute' m root) :=
  .bind (.refl _) fun _ => .bind (.refl _) fun _ => .bind (.refl _) fun _ =>
    .bind (.faultOf (bindNodes hc s m _ _)) fun _ => .refl _

theorem mount (point : MountPoint) (setup : Setup) (s : Settings)
    (keep : Ref .model → Action Unit) :
    (ViewModel.mount compute point setup s keep).Below
      (ViewModel.mount compute' point setup s keep) := by
  have hm (n : Ref .node) (m : Ref .model) :
      (Action.usingModel m (s.compile compute m n >>= fun _ => keep m)).Below
        (Action.usingModel m (s.compile compute' m n >>= fun _ => keep m)) :=
    .usingModel (.bind (compile hc s m n) fun _ => .refl _) m
  cases point with
  | node n =>
    exact .bind (.refl _) fun n => .bind (.refl _) fun m => .bind (hm n m) fun _ => .refl _
  | selector text =>
    exact .bind (.refl _) fun _ => .bind (.refl _) fun n => .bind (.refl _) fun m =>
      .bind (hm n m) fun _ => .refl _

end

section

variable {update update' : Subscriber → Action Unit} (hu : ∀ s, (update s).Below (update' s))

include hu

theorem updateEach (ss : List Subscriber) :
    (ViewBinding.updateEach update ss).Below (ViewBinding.updateEach update' ss) := by
  induction ss with
  | nil => exact .refl _
  | cons s rest ih =>
    refine .bind (.faultOf (hu s)) fun fault => ?_
    cases fault with
    | none => exact .bind (.refl _) fun _ => .bind ih fun _ => .refl _
    | some f =>
      exact .bind (.refl _) fun _ => .bind (.refl _) fun _ => .bind ih fun _ => .refl _

theorem notify (registry : Registry) :
    (registry.notify update).Below (registry.notify update') :=
  .bind (.refl _) fun _ => .bind (.refl _) fun _ => updateEach hu _

theorem notifySource (source : Source) :
    (source.notify update).Below (source.notify update') :=
  .bind (.refl _) fun _ => .bind (.refl _) fun _ => notify hu _

theorem writeCell (c : Ref .cell) (v : Value) :
    (Cell.write update c v).Below (Cell.write update' c v) :=
  .bind (.refl _) fun _ => .ite (.refl _) <|
    .bind (.refl _) fun _ => .bind (notifySource hu _) fun _ => .refl _

theorem insert (o : Ref .object) (key : String) (v : Value) :
    (Object.insert update o key v).Below (Object.insert update' o key v) := by
  refine .bind (.refl _) fun _ => .bind (.refl _) fun waiting => ?_
  cases waiting with
  | none => exact .refl _
  | some registry => exact .bind (notify hu registry) fun _ => .refl _

theorem writeObject (o : Ref .object) (key : String) (v : Value) :
    (Object.write update o key v).Below (Object.write update' o key v) := by
  refine .bind (.refl _) fun w => ?_
  cases w.slot? o key with
  | none => exact .bind (insert hu o key v) fun _ => .refl _
  | some slot =>
    cases slot with
    | cell c => exact writeCell hu c v
    | computed p => exact .refl _

end

section

variable {e e' : Engine} (he : e.Below e')

include he

theorem perform (r : Ref .watcher) (m : Ref .model) (change : Change) (callback : Callback) :
    (callback.perform e r m change).Below (callback.perform e' r m change) := by
  refine .bind (.refl _) fun _ => ?_
  cases callback with
  | run id steps => exact he.call _ steps
  | write face n => exact .refl _
  | render n t => exact .bind (.refl _) fun _ => .bind (template he.compute t m) fun _ => .refl _

theorem updateWatcher (r : Ref .watcher) : (Watcher.update e r).Below (Watcher.update e' r) := by
  refine .bind (.refl _) fun w => .bind (.refl _) fun _ => .usingModel ?_ _
  refine .bind (evaluateWatcher he.compute r) fun new => .bind (.refl _) fun w' => ?_
  exact .ite (.refl _) (.bind (.refl _) fun _ => perform he _ _ _ _)

theorem update (s : Subscriber) : (Subscriber.update e s).Below (Subscriber.update e' s) := by
  cases s with
  | watcher r => exact updateWatcher he r
  | reaction r => exact .bind (.refl _) fun _ => .bind (.refl _) fun _ => he.call _ _

theorem assign (p : Path) (root : Ref .object) (v : Value) :
    (p.assign e.compute (Subscriber.update e) root v).Below
      (p.assign e'.compute (Subscriber.update e') root v) :=
  .bind (Reading.Below.follow he.compute p _ _).once fun _ => .bind (.refl _) fun o =>
    writeObject (update he) o _ v

theorem writeModel (m : Ref .model) (path : String) (v : Value) :
    (ViewModel.write e.compute (Subscriber.update e) m path v).Below
      (ViewModel.write e'.compute (Subscriber.update e') m path v) :=
  .bind (.refl _) fun p => .bind (.refl _) fun _ => assign he p _ v

theorem callMethod (m : Ref .model) (name : String) (event : Event) :
    (ViewModel.call e m name event).Below (ViewModel.call e' m name event) :=
  .bind (.refl _) fun _ => .bind (.refl _) fun _ => .bind (.refl _) fun _ => he.call _ _

theorem respond (event : Event) (response : Response) :
    (response.perform e event).Below (response.perform e' event) := by
  cases response with
  | assign m path n =>
    refine .bind (.refl _) fun _ => .ite (.usingModel (.bind (.refl _) fun _ => ?_) m) (.refl _)
    exact .bind (writeModel he m path _) fun _ => .refl _
  | call m name =>
    exact .bind (.refl _) fun _ => .ite (.usingModel (callMethod he m name event) m) (.refl _)

theorem dispatch (n : Ref .node) (event : Event) :
    (event.dispatch e n).Below (event.dispatch e' n) :=
  .bind (.refl _) fun _ => .forM fun l => respond he event l.response

theorem input (n : Ref .node) (text : String) :
    (Event.input e n text).Below (Event.input e' n text) :=
  .bind (.refl _) fun _ => dispatch he n _

theorem value (f : Frame) (x : Expr) : (Script.value e f x).Below (Script.value e' f x) :=
  (Reading.Below.expr he.compute f x).once

theorem setup (f : Frame) (data : Option Expr) (computed : List (String × Expr))
    (methods : List (String × List Step)) :
    (Script.setup e f data computed methods).Below (Script.setup e' f data computed methods) :=
  .bind (value he f _) fun _ => .refl _

omit he in
theorem withModel (f : Frame) (name : Option String) {x x' : Ref .model → Action α}
    (hx : ∀ m, (x m).Below (x' m)) :
    (Script.withModel f name x).Below (Script.withModel f name x') :=
  .bind (.refl _) fun _ => .bind (.refl _) fun m => .usingModel (hx m) m

theorem withObject (f : Frame) (place : Place) {x x' : Ref .object → Action α}
    (hx : ∀ o, (x o).Below (x' o)) :
    (Script.withObject e f place x).Below (Script.withObject e' f place x') := by
  cases place with
  | of expr => exact .bind (value he f expr) fun _ => .bind (.refl _) fun o => hx o
  | root name => exact withModel f name fun m => .bind (.refl _) fun _ => hx _

section

variable (f : Frame)

theorem build (name : Option String) (data : Option Expr) (computed : List (String × Expr))
    (methods : List (String × List Step)) :
    (Script.build e f name data computed methods).Below
      (Script.build e' f name data computed methods) :=
  .bind (setup he f data computed methods) fun _ => .refl _

theorem mountStep (name : Option String) (target : Target) (data : Option Expr)
    (computed : List (String × Expr)) (methods : List (String × List Step))
    (settings : Settings) :
    (Script.mount e f name target data computed methods settings).Below
      (Script.mount e' f name target data computed methods settings) := by
  refine .bind (setup he f data computed methods) fun setup => ?_
  cases target <;> exact .bind (.refl _) fun point =>
    .bind (mount he.compute point setup settings _) fun _ => .refl _

theorem compileStep (name : Option String) (node : Nat) (settings : Settings) :
    (Script.compile e f name node settings).Below (Script.compile e' f name node settings) :=
  withModel f name fun m => .bind (.refl _) fun n =>
    .bind (compile he.compute settings m n) fun _ => .refl _

theorem read (name : Option String) (path : String) :
    (Script.read e f name path).Below (Script.read e' f name path) :=
  withModel f name fun m => .bind (Reading.Below.model he.compute m path).once fun _ => .refl _

theorem write (name : Option String) (path : String) (x : Expr) :
    (Script.write e f name path x).Below (Script.write e' f name path x) :=
  withModel f name fun m => .bind (value he f x) fun v =>
    .bind (writeModel he m path v) fun _ => .refl _

theorem call (name : Option String) (method kind : String) (text : Option String) :
    (Script.call e f name method kind text).Below (Script.call e' f name method kind text) :=
  withModel f name fun m => .bind (callMethod he m method _) fun _ => .refl _

theorem render (name : Option String) (text : String) (delimiters : Delimiters) :
    (Script.render e f name text delimiters).Below (Script.render e' f name text delimiters) := by
  rw [Script.render, Script.render]
  cases Template.parse delimiters text with
  | none => exact .refl _
  | some t => exact withModel f name fun m => .bind (template he.compute t m) fun _ => .refl _

theorem watchStep (name : Option String) (id path : String) (steps : List Step) :
    (Script.watch e f name id path steps).Below (Script.watch e' f name id path steps) :=
  withModel f name fun m => .bind (watch he.compute m path _) fun _ => .refl _

theorem watcherStep (name : Option String) (id path : String) (steps : List Step) :
    (Script.watcher e f name id path steps).Below (Script.watcher e' f name id path steps) :=
  withModel f name fun m => .bind (createWatcher he.compute m path _) fun _ => .refl _

theorem property (place : Place) (key : String) :
    (Script.property e f place key).Below (Script.property e' f place key) :=
  withObject he f place fun o =>
    .bind (Reading.Below.object he.compute o key).once fun _ => .refl _

theorem setProperty (place : Place) (key : String) (x : Expr) :
    (Script.setProperty e f place key x).Below (Script.setProperty e' f place key x) :=
  withObject he f place fun o => .bind (value he f x) fun v =>
    .bind (writeObject (update he) o key v) fun _ => .refl _

theorem assignStep (place : Place) (path : String) (x : Expr) :
    (Script.assign e f place path x).Below (Script.assign e' f place path x) :=
  withObject he f place fun o => .bind (.refl _) fun p => .bind (value he f x) fun v =>
    .bind (assign he p o v) fun _ => .refl _

theorem cell (id : String) (x : Option Expr) :
    (Script.cell e f id x).Below (Script.cell e' f id x) := by
  have hx : (x.elim (pure .null) (Script.value e f)).Below
      (x.elim (pure .null) (Script.value e' f)) := by
    cases x with
    | none => exact refl (pure Value.null)
    | some x => exact value he f x
  exact .bind hx fun _ => .refl _

theorem setCell (id : String) (x : Expr) :
    (Script.setCell e f id x).Below (Script.setCell e' f id x) :=
  .bind (.refl _) fun c => .bind (value he f x) fun v =>
    .bind (writeCell (update he) c v) fun _ => .refl _

theorem track (name : Option String) (reaction : String) (paths : List String) :
    (Script.track e f name reaction paths).Below (Script.track e' f name reaction paths) := by
  have hread (path : String) : (do
      let m ← MonadExcept.ofExcept (f.findModel (← getThe World) name)
      Script.outcome (ViewModel.read e.compute m path) : Reading _).Below (do
      let m ← MonadExcept.ofExcept (f.findModel (← getThe World) name)
      Script.outcome (ViewModel.read e'.compute m path)) :=
    .bind (.refl _) fun _ => .bind (.refl _) fun m => .outcome (.model he.compute m path)
  exact .bind (.refl _) fun r => .bind (Reading.Below.evaluate (.mapM hread) _) fun _ => .refl _

end

end

end Action.Below

namespace Step

variable {e e' : Engine}

mutual

theorem run_below (he : e.Below e') (f : Frame) : ∀ s : Step, (s.run e f).Below (s.run e' f)
  | .build name data computed methods => .build he f name data computed methods
  | .mount name target data computed methods settings =>
    .mountStep he f name target data computed methods settings
  | .compile model n settings => .compileStep he f model n settings
  | .read model path => .read he f model path
  | .write model path x => .write he f model path x
  | .call model method kind text => .call he f model method kind text
  | .render model text delimiters => .render he f model text delimiters
  | .watch model id path steps => .watchStep he f model id path steps
  | .watcher model id path steps => .watcherStep he f model id path steps
  | .watcherUpdate _ =>
    .bind (.refl _) fun r => .bind (.usingSubscriber (.updateWatcher he r) _) fun _ => .refl _
  | .save _ x => .bind (.value he f x) fun _ => .refl _
  | .eval x => .bind (.value he f x) fun _ => .refl _
  | .exported x => .bind (.value he f x) fun _ => .refl _
  | .showValue x => .bind (.value he f x) fun _ => .refl _
  | .property object key => .property he f object key
  | .setProperty object key x => .setProperty he f object key x
  | .keys object => .withObject he f object fun _ => .refl _
  | .hasProperty object _ => .withObject he f object fun _ => .refl _
  | .assign object path x => .assignStep he f object path x
  | .cell id x => .cell he f id x
  | .cellOf _ object _ => .withObject he f object fun _ => .refl _
  | .setCell id x => .setCell he f id x
  | .track model reaction paths => .track he f model reaction paths
  | .notify _ => .bind (.refl _) fun _ => .bind (.notifySource (.update he) _) fun _ => .refl _
  | .input _ text => .bind (.refl _) fun n => .bind (.input he n text) fun _ => .refl _
  | .dispatch _ _ =>
    .bind (.refl _) fun n => .bind (.refl _) fun _ => .bind (.dispatch he n _) fun _ => .refl _
  | .event _ _ _ => .bind (.refl _) fun n => .bind (.dispatch he n _) fun _ => .refl _
  | .log x => .bind (.value he f x) fun _ => .refl _
  | .cond test yes no =>
    .bind (.value he f test) fun _ =>
      .ite (.bind (runAll_below he f yes) fun _ => .refl _)
        (.bind (runAll_below he f no) fun _ => .refl _)
  | .attempt steps => .bind (.faultOf (runAll_below he f steps)) fun _ => .refl _
  | .loop times steps => .bind (.times (runAll_below he f steps) times) fun _ => .refl _
  | .dropModel _ | .alive _ | .hasMethod _ _ | .snapshot _ | .watcherCount _ | .showModel _
  | .watcherValue _ | .watcherPath _ | .showWatcher _ | .dropWatcher _ | .cellValue _
  | .cellSubscribers _ | .showCell _ | .react _ _ | .dropReaction _ | .trackCell _ _ | .registry _
  | .register _ _ | .registrySize _ | .create _ | .node _ | .nodeCount | .query _ | .setText _ _
  | .setValue _ _ | .detach _ | .append _ _ | .fail _ => .refl _

theorem runAll_below (he : e.Below e') (f : Frame) :
    ∀ ss : List Step, (Step.runAll e f ss).Below (Step.runAll e' f ss)
  | [] => .refl _
  | s :: rest => .bind (run_below he f s) fun _ => runAll_below he f rest

end

end Step

theorem Engine.ofFuel_below {n n' : Nat} (h : n ≤ n') : (ofFuel n).Below (ofFuel n') := by
  induction n generalizing n' with
  | zero => exact ⟨fun _ _ _ _ h => (nomatch h), fun _ _ _ _ h => (nomatch h)⟩
  | succ n ih =>
    cases n' with
    | zero => omega
    | succ n' =>
      have he := ih (Nat.le_of_succ_le_succ h)
      exact ⟨fun p => .computed he.compute p, fun f steps => Step.runAll_below he f steps⟩

/-- With more fuel the steps of a run have the same outcomes. -/
theorem World.steps_mono {n n' : Nat} (h : n ≤ n') {steps : List Step} {w w' : World}
    {outcomes : List Outcome} (hw : w.steps (Engine.ofFuel n) steps = some (outcomes, w')) :
    w.steps (Engine.ofFuel n') steps = some (outcomes, w') := by
  induction steps generalizing w outcomes with
  | nil => exact hw
  | cons s rest ih =>
    obtain ⟨⟨outcome, w₁⟩, h₁, hw⟩ := Option.bind_eq_some_iff.1 hw
    obtain ⟨⟨outcomes', w₂⟩, h₂, he⟩ := Option.bind_eq_some_iff.1 hw
    cases he
    obtain ⟨p, h₃, he₃⟩ := Option.bind_eq_some_iff.1 h₁
    have hs : w.step (Engine.ofFuel n') s = some (outcome, w₁) :=
      Option.bind_eq_some_iff.2 ⟨p, Step.run_below (Engine.ofFuel_below h) {} s _ p h₃, he₃⟩
    refine Option.bind_eq_some_iff.2 ⟨(outcome, w₁), hs, ?_⟩
    exact Option.bind_eq_some_iff.2 ⟨(outcomes', w'), ih h₂, rfl⟩

end ViewBinding
