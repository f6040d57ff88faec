import ViewBinding.Proofs.Guests.Admitted
import ViewBinding.Proofs.Guests.Graphs
import ViewBinding.Proofs.Guests.Mounts

/-! The steps of scripts go parallel in two runs, but for those that make guests or let them go. -/

namespace ViewBinding

open ViewBinding.Action

variable {α β : Type} {G : List String} {p q : Pairing} {w w' : World} {e e' : Engine}
  {f f' : Frame}

namespace Script

/-! Finding what a step names. -/

section Lookup

theorem findNode_parallel (n : Nat) :
    Parallel G p (findNode n) (findNode n) fun _ => Eq := by
  have hfind {q : Pairing} : Parallel G q (do
      if n ∈ (← MonadState.get).knownNodes then return ⟨n⟩ else throw (.noSuch .node))
      (do
      if n ∈ (← MonadState.get).knownNodes then return ⟨n⟩ else throw (.noSuch .node) :
        Action (Ref .node)) fun _ => Eq := by
    refine .get fun _ _ _ _ hw => ?_
    rw [hw.knownNodes]
    exact .ite Iff.rfl (fun _ => .pure fun _ _ => rfl) fun _ => .throw _
  refine .get fun q w w' _ hw => ?_
  rw [hw.knownNodes]
  refine .ite Iff.rfl (fun _ => hfind) fun _ => ?_
  refine .bind (R := fun _ _ _ => True) (.modify fun l v v' _ hv => ?_) fun _ _ _ _ _ => hfind
  rw [hv.view, hv.knownNodes]
  exact ⟨l, le_rfl, hv.meet _, trivial⟩

theorem withModel_parallel {R : Pairing → α → β → Prop} {x : Ref .model → Action α}
    {x' : Ref .model → Action β} (hf : f.Twin p f') (name : Option String)
    (hx : ∀ q, p ≤ q → ∀ m, q.pair m m → Parallel G q (x m) (x' m) R) :
    Parallel G p (withModel f name x) (withModel f' name x') R := by
  refine .get fun q w w' hq hw => ?_
  refine .bind (R := fun q m m' => m = m' ∧ q.pair m m) (.ofExcept fun l hl => ?_) ?_
  · exact ((hf.mono hq).findModel (World.Twin.sameData hw) name).mono fun _ _ h =>
      ⟨h.1, hl.pair h.2⟩
  · rintro l hl m _ ⟨rfl, hm⟩
    exact .usingModel hm (hx l (hq.trans hl) m hm)

variable (he : Engine.Twin G e e') (hf : f.Twin p f')

include he hf

theorem value_parallel (x : Expr) : Parallel G p (value e f x) (value e' f' x) Value.Twin :=
  (Reading.Parallel.expr x (.inl trivial) (he.compute p) hf).once fun _ _ hl _ _ =>
    Value.Twin.mono hl

theorem withObject_parallel {R : Pairing → α → β → Prop} {x : Ref .object → Action α}
    {x' : Ref .object → Action β} (place : Place)
    (hx : ∀ q, p ≤ q → ∀ o o', q.pair o o' → Parallel G q (x o) (x' o') R) :
    Parallel G p (withObject e f place x) (withObject e' f' place x') R := by
  cases place with
  | of expr =>
    refine .bind (value_parallel he hf expr) fun q hq v v' hv => ?_
    exact .bind (.require _ fun l hl => (hv.mono hl).object?) fun l hl o o' ho =>
      hx l (hq.trans hl) o o' ho
  | root name =>
    refine withModel_parallel hf name fun q hq m hm => .get fun l w w' hl hw => ?_
    exact hx l (hq.trans hl) _ _ (hw.models m m (hl.pair hm)).data

end Lookup

/-! Names. -/

theorem changeNames_parallel {change change' : Names → Names}
    (h : ∀ q, p ≤ q → ∀ n n' : Names, n.Twin G q n' → (change n).Twin G q (change' n')) :
    Parallel G p (changeNames change) (changeNames change') fun _ _ _ => True :=
  .modify fun q _ _ hq hw => ⟨q, le_rfl, hw.setNames (h q hq _ _ hw.names), trivial⟩

theorem nameModel_parallel (name : Option String) {m : Ref .model} (hm : p.pair m m) :
    Parallel G p (nameModel name m) (nameModel name m) fun _ _ _ => True :=
  changeNames_parallel fun _ hq _ _ hn => hn.bindModel (hq.pair hm)

theorem nameCell_parallel (id : String) {c c' : Ref .cell} (hc : p.pair c c') :
    Parallel G p (nameCell id c) (nameCell id c') fun _ _ _ => True :=
  changeNames_parallel fun q hq _ _ hn =>
    { hn with cells := optionRel_insert (R := q.pair) hn.cells (hq.pair hc) id }

theorem findCell_parallel (id : String) :
    Parallel G p (findCell id) (findCell id) fun q => q.pair :=
  .get fun _ _ _ _ hw => .require _ fun _ hl =>
    optionRel_mono (fun _ _ => hl.pair) (hw.names.cells id)

theorem findWatcher_parallel {id : String} (hid : id ∉ G) :
    Parallel G p (findWatcher id) (findWatcher id) fun q => q.pair :=
  .get fun _ _ _ _ hw => .require _ fun _ hl =>
    optionRel_mono (fun _ _ => hl.pair) (hw.names.watchers id hid)

theorem findReaction_parallel (id : String) :
    Parallel G p (findReaction id) (findReaction id) fun _ => Eq := by
  refine .get fun _ w w' _ hw => ?_
  rw [hw.names.reactions]
  exact .require _ fun _ _ => optionRel_refl fun _ _ => rfl

theorem findRegistry_parallel (id : String) :
    Parallel G p (findRegistry id) (findRegistry id) fun _ => Eq := by
  refine .get fun _ w w' _ hw => ?_
  rw [hw.names.registries]
  exact .require _ fun _ _ => optionRel_refl fun _ _ => rfl

/-! Values, objects and cells. -/

section Steps

variable (he : Engine.Twin G e e') (hf : f.Twin p f')

include he hf

theorem save_parallel (name : String) (x : Expr) :
    Parallel G p (save e f name x) (save e' f' name x) Answer.Twin := by
  refine .bind (value_parallel he hf x) fun q _ v v' hv => ?_
  refine .bind (changeNames_parallel fun l hl n n' hn => ?_) fun l hl _ _ _ => ?_
  · exact { hn with values := optionRel_insert (R := Value.Twin l) hn.values (hv.mono hl) name }
  · exact .pure fun _ hk => hv.mono (hl.trans hk)

theorem exported_parallel (x : Expr) :
    Parallel G p (exported e f x) (exported e' f' x) Answer.Twin :=
  .bind (value_parallel he hf x) fun _ _ _ _ hv => .get fun _ _ _ hl hw =>
    .bind (R := fun _ => Eq)
      (.finished fun d hd => ⟨d, hw.exportValue? (hv.mono hl) hd, fun _ _ => rfl⟩)
      fun _ _ _ _ hd => .pure fun _ _ => congrArg Answer.document hd

theorem showValue_parallel (x : Expr) :
    Parallel G p (showValue e f x) (showValue e' f' x) Answer.Twin :=
  .bind (value_parallel he hf x) fun _ _ _ _ hv => .get fun _ _ _ hl hw =>
    .bind (R := fun _ => Eq)
      (.finished fun s hs => ⟨s, hw.describe? (hv.mono hl) hs, fun _ _ => rfl⟩)
      fun _ _ _ _ hs => .pure fun _ _ => congrArg Answer.text hs

theorem property_parallel (place : Place) (key : String) :
    Parallel G p (property e f place key) (property e' f' place key) Answer.Twin :=
  withObject_parallel he hf place fun q _ _ _ ho =>
    .bind ((Reading.Parallel.object (he.compute q) ho key).once fun _ _ hl _ _ =>
      Value.Twin.mono hl) fun _ _ _ _ hv => .pure fun _ hl => hv.mono hl

theorem setProperty_parallel (place : Place) (key : String) (x : Expr) :
    Parallel G p (setProperty e f place key x) (setProperty e' f' place key x) Answer.Twin :=
  withObject_parallel he hf place fun _ hq _ _ ho =>
    .bind (value_parallel he (hf.mono hq) x) fun _ hl _ _ hv =>
      .bind (.writeObject he (hl.pair ho) key hv) fun _ _ _ _ hb =>
        .pure fun _ _ => congrArg Answer.flag hb

theorem keys_parallel (place : Place) :
    Parallel G p (keys e f place) (keys e' f' place) Answer.Twin :=
  withObject_parallel he hf place fun _ _ o o' ho => .get fun _ _ _ hl hw =>
    .pure fun _ _ => congrArg Answer.keys (keys_eq_of_rel (hw.objects o o' (hl.pair ho)).slots)

theorem hasProperty_parallel (place : Place) (key : String) :
    Parallel G p (hasProperty e f place key) (hasProperty e' f' place key) Answer.Twin := by
  refine withObject_parallel he hf place fun q _ o o' ho => .get fun l w w' hl hw => ?_
  have hslot := hw.slot? (hl.pair ho) key
  generalize w.slot? o key = a at hslot ⊢
  generalize w'.slot? o' key = b at hslot ⊢
  cases hslot with
  | none => exact .pure fun _ _ => ⟨rfl, rfl⟩
  | @some a b hs =>
    cases a <;> cases b <;> first | exact False.elim hs | exact .pure fun _ _ => ⟨rfl, rfl⟩

theorem assign_parallel (place : Place) (path : String) (x : Expr) :
    Parallel G p (Script.assign e f place path x) (Script.assign e' f' place path x)
      Answer.Twin := by
  refine withObject_parallel he hf place fun q hq o o' ho => ?_
  refine .bind (R := fun _ => Eq) (.ofExcept fun _ _ => ?_) fun l hl g g' hg => ?_
  · cases Path.parse path <;> rfl
  cases hg
  refine .bind (value_parallel he (hf.mono (hq.trans hl)) x) fun k hk v v' hv => ?_
  exact .bind (.assign he g ((hl.trans hk).pair ho) hv) fun _ _ _ _ hb =>
    .pure fun _ _ => congrArg Answer.flag hb

theorem cell_parallel (id : String) (x : Option Expr) :
    Parallel G p (cell e f id x) (cell e' f' id x) Answer.Twin := by
  have hv : Parallel G p (x.elim (pure .null) (value e f)) (x.elim (pure .null) (value e' f'))
      Value.Twin := by
    cases x with
    | none => exact .pure fun _ _ => .null
    | some x => exact value_parallel he hf x
  refine .bind hv fun q hq v v' hv => ?_
  refine .bind (R := fun q => q.pair) (.modifyGet fun l w w' hl hw => ?_) fun l hl c c' hc => ?_
  · have hj := l.le_join w.cells.fresh w'.cells.fresh
    exact ⟨_, hj, hw.addCell (hv.mono hl), Pairing.pair_join.2 (.inr ⟨rfl, rfl⟩)⟩
  · exact .bind (nameCell_parallel id hc) fun _ _ _ _ _ => .pure fun _ _ => rfl

theorem cellOf_parallel (id : String) (place : Place) (key : String) :
    Parallel G p (cellOf e f id place key) (cellOf e' f' id place key) Answer.Twin := by
  refine withObject_parallel he hf place fun q _ o o' ho => .get fun l w w' hl hw => ?_
  have hslot := hw.slot? (hl.pair ho) key
  generalize w.slot? o key = a at hslot ⊢
  generalize w'.slot? o' key = b at hslot ⊢
  cases hslot with
  | none => exact .pure fun _ _ => rfl
  | @some a b hs =>
    cases a <;> cases b <;> first | exact False.elim hs | skip
    · exact .bind (nameCell_parallel id hs) fun _ _ _ _ _ => .pure fun _ _ => rfl
    · exact .pure fun _ _ => rfl

theorem setCell_parallel (id : String) (x : Expr) :
    Parallel G p (setCell e f id x) (setCell e' f' id x) Answer.Twin :=
  .bind (findCell_parallel id) fun _ hq _ _ hc =>
    .bind (value_parallel he (hf.mono hq) x) fun _ hl _ _ hv =>
      .bind (.writeCell he (hl.pair hc) hv) fun _ _ _ _ hb =>
        .pure fun _ _ => congrArg Answer.flag hb

/-! View-models. -/

theorem setup_parallel (data : Option Expr) (computed : List (String × Expr))
    {methods : List (String × List Step)} (hm : Step.EveryMethod (Step.Fair G) methods) :
    Parallel G p (setup e f data computed methods)
      (setup e' f' data computed (Step.coreMethods G methods)) fun q => Setup.Twin G q :=
  .bind (value_parallel he hf _) fun _ _ _ _ hv => .pure fun _ hl => ⟨hv.mono hl, rfl, hm, rfl⟩

theorem build_parallel (name : Option String) (data : Option Expr) (computed : List (String × Expr))
    {methods : List (String × List Step)} (hm : Step.EveryMethod (Step.Fair G) methods) :
    Parallel G p (build e f name data computed methods)
      (build e' f' name data computed (Step.coreMethods G methods)) Answer.Twin := by
  refine .bind (setup_parallel he hf data computed hm) fun q _ _ _ hs => ?_
  refine .bind (.createModel hs) ?_
  rintro l hl m _ ⟨rfl, hm⟩
  refine .bind (nameModel_parallel name hm) fun k _ _ _ _ => .get fun _ _ _ _ _ => ?_
  exact .pure fun _ _ => trivial

theorem mount_parallel (name : Option String) (target : Target) (data : Option Expr)
    (computed : List (String × Expr)) {methods : List (String × List Step)} (settings : Settings)
    (hm : Step.EveryMethod (Step.Fair G) methods) :
    Parallel G p (mount e f name target data computed methods settings)
      (mount e' f' name target data computed (Step.coreMethods G methods) settings)
      Answer.Twin := by
  refine .bind (setup_parallel he hf data computed hm) fun q _ setup setup' hs => ?_
  have hpoint (point : MountPoint) {l : Pairing} (hl : q ≤ l) : Parallel G l (do
      let m ← ViewModel.mount e.compute point setup settings (nameModel name)
      return .watchers (← watcherCount m)) (do
      let m ← ViewModel.mount e'.compute point setup' settings (nameModel name)
      return .watchers (← watcherCount m)) Answer.Twin := by
    refine .bind (.mount he point (hs.mono hl) settings fun _ _ _ hm => nameModel_parallel name hm)
      fun _ _ _ _ _ => .get fun _ _ _ _ _ => .pure fun _ _ => trivial
  cases target with
  | selector text => exact hpoint (.selector text) le_rfl
  | node n =>
    have hnode : Parallel G q (MountPoint.node <$> findNode n) (MountPoint.node <$> findNode n)
        fun _ => Eq :=
      .bind (findNode_parallel n) fun _ _ _ _ hn => .pure fun _ _ => congrArg MountPoint.node hn
    refine .bind hnode fun l hl point _ hp => ?_
    cases hp
    exact hpoint point hl

theorem compile_parallel (name : Option String) (node : Nat) (settings : Settings) :
    Parallel G p (compile e f name node settings) (compile e' f' name node settings)
      Answer.Twin := by
  refine withModel_parallel hf name fun q _ m hm => ?_
  refine .bind (findNode_parallel node) fun l hl n _ hn => ?_
  cases hn
  refine .bind (.compile he settings (hl.pair hm) n) fun _ _ _ _ _ => .get fun _ _ _ _ _ => ?_
  exact .pure fun _ _ => trivial

theorem read_parallel (name : Option String) (path : String) :
    Parallel G p (read e f name path) (read e' f' name path) Answer.Twin :=
  withModel_parallel hf name fun q _ _ hm =>
    .bind ((Reading.Parallel.model (he.compute q) hm path).once fun _ _ hl _ _ =>
      Value.Twin.mono hl) fun _ _ _ _ hv => .pure fun _ hl => hv.mono hl

theorem write_parallel (name : Option String) (path : String) (x : Expr) :
    Parallel G p (write e f name path x) (write e' f' name path x) Answer.Twin :=
  withModel_parallel hf name fun _ hq _ hm =>
    .bind (value_parallel he (hf.mono hq) x) fun _ hl _ _ hv =>
      .bind (.writeModel he (hl.pair hm) path hv) fun _ _ _ _ hb =>
        .pure fun _ _ => congrArg Answer.flag hb

theorem call_parallel (name : Option String) (method kind : String) (text : Option String) :
    Parallel G p (call e f name method kind text) (call e' f' name method kind text)
      Answer.Twin :=
  withModel_parallel hf name fun _ _ _ hm =>
    .bind (.callMethod he hm method { kind, value := text }) fun _ _ _ _ _ => .pure fun _ _ => rfl

theorem render_parallel (name : Option String) (text : String) (delimiters : Delimiters) :
    Parallel G p (render e f name text delimiters) (render e' f' name text delimiters)
      Answer.Twin := by
  rw [render, render]
  cases Template.parse delimiters text with
  | none => exact .pure fun _ _ => rfl
  | some t =>
    exact withModel_parallel hf name fun _ _ _ hm => .bind (.template he t hm)
      fun _ _ _ _ ht => .pure fun _ _ => congrArg Answer.text ht

/-! Reactions. -/

theorem track_parallel (name : Option String) (reaction : String) (paths : List String) :
    Parallel G p (track e f name reaction paths) (track e' f' name reaction paths)
      Answer.Twin := by
  refine .bind (findReaction_parallel reaction) fun q hq r _ hr => ?_
  cases hr
  have hread (path : String) : Reading.Parallel (.guests G) q (do
      let m ← MonadExcept.ofExcept (f.findModel (← getThe World) name)
      outcome (ViewModel.read e.compute m path)) (do
      let m ← MonadExcept.ofExcept (f'.findModel (← getThe World) name)
      outcome (ViewModel.read e'.compute m path)) fun q => EndsAlike (Value.Twin q) := by
    refine .getWorld fun l w w' hl hw => ?_
    refine .bind (R := fun q m m' => m = m' ∧ q.pair m m) (.ofExcept fun k hk => ?_) ?_
    · exact ((hf.mono (hq.trans hl)).findModel (World.Twin.sameData hw) name).mono fun _ _ h =>
        ⟨h.1, hk.pair h.2⟩
    · rintro k hk m _ ⟨rfl, hm⟩
      exact (Reading.Parallel.model (he.compute k) hm path).outcome
  have hends {l k : Pairing} (hk : l ≤ k) (a b : Except Fault Value) :
      EndsAlike (Value.Twin l) a b → EndsAlike (Value.Twin k) a b :=
    EndsAlike.mono fun _ _ => Value.Twin.mono hk
  have hreads := Reading.Parallel.mapM (fun _ _ hk => hends hk) fun path (_ : path ∈ paths) =>
    hread path
  refine .bind (hreads.evaluate (.some rfl)) fun l hl a b hab => ?_
  have hcount := hab.2
  refine .bind (.ofExcept fun k hk => hab.1.mono fun _ _ h => h.imp (hends hk))
    fun k hk vs vs' hvs => ?_
  exact .pure fun i hi => ⟨hvs.imp (hends hi), hcount⟩

end Steps

section Others

theorem hasMethod_parallel (hf : f.Twin p f') (name : Option String) (method : String) :
    Parallel G p (hasMethod f name method) (hasMethod f' name method) Answer.Twin :=
  withModel_parallel hf name fun _ _ _ hm => .get fun _ _ _ hl hw =>
    .pure fun _ _ => congrArg Answer.flag (hw.hasMethod (hl.pair hm) method)

theorem snapshot_parallel (hf : f.Twin p f') (name : Option String) :
    Parallel G p (snapshot f name) (snapshot f' name) Answer.Twin :=
  withModel_parallel hf name fun _ _ m hm => .get fun _ _ _ hl hw =>
    .bind (R := fun _ => Eq) (.finished fun d hd =>
      ⟨d, hw.export? (hw.models m m (hl.pair hm)).data hd, fun _ _ => rfl⟩)
      fun _ _ _ _ hd => .pure fun _ _ => congrArg Answer.document hd

theorem showModel_parallel (hf : f.Twin p f') (name : Option String) :
    Parallel G p (showModel f name) (showModel f' name) Answer.Twin :=
  withModel_parallel hf name fun _ _ _ hm => .get fun _ _ _ hl hw =>
    .bind (R := fun _ => Eq) (.finished fun s hs =>
      ⟨s, hw.describeModel? (hl.pair hm) hs, fun _ _ => rfl⟩)
      fun _ _ _ _ hs => .pure fun _ _ => congrArg Answer.text hs

theorem dropModel_parallel (name : Option String) :
    Parallel G p (dropModel name) (dropModel name) Answer.Twin := by
  refine .get fun q w w' _ hw => ?_
  rw [hw.names.models]
  exact .bind (changeNames_parallel fun _ _ _ _ hn => hn.dropModel _) fun _ _ _ _ _ =>
    .pure fun _ _ => rfl

theorem alive_parallel (name : Option String) :
    Parallel G p (alive name) (alive name) Answer.Twin := by
  refine .get fun q w w' _ hw => .pure fun _ _ => ?_
  rw [hw.names.models, show w.modelAlive = w'.modelAlive from funext hw.modelAlive]
  rfl

theorem cellValue_parallel (id : String) :
    Parallel G p (cellValue id) (cellValue id) Answer.Twin :=
  .bind (findCell_parallel id) fun _ _ _ _ hc => .get fun _ _ _ hl hw =>
    .pure fun _ hk => (hw.value (hl.pair hc)).mono hk

theorem showCell_parallel (id : String) :
    Parallel G p (showCell id) (showCell id) Answer.Twin :=
  .bind (findCell_parallel id) fun _ _ _ _ hc => .get fun _ _ _ hl hw =>
    .bind (R := fun _ => Eq) (.finished fun s hs =>
      ⟨s, hw.describe? (hw.value (hl.pair hc)) hs, fun _ _ => rfl⟩)
      fun _ _ _ _ hs => .pure fun _ _ => congrArg Answer.text hs

/-! Watchers other than guests. -/

theorem watch_parallel (he : Engine.Twin G e e') (hf : f.Twin p f') (name : Option String)
    (id path : String) {steps : List Step} (hid : id ∉ G)
    (hs : Step.EveryAll (Step.Fair G) steps) :
    Parallel G p (watch e f name id path steps)
      (watch e' f' name id path (Step.coreCallback G steps)) Answer.Twin :=
  withModel_parallel hf name fun _ _ _ hm => .bind (.watch he hm path (.run hid hs))
    fun _ _ r r' hr => .get fun _ _ _ hl hw =>
      .pure fun _ hk => (hw.watchers r r' (hl.pair hr)).value.mono hk

theorem watcher_parallel (he : Engine.Twin G e e') (hf : f.Twin p f') (name : Option String)
    (id path : String) {steps : List Step} (hid : id ∉ G)
    (hs : Step.EveryAll (Step.Fair G) steps) :
    Parallel G p (watcher e f name id path steps)
      (watcher e' f' name id path (Step.coreCallback G steps)) Answer.Twin := by
  refine withModel_parallel hf name fun _ _ _ hm => .bind (.createWatcher he hm path (.run hid hs))
    fun q _ r r' hr => ?_
  refine .bind (changeNames_parallel fun _ hl _ _ hn => hn.bindWatcher hid (hl.pair hr))
    fun l hl _ _ _ => .get fun _ _ _ hk hw => ?_
  exact .pure fun _ hi => (hw.watchers r r' ((hl.trans hk).pair hr)).value.mono hi

theorem watcherValue_parallel {id : String} (hid : id ∉ G) :
    Parallel G p (watcherValue id) (watcherValue id) Answer.Twin :=
  .bind (findWatcher_parallel hid) fun _ _ r r' hr => .get fun _ _ _ hl hw =>
    .pure fun _ hk => (hw.watchers r r' (hl.pair hr)).value.mono hk

theorem watcherPath_parallel {id : String} (hid : id ∉ G) :
    Parallel G p (watcherPath id) (watcherPath id) Answer.Twin :=
  .bind (findWatcher_parallel hid) fun _ _ r r' hr => .get fun _ _ _ hl hw =>
    .pure fun _ _ => congrArg Answer.path (hw.watchers r r' (hl.pair hr)).path

theorem showWatcher_parallel {id : String} (hid : id ∉ G) :
    Parallel G p (showWatcher id) (showWatcher id) Answer.Twin :=
  .bind (findWatcher_parallel hid) fun _ _ _ _ hr => .get fun _ _ _ hl hw =>
    .bind (R := fun _ => Eq) (.finished fun s hs =>
      ⟨s, hw.describeWatcher? (hl.pair hr) hs, fun _ _ => rfl⟩)
      fun _ _ _ _ hs => .pure fun _ _ => congrArg Answer.text hs

theorem dropWatcher_parallel {id : String} (hid : id ∉ G) :
    Parallel G p (dropWatcher id) (dropWatcher id) Answer.Twin := by
  refine .get fun q w w' _ hw => ?_
  have hbound : w.names.watchers.held.contains id = w'.names.watchers.held.contains id := by
    rw [Std.ExtTreeMap.contains_eq_isSome_getElem?, Std.ExtTreeMap.contains_eq_isSome_getElem?]
    exact optionRel_isSome (hw.names.watchers id hid)
  rw [hbound]
  exact .bind (changeNames_parallel fun _ _ _ _ hn => hn.dropWatcher id) fun _ _ _ _ _ =>
    .pure fun _ _ => rfl

/-! Reactions and registries. -/

theorem react_parallel (id : String) {steps : List Step}
    (hs : Step.EveryAll (Step.Fair G) steps) :
    Parallel G p (react id steps) (react id (Step.coreAll G steps)) Answer.Twin := by
  refine .get fun q w w' _ hw => ?_
  have hfresh : w.reactions.fresh = w'.reactions.fresh := congrArg Ref.mk hw.reactionsSize
  rw [hfresh]
  refine .bind (R := fun _ _ _ => True) (.modify fun l v v' _ hv =>
    ⟨l, le_rfl, hv.addReaction ⟨rfl, hs, rfl⟩, trivial⟩) fun _ _ _ _ _ => ?_
  refine .bind (changeNames_parallel fun _ _ n n' hn => ?_) fun _ _ _ _ _ => .pure fun _ _ => rfl
  exact { hn with reactions := congrArg (Holder.bind · id _) hn.reactions }

theorem dropReaction_parallel (id : String) :
    Parallel G p (dropReaction id) (dropReaction id) Answer.Twin := by
  refine .get fun q w w' _ hw => ?_
  rw [hw.names.reactions]
  refine .bind (changeNames_parallel fun _ _ n n' hn => ?_) fun _ _ _ _ _ => .pure fun _ _ => rfl
  exact { hn with reactions := congrArg (Holder.drop · id) hn.reactions }

theorem trackCell_parallel (reaction id : String) :
    Parallel G p (trackCell reaction id) (trackCell reaction id) Answer.Twin := by
  refine .bind (findReaction_parallel reaction) fun q _ r _ hr => ?_
  cases hr
  refine .bind (findCell_parallel id) fun l _ c c' hc => ?_
  refine .bind ((Reading.Parallel.cell hc).evaluate (.some rfl)) fun k _ a b hab => ?_
  have hcount := hab.2
  refine .bind (.ofExcept fun i hi => hab.1.mono fun _ _ => Value.Twin.mono hi)
    fun i _ v v' hv => ?_
  exact .pure fun _ hj => ⟨hv.mono hj, hcount⟩

theorem makeRegistry_parallel (id : String) :
    Parallel G p (makeRegistry id) (makeRegistry id) Answer.Twin := by
  refine .get fun q w w' _ hw => ?_
  have hfresh : w.registries.fresh = w'.registries.fresh := congrArg Ref.mk hw.registriesSize
  rw [hfresh]
  refine .bind (R := fun _ _ _ => True) (.modify fun l v v' _ hv =>
    ⟨l, le_rfl, hv.addRegistry, trivial⟩) fun _ _ _ _ _ => ?_
  refine .bind (changeNames_parallel fun _ _ n n' hn => ?_) fun _ _ _ _ _ => .pure fun _ _ => rfl
  exact { hn with registries := congrArg (Std.ExtTreeMap.insert · id _) hn.registries }

theorem register_parallel (id reaction : String) :
    Parallel G p (register id reaction) (register id reaction) Answer.Twin := by
  refine .bind (findRegistry_parallel id) fun q _ s _ hs => ?_
  cases hs
  refine .bind (findReaction_parallel reaction) fun l _ r _ hr => ?_
  cases hr
  refine .get fun k w w' _ hw => ?_
  have hsource : Source.Twin k (.registry s) (.registry s) := rfl
  have hsame : k.same (.reaction r) (.reaction r) := rfl
  have hstranger : ¬k.stranger (.reaction r) := fun h => h
  have hadd := (hw.registry hsource).add? hw.fits.oneToOne hstranger hsame
  generalize (w.registry (.registry s)).add? (.reaction r) = a at hadd ⊢
  generalize (w'.registry (.registry s)).add? (.reaction r) = b at hadd ⊢
  cases hadd with
  | none => exact .pure fun _ _ => rfl
  | some hab =>
    exact .bind (R := fun _ _ _ => True) (.modify fun i _ _ hi hv =>
      ⟨i, le_rfl, hv.setRegistry (hsource.mono hi) (hab.mono hi), trivial⟩) fun _ _ _ _ _ =>
        .pure fun _ _ => rfl

/-! The view. -/

theorem changeView_parallel (change : View → View) :
    Parallel G p (changeView change) (changeView change) fun _ _ _ => True := by
  refine .modify fun q w w' _ hw => ⟨q, le_rfl, ?_, trivial⟩
  rw [hw.view]
  exact hw.setView _

theorem plant_parallel (markup : Markup) :
    Parallel G p (plant markup) (plant markup) fun _ => Eq := by
  refine .get fun q w w' _ hw => ?_
  rw [hw.view]
  refine .bind (R := fun _ => Eq) (.modifyGet fun l v v' _ hv => ⟨l, le_rfl, ?_, ?_⟩)
    fun l _ n _ hn => ?_
  · rw [hv.view]
    exact hv.setView _
  · rw [hv.view]
  cases hn
  refine .bind (R := fun _ _ _ => True) (.modify fun k v v' _ hv => ⟨k, le_rfl, ?_, trivial⟩)
    fun _ _ _ _ _ => .pure fun _ _ => rfl
  rw [hv.view]
  exact hv.meet _

theorem create_parallel (markup : Markup) :
    Parallel G p (create markup) (create markup) Answer.Twin :=
  .bind (plant_parallel markup) fun _ _ _ _ hn => .pure fun _ _ =>
    congrArg (fun n => Answer.node (some n)) hn

theorem input_parallel (he : Engine.Twin G e e') (node : Nat) (text : String) :
    Parallel G p (input e node text) (input e' node text) Answer.Twin := by
  refine .bind (findNode_parallel node) fun q _ n _ hn => ?_
  cases hn
  exact .bind (.input he n text) fun _ _ _ _ _ => .pure fun _ _ => rfl

theorem dispatch_parallel (he : Engine.Twin G e e') (node : Nat) (kind : String) :
    Parallel G p (dispatch e node kind) (dispatch e' node kind) Answer.Twin := by
  refine .bind (findNode_parallel node) fun q _ n _ hn => ?_
  cases hn
  refine .get fun l w w' _ hw => ?_
  rw [hw.view]
  exact .bind (.dispatch he n _) fun _ _ _ _ _ => .pure fun _ _ => rfl

theorem event_parallel (he : Engine.Twin G e e') (node : Nat) (kind : String)
    (text : Option String) :
    Parallel G p (event e node kind text) (event e' node kind text) Answer.Twin := by
  refine .bind (findNode_parallel node) fun q _ n _ hn => ?_
  cases hn
  exact .bind (.dispatch he n _) fun _ _ _ _ _ => .pure fun _ _ => rfl

theorem report_parallel (node : Nat) :
    Parallel G p (report node) (report node) Answer.Twin := by
  refine .bind (findNode_parallel node) fun q _ n _ hn => ?_
  cases hn
  refine .get fun l w w' _ hw => .pure fun _ _ => ?_
  rw [hw.view]
  rfl

theorem nodeCount_parallel : Parallel G p nodeCount nodeCount Answer.Twin := by
  refine .get fun l w w' _ hw => .pure fun _ _ => ?_
  rw [hw.view]
  rfl

theorem query_parallel (selector : String) :
    Parallel G p (query selector) (query selector) Answer.Twin := by
  refine .get fun l w w' _ hw => .pure fun _ _ => ?_
  rw [hw.view]
  rfl

theorem setFace_parallel (face : Face) (node : Nat) (text : String) :
    Parallel G p (setFace face node text) (setFace face node text) Answer.Twin := by
  refine .bind (findNode_parallel node) fun q _ n _ hn => ?_
  cases hn
  exact .bind (changeView_parallel _) fun _ _ _ _ _ => .pure fun _ _ => rfl

theorem detach_parallel (node : Nat) :
    Parallel G p (detach node) (detach node) Answer.Twin := by
  refine .bind (findNode_parallel node) fun q _ n _ hn => ?_
  cases hn
  refine .get fun l w w' _ hw => ?_
  rw [hw.view]
  exact .bind (changeView_parallel _) fun _ _ _ _ _ => .pure fun _ _ => rfl

theorem append_parallel (node : Nat) (children : List Nat) :
    Parallel G p (append node children) (append node children) Answer.Twin := by
  refine .bind (findNode_parallel node) fun q _ n _ hn => ?_
  cases hn
  refine .bind (.mapM (fun _ _ _ _ _ => id) fun child _ => findNode_parallel child)
    fun l _ ns ns' hns => ?_
  obtain rfl : ns = ns' := List.forall₂_eq_eq_eq ▸ hns
  exact .bind (changeView_parallel _) fun _ _ _ _ _ => .pure fun _ _ => rfl

end Others

end Script

end ViewBinding
