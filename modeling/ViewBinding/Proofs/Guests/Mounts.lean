import ViewBinding.Proofs.Guests.Updates
import ViewBinding.Proofs.Run.Bindings

/-! Watchers that are made, view-models that are made and bound, and trees that are mounted, in two
runs. -/

namespace ViewBinding

variable {α : Type} {G : List String} {p q : Pairing} {w w' : World} {e e' : Engine}

structure Setup.Twin (G : List String) (p : Pairing) (setup setup' : Setup) : Prop where
  data : setup.data.Twin p setup'.data
  computed : setup.computed = setup'.computed
  fair : Step.EveryMethod (Step.Fair G) setup.methods
  methods : setup'.methods = Step.coreMethods G setup.methods

namespace Setup.Twin

variable {setup setup' : Setup}

theorem mono (hq : p ≤ q) (h : setup.Twin G p setup') : setup.Twin G q setup' :=
  { h with data := h.data.mono hq }

theorem methodTable (h : setup.Twin G p setup') (name : String) :
    setup'.methodTable[name]? = setup.methodTable[name]?.map (Step.coreAll G) := by
  have hf (methods : List (String × List Step)) (table table' : Keyed (List Step))
      (ht : table'[name]? = table[name]?.map (Step.coreAll G)) :
      ((Step.coreMethods G methods).foldl (fun table method => table.insert method.1 method.2)
          table')[name]? =
        (methods.foldl (fun table method => table.insert method.1 method.2) table)[name]?.map
          (Step.coreAll G) := by
    induction methods generalizing table table' with
    | nil => exact ht
    | cons method methods ih =>
      obtain ⟨key, steps⟩ := method
      refine ih _ _ ?_
      rw [Step.coreMethod, Std.ExtTreeMap.getElem?_insert, Std.ExtTreeMap.getElem?_insert]
      split
      · rfl
      · exact ht
  rw [Setup.methodTable, Setup.methodTable, h.methods]
  exact hf setup.methods ∅ ∅ (by simp)

theorem fair_methodTable (h : setup.Twin G p setup') (name : String) (steps : List Step)
    (hs : setup.methodTable[name]? = some steps) : Step.EveryAll (Step.Fair G) steps :=
  Setup.methodTable_forall ((Step.everyMethod_iff _).1 h.fair) name steps hs

end Setup.Twin

theorem World.Twin.define {data data' : Ref .object} (hd : p.pair data data') (m : Ref .model)
    (computed : List (String × Expr)) (h : w.Twin G p w') :
    (w.define data m computed).Twin G p (w'.define data' m computed) := by
  induction computed generalizing w w' with
  | nil => exact h
  | cons c computed ih =>
    have hslot : Slot.Twin p (.computed { name := c.1, body := c.2, model := m })
        (.computed { name := c.1, body := c.2, model := m }) := rfl
    exact ih (((h.tellLeft rfl).tellRight rfl).setSlot hd c.1 hslot)

theorem World.Twin.hasMethod (h : w.Twin G p w') {m : Ref .model} (hm : p.pair m m)
    (method : String) : ViewModel.hasMethod w m method = ViewModel.hasMethod w' m method := by
  rw [ViewModel.hasMethod, ViewModel.hasMethod, Bool.eq_iff_iff, decide_eq_true_iff,
    decide_eq_true_iff, Std.ExtTreeMap.mem_iff_isSome_getElem?,
    Std.ExtTreeMap.mem_iff_isSome_getElem?, (h.models m m hm).methods method, Option.isSome_map]

namespace Action

theorem Parallel.createModel {setup setup' : Setup} (hs : setup.Twin G p setup') :
    Parallel G p (ViewModel.create setup) (ViewModel.create setup') fun q m m' =>
      m = m' ∧ q.pair m m := by
  intro q w w' hq hw r v h
  have hsq := hs.mono hq
  have hobj := hsq.data.object?
  rw [ViewModel.create_apply] at h
  rw [ViewModel.create_apply, ← hsq.data.sort]
  generalize setup.data.object? = a at hobj h
  generalize setup'.data.object? = b at hobj ⊢
  cases hobj with
  | none =>
    cases h
    exact ⟨q, _, _, rfl, le_rfl, hw, rfl⟩
  | @some data data' hd =>
    cases h
    have hfresh : w.models.fresh = w'.models.fresh := congrArg Ref.mk hw.modelsSize
    have hj := q.le_join w.models.fresh w'.models.fresh
    have hdef := hw.define hd w.models.fresh setup.computed
    have hmodel : ViewModel.Twin G q { data, methods := setup.methodTable }
        { data := data', methods := setup'.methodTable } :=
      ⟨hd, hsq.fair_methodTable, hsq.methodTable, .nil⟩
    have hadd := hdef.addModel hmodel
    simp only [World.models_define] at hadd
    refine ⟨_, _, _, rfl, hj, ?_, hfresh, ?_⟩
    · rw [← hfresh, ← hs.computed]
      exact hfresh ▸ hadd
    · exact Pairing.pair_join.2 (.inr ⟨rfl, hfresh⟩)

section

variable (he : Engine.Twin G e e')

include he

theorem Parallel.createWatcher {m : Ref .model} (hm : p.pair m m) (path : String)
    {callback callback' : Callback} (hcb : callback.Twin G callback') :
    Parallel G p (Watcher.create e.compute m path callback)
      (Watcher.create e'.compute m path callback') fun q => q.pair := by
  refine .bind (R := fun _ => Eq) (.ofExcept fun _ _ => ?_) fun q hq f f' hf => ?_
  · cases Path.parse path <;> rfl
  cases hf
  refine .getAt fun l w w' hl hw => ?_
  have hj := l.le_join w.watchers.fresh w'.watchers.fresh
  have hr : (l.join w.watchers.fresh w'.watchers.fresh).pair w.watchers.fresh w'.watchers.fresh :=
    Pairing.pair_join.2 (.inr ⟨rfl, rfl⟩)
  have hwatcher : Watcher.Twin G l { model := m, path := f, callback }
      { model := m, path := f, callback := callback' } :=
    ⟨rfl, (hq.trans hl).pair hm, rfl, hcb, .null⟩
  have hadd := hw.addWatcher hwatcher
  refine .modify hj (Parallel.atWorld ?_ hadd)
  refine .bind (.evaluateWatcher he hr) fun k hk v v' hv => ?_
  refine .bind (R := fun _ _ _ => True) (.modify fun i _ _ hi hu =>
    ⟨i, le_rfl, hu.setWatcher ((hk.trans hi).pair hr) (hv.mono hi), trivial⟩) fun i hi _ _ _ => ?_
  exact .bind (.tell .none) fun j hj _ _ _ =>
    .pure fun _ hx => (hk.trans (hi.trans (hj.trans hx))).pair hr

theorem Parallel.watch {m : Ref .model} (hm : p.pair m m) (path : String)
    {callback callback' : Callback} (hcb : callback.Twin G callback') :
    Parallel G p (ViewModel.watch e.compute m path callback)
      (ViewModel.watch e'.compute m path callback') fun q => q.pair :=
  .bind (.createWatcher he hm path hcb) fun _ hq _ _ hr =>
    .bind (R := fun _ _ _ => True) (.modify fun l _ _ hl hw =>
      ⟨l, le_rfl, hw.own ((hq.trans hl).pair hm) (hl.pair hr), trivial⟩) fun _ hl _ _ _ =>
        .pure fun _ hk => (hl.trans hk).pair hr

theorem Aside.createGuest (m : Ref .model) (path : String) {id : String} (hid : id ∈ G)
    {steps : List Step} (hs : Step.AllVerdict steps) {f : Ref .watcher → Action α}
    (hf : ∀ q, p ≤ q → ∀ r, q.guest r → Aside G q (f r)) :
    Aside G p (Watcher.create e.compute m path (.run id steps) >>= f) := by
  rw [Watcher.create]
  simp only [bind_assoc]
  refine .bind (.ofExcept _) fun q hq g => ?_
  intro l w w' hl hw r v h
  have hadd := hw.addGuest (r := { model := m, path := g, callback := .run id steps })
    ⟨id, hid, steps, hs, rfl⟩
  have hj := l.le_invite w.watchers.fresh
  have hr : (l.invite w.watchers.fresh).guest w.watchers.fresh := .inr rfl
  have hrest : Aside G (l.invite w.watchers.fresh) (do
      let value ← Watcher.evaluate e.compute w.watchers.fresh
      Watcher.setValue w.watchers.fresh value
      Action.tell (.made w.watchers.fresh value)
      f w.watchers.fresh) := by
    refine .bind ?_ fun k hk value => .bind (.modify fun i _ _ hi hu =>
      ⟨i, le_rfl, hu.setGuest ((hk.trans hi).guest hr) value⟩) fun i hi _ => ?_
    · exact .get fun _ _ _ hk _ => .get fun _ _ _ hk' _ => Reading.Aside.track
        (.follow he.aside _ _ _) ((hk.trans hk').guest hr)
    · exact .bind (.tell rfl) fun x hx _ => hf x
        (hq.trans (hl.trans (hj.trans (hk.trans (hi.trans hx))))) _
        ((hk.trans (hi.trans hx)).guest hr)
  obtain ⟨k, hk, hv⟩ := hrest _ _ w' le_rfl hadd r v h
  exact ⟨k, hj.trans hk, hv⟩

/-! Binding. -/

theorem Parallel.bindFace (face : Face) (n : Ref .node) {m : Ref .model} (hm : p.pair m m)
    (path : String) :
    Parallel G p (face.bind e.compute n m path) (face.bind e'.compute n m path)
      fun _ _ _ => True := by
  refine .bind (.watch he hm path (.write face n)) fun q hq r r' hr => .get fun l w w' hl hw => ?_
  rw [(hw.watchers r r' (hl.pair hr)).value.text]
  exact .writeFace face m n _

omit he in
theorem Parallel.attach (l : Listener) (n : Ref .node) :
    Parallel G p (l.attach n) (l.attach n) fun _ _ _ => True :=
  .bind (.emit rfl) fun _ _ _ _ _ => .modify fun q _ _ _ hw =>
    ⟨q, le_rfl, hw.view ▸ hw.setView _, trivial⟩

theorem Parallel.bindDirective (u : Directive.Use) (value : String) (n : Ref .node)
    {m : Ref .model} (hm : p.pair m m) :
    Parallel G p (Directive.bind e.compute u value n m) (Directive.bind e'.compute u value n m)
      fun _ _ _ => True := by
  rw [Directive.bind, Directive.bind]
  cases u.directive with
  | model => exact .bind (.bindFace he .value n hm value) fun _ _ _ _ _ => .attach _ n
  | html => exact .bindFace he .html n hm value
  | text => exact .bindFace he .text n hm value
  | on =>
    refine .bind (R := fun _ => Eq) (.require _ fun _ _ => ?_) fun q hq event event' hevent => ?_
    · cases u.argument with
      | none => exact .none
      | some event => exact .some rfl
    cases hevent
    refine .get fun l w w' hl hw => ?_
    rw [hw.hasMethod ((hq.trans hl).pair hm) value]
    have hattach : Parallel G l (Listener.attach { event, response := .call m value } n)
        (Listener.attach { event, response := .call m value } n) fun _ _ _ => True := .attach _ n
    exact .ite Iff.rfl (fun _ => hattach) fun _ =>
      .bind (R := fun _ _ _ => True) (.throw _) fun _ hk _ _ _ => hattach.mono hk

theorem Parallel.bindTemplate (t : Template) (n : Ref .node) {m : Ref .model} (hm : p.pair m m) :
    Parallel G p (t.bind e.compute n m) (t.bind e'.compute n m) fun _ _ _ => True := by
  refine .bind (.forM fun path _ => .bind (.watch he hm path (.render n t)) fun _ _ _ _ _ =>
    .pure fun _ _ => trivial) fun q hq _ _ _ => ?_
  refine .bind (.template he t (hq.pair hm)) fun _ _ text _ ht => ?_
  cases ht
  exact .writeFace .text m n text

theorem Parallel.bindAttrs (s : Settings) (n : Ref .node) {m : Ref .model} (hm : p.pair m m) :
    Parallel G p (s.bindAttrs e.compute n m) (s.bindAttrs e'.compute n m) fun _ _ _ => True := by
  refine .get fun q w w' hq hw => ?_
  rw [hw.view]
  refine .forM fun attr _ => .bind (R := fun _ => Eq) (.ofExcept fun _ _ => ?_)
    fun l hl u u' hu => ?_
  · cases Directive.parse s.marker attr.1 <;> rfl
  cases hu
  cases u with
  | none => exact .pure fun _ _ => trivial
  | some u => exact .bindDirective he u _ n ((hq.trans hl).pair hm)

theorem Parallel.bindText (s : Settings) (n : Ref .node) {m : Ref .model} (hm : p.pair m m) :
    Parallel G p (s.bindText e.compute n m) (s.bindText e'.compute n m) fun _ _ _ => True := by
  refine .get fun q w w' hq hw => ?_
  rw [hw.view]
  cases Template.parse s.delimiters (w'.view.text n) with
  | none => exact .pure fun _ _ => trivial
  | some t => exact .bindTemplate he t n (hq.pair hm)

theorem Parallel.bindNodes (s : Settings) {m : Ref .model} (hm : p.pair m m) (depth : Nat)
    (ns : List (Ref .node)) :
    Parallel G p (s.bindNodes e.compute m depth ns) (s.bindNodes e'.compute m depth ns)
      fun _ _ _ => True := by
  induction depth generalizing p ns with
  | zero => exact .ite Iff.rfl (fun _ => .pure fun _ _ => trivial) fun _ => .unfinished
  | succ depth ih =>
    refine .forM fun n _ => .get fun q w w' hq hw => ?_
    rw [hw.view]
    cases (w'.view.node n).sort with
    | element =>
      refine .bind (.bindAttrs he s n (hq.pair hm)) fun l hl _ _ _ => .get fun k v v' hk hv => ?_
      rw [hv.view]
      exact ih ((hq.trans (hl.trans hk)).pair hm) _
    | text => exact .bindText he s n (hq.pair hm)
    | other => exact .pure fun _ _ => trivial

theorem Parallel.compile (s : Settings) {m : Ref .model} (hm : p.pair m m) (root : Ref .node) :
    Parallel G p (s.compile e.compute m root) (s.compile e'.compute m root)
      fun _ _ _ => True := by
  refine .bind (R := fun _ => Eq) (.modifyGet fun q w w' _ hw => ?_) fun q hq children _ hch => ?_
  · refine ⟨q, le_rfl, ?_, ?_⟩
    · exact hw.view ▸ hw.setView _
    · rw [hw.view]
  cases hch
  refine .bind (.emit rfl) fun l hl _ _ _ => .get fun k w w' hk hw => ?_
  have hmk := (hq.trans (hl.trans hk)).pair hm
  rw [hw.view]
  refine .bind (Parallel.bindNodes he s hmk _ children).faultOf fun i _ fault _ hf => ?_
  cases hf
  refine .bind (.emit rfl) fun _ _ _ _ _ => .bind (R := fun _ _ _ => True)
    (.modify fun j _ _ _ hu => ⟨j, le_rfl, ?_, trivial⟩) fun _ _ _ _ _ => ?_
  · rw [hu.view]
    exact hu.setView _
  · cases fault with
    | none => exact .pure fun _ _ => trivial
    | some f => exact .throw f

theorem Parallel.mount (point : MountPoint) {setup setup' : Setup} (hs : setup.Twin G p setup')
    (s : Settings) {keep : Ref .model → Action Unit}
    (hk : ∀ q, p ≤ q → ∀ m, q.pair m m → Parallel G q (keep m) (keep m) fun _ _ _ => True) :
    Parallel G p (ViewModel.mount e.compute point setup s keep)
      (ViewModel.mount e'.compute point setup' s keep) fun q m m' => m = m' ∧ q.pair m m := by
  have hn (n : Ref .node) : Parallel G p (do
      let m ← ViewModel.create setup
      Action.usingModel m do
        s.compile e.compute m n
        keep m
      return m) (do
      let m ← ViewModel.create setup'
      Action.usingModel m do
        s.compile e'.compute m n
        keep m
      return m) fun q m m' => m = m' ∧ q.pair m m := by
    refine .bind (.createModel hs) ?_
    rintro q hq m _ ⟨rfl, hm⟩
    refine .bind (.usingModel hm (.bind (.compile he s hm n) fun l hl _ _ _ =>
      hk l (hq.trans hl) m (hl.pair hm))) fun l hl _ _ _ => ?_
    exact .pure fun _ hi => ⟨rfl, (hl.trans hi).pair hm⟩
  cases point with
  | node n => exact hn n
  | selector text =>
    refine .get fun q w w' hq hw => ?_
    rw [hw.view]
    refine .bind (R := fun _ => Eq) (.require _ fun _ _ => ?_) fun l hl n n' h => ?_
    · cases w'.view.query text with
      | none => exact .none
      | some n => exact .some rfl
    · cases h
      exact (hn n).mono (hq.trans hl)

end

end Action

end ViewBinding
