import ViewBinding.Proofs.Guests.Steps

/-! Scripts go parallel to what is left of them without guests. -/

namespace ViewBinding

open ViewBinding.Action

variable {α β γ δ : Type} {G : List String} {p q : Pairing} {e e' : Engine} {f f' : Frame}

namespace Action

def Succeeds (x : Action α) : Prop := ∀ w f w', x w ≠ some (.error f, w')

theorem sure_succeeds (x : Action α) : x.sure.Succeeds := by
  intro w f w' h
  exact absurd (Option.filter_eq_some_iff.1 h).2 Bool.false_ne_true

section

variable {x : Action α} {x' : Action β} {R : Pairing → α → β → Prop} {S : Pairing → γ → δ → Prop}

theorem Aside.unfinished : Aside G p (Action.unfinished : Action α) :=
  fun _ _ _ _ _ _ _ h => nomatch h

theorem Aside.sure (hx : Aside G p x) : Aside G p x.sure := fun q w w' hq hw r v h =>
  hx q w w' hq hw r v (sure_below x w _ h)

theorem Parallel.afterAside {f : α → Action γ} {y : Action δ} (hx : Aside G p x) (hs : x.Succeeds)
    (hf : ∀ q, p ≤ q → ∀ a, Parallel G q (f a) y S) : Parallel G p (x >>= f) y S := by
  intro q w w' hq hw r v h
  obtain ⟨g, hg, rfl⟩ | ⟨a, w₁, ha, h⟩ := bind_eq_some h
  · exact absurd hg (hs _ _ _)
  · obtain ⟨l, hl, hw₁⟩ := hx q w w' hq hw _ _ ha
    obtain ⟨k, r', v', h', hk, hv, hr⟩ := hf l (hq.trans hl) a l w₁ w' le_rfl hw₁ r v h
    exact ⟨k, r', v', h', hl.trans hk, hv, hr⟩

theorem Beside.afterAside {f : α → Action γ} {y : Action δ} (hx : Aside G p x) (hs : x.Succeeds)
    (hf : ∀ q, p ≤ q → ∀ a, Beside G q (f a) y) : Beside G p (x >>= f) y := by
  intro q w w' hq hw r v h
  obtain ⟨g, hg, rfl⟩ | ⟨a, w₁, ha, h⟩ := bind_eq_some h
  · exact absurd hg (hs _ _ _)
  · obtain ⟨l, hl, hw₁⟩ := hx q w w' hq hw _ _ ha
    obtain ⟨k, r', v', h', hk, hv⟩ := hf l (hq.trans hl) a l w₁ w' le_rfl hw₁ r v h
    exact ⟨k, r', v', h', hl.trans hk, hv⟩

theorem Beside.thenAside {f : α → Action γ} (hx : Beside G p x x')
    (hf : ∀ q, p ≤ q → ∀ a, Aside G q (f a)) : Beside G p (x >>= f) x' := by
  intro q w w' hq hw r v h
  obtain ⟨g, hg, rfl⟩ | ⟨a, w₁, ha, h⟩ := bind_eq_some h
  · exact hx q w w' hq hw _ _ hg
  · obtain ⟨l, r', v', h', hl, hw₁⟩ := hx q w w' hq hw _ _ ha
    obtain ⟨k, hk, hv⟩ := hf l (hq.trans hl) a l w₁ v' le_rfl hw₁ r v h
    exact ⟨k, r', v', h', hl.trans hk, hv⟩

theorem Beside.mapRight (hx : Beside G p x x') (g : β → δ) :
    Beside G p x (x' >>= fun b => Pure.pure (g b)) := by
  intro q w w' hq hw r v h
  obtain ⟨l, r', v', h', hl, hv⟩ := hx q w w' hq hw r v h
  cases r' with
  | error f => exact ⟨l, .error f, v', by rw [bind_apply, h'], hl, hv⟩
  | ok b => exact ⟨l, .ok (g b), v', by rw [bind_apply, h']; rfl, hl, hv⟩

theorem Beside.aside {b : β} (hx : Beside G p x (Pure.pure b : Action β)) : Aside G p x := by
  intro q w w' hq hw r v h
  obtain ⟨l, r', v', h', hl, hv⟩ := hx q w w' hq hw r v h
  cases h'
  exact ⟨l, hl, hv⟩

end

end Action

mutual

theorem Step.verdict_aside (he : Engine.Twin G e e') (f : Frame) {s : Step} (hs : s.Verdict)
    {p : Pairing} : Aside G p (s.receive G e f) := by
  cases s with
  | fail message => exact .throw _
  | cond test yes no =>
    refine .bind (Reading.Aside.expr he.aside f test).once fun _ _ v => ?_
    exact .ite (.bind (Step.allVerdict_aside he f hs.1) fun _ _ _ => .pure _)
      (.bind (Step.allVerdict_aside he f hs.2) fun _ _ _ => .pure _)
  | _ => exact False.elim hs
termination_by structural s

theorem Step.allVerdict_aside (he : Engine.Twin G e e') (f : Frame) {ss : List Step}
    (hs : Step.AllVerdict ss) {p : Pairing} : Aside G p (Step.receiveAll G e f ss) := by
  cases ss with
  | nil => exact .pure _
  | cons s rest =>
    exact .bind (Step.verdict_aside he f hs.1) fun _ _ _ => Step.allVerdict_aside he f hs.2
termination_by structural ss

end

section

variable (he : Engine.Twin G e e')

include he

omit he in
theorem Script.withModel_aside {x : Ref .model → Action α} (hf : f.Twin p f')
    (name : Option String) (hx : ∀ q, p ≤ q → ∀ m, q.pair m m → Aside G q (x m)) :
    Aside G p (withModel f name x) := by
  refine .get fun q w w' hq hw => ?_
  have hm := (hf.mono hq).findModel (World.Twin.sameData hw) name
  cases hfound : f.findModel w name with
  | error g => exact Aside.throw g
  | ok m =>
    rw [hfound] at hm
    cases hfound' : f'.findModel w' name with
    | error g => exact absurd hm (by rw [hfound']; exact id)
    | ok m' =>
      rw [hfound'] at hm
      exact .usingModel hm.2 (hx q hq m hm.2)

theorem Script.watch_aside (hf : f.Twin p f') (name : Option String) {id : String} (path : String)
    {steps : List Step} (hid : id ∈ G) (hs : Step.AllVerdict steps) :
    Aside G p (Script.watch e f name id path steps) := by
  refine withModel_aside hf name fun q _ m hm => ?_
  rw [ViewModel.watch]
  simp only [bind_assoc, pure_bind]
  refine .createGuest he m path hid hs fun l hl r hr => ?_
  refine .bind (.modify fun k _ _ hk hw => ⟨k, le_rfl, hw.ownGuest m (hk.guest hr)⟩)
    fun _ _ _ => ?_
  exact .get fun _ _ _ _ _ => .pure _

theorem Script.watcher_aside (hf : f.Twin p f') (name : Option String) {id : String}
    (path : String) {steps : List Step} (hid : id ∈ G) (hs : Step.AllVerdict steps) :
    Aside G p (Script.watcher e f name id path steps) := by
  refine withModel_aside hf name fun q _ m hm => ?_
  refine .createGuest he m path hid hs fun l hl r hr => ?_
  refine .bind (.modify fun k _ _ hk hw => ⟨k, le_rfl, hw.setNamesLeft ?_⟩) fun _ _ _ => ?_
  · exact hw.names.bindGuest hid (hk.guest hr)
  · exact .get fun _ _ _ _ _ => .pure _

omit he in
theorem Script.dropWatcher_aside {id : String} (hid : id ∈ G) :
    Aside G p (Script.dropWatcher id) :=
  .get fun _ _ _ _ _ => .bind (.modify fun q _ _ _ hw =>
    ⟨q, le_rfl, hw.setNamesLeft (hw.names.dropGuest hid)⟩) fun _ _ _ => .pure _

omit he in
theorem Script.dropWatcher_succeeds (id : String) : (Script.dropWatcher id).Succeeds := by
  intro w g w' h
  cases h

/-- Guests come and go in the first run alone. -/
theorem Step.guest_aside (hf : f.Twin p f') {s : Step} (hs : s.Every (Step.Fair G))
    (hg : s.isGuest G = true) :
    Aside G p (s.receive G e f) ∧ (s.receive G e f).Succeeds := by
  cases s with
  | watch name id path steps =>
    have hid : id ∈ G := of_decide_eq_true hg
    have hr : (Step.watch name id path steps).receive G e f =
        (Script.watch e f name id path steps).sure := if_pos hg
    rw [hr]
    exact ⟨(Script.watch_aside he hf name path hid (hs.1 hid)).sure, sure_succeeds _⟩
  | watcher name id path steps =>
    have hid : id ∈ G := of_decide_eq_true hg
    have hr : (Step.watcher name id path steps).receive G e f =
        (Script.watcher e f name id path steps).sure := if_pos hg
    rw [hr]
    exact ⟨(Script.watcher_aside he hf name path hid (hs.1 hid)).sure, sure_succeeds _⟩
  | dropWatcher id =>
    exact ⟨Script.dropWatcher_aside (of_decide_eq_true hg), Script.dropWatcher_succeeds id⟩
  | _ => exact absurd hg Bool.false_ne_true

mutual

/-- A step that no guest comes with or leaves by goes parallel to what is left of it. -/
theorem Step.receive_parallel {p : Pairing} (hf : f.Twin p f') {s : Step}
    (hs : s.Every (Step.Fair G)) (hg : s.isGuest G = false) :
    Parallel G p (s.receive G e f) ((s.core G).run e' f') Answer.Twin := by
  cases s with
  | build name data computed methods => exact Script.build_parallel he hf name data computed hs.2
  | mount name target data computed methods settings =>
    exact Script.mount_parallel he hf name target data computed settings hs.2
  | compile name node settings => exact Script.compile_parallel he hf name node settings
  | dropModel name => exact Script.dropModel_parallel name
  | alive name => exact Script.alive_parallel name
  | read name path => exact Script.read_parallel he hf name path
  | write name path value => exact Script.write_parallel he hf name path value
  | call name method kind value => exact Script.call_parallel he hf name method kind value
  | hasMethod name method => exact Script.hasMethod_parallel hf name method
  | snapshot name => exact Script.snapshot_parallel hf name
  | showModel name => exact Script.showModel_parallel hf name
  | render name text delimiters => exact Script.render_parallel he hf name text delimiters
  | watch name id path steps =>
    -- This watcher is no guest, so it is made in both runs.
    have hid : id ∉ G := of_decide_eq_false hg
    have hr : (Step.watch name id path steps).receive G e f =
        Script.watch e f name id path steps := if_neg (by rw [admits]; simpa using hid)
    rw [hr]
    exact Script.watch_parallel he hf name id path hid hs.2
  | watcher name id path steps =>
    have hid : id ∉ G := of_decide_eq_false hg
    have hr : (Step.watcher name id path steps).receive G e f =
        Script.watcher e f name id path steps := if_neg (by rw [admits]; simpa using hid)
    rw [hr]
    exact Script.watcher_parallel he hf name id path hid hs.2
  | watcherValue id => exact Script.watcherValue_parallel hs
  | watcherPath id => exact Script.watcherPath_parallel hs
  | showWatcher id => exact Script.showWatcher_parallel hs
  | dropWatcher id => exact Script.dropWatcher_parallel (of_decide_eq_false hg)
  | save name value => exact Script.save_parallel he hf name value
  | eval value =>
    exact .bind (Script.value_parallel he hf value) fun _ _ _ _ hv => .pure fun _ hl => hv.mono hl
  | exported value => exact Script.exported_parallel he hf value
  | showValue value => exact Script.showValue_parallel he hf value
  | property place key => exact Script.property_parallel he hf place key
  | setProperty place key value => exact Script.setProperty_parallel he hf place key value
  | keys place => exact Script.keys_parallel he hf place
  | hasProperty place key => exact Script.hasProperty_parallel he hf place key
  | assign place path value => exact Script.assign_parallel he hf place path value
  | cell id value => exact Script.cell_parallel he hf id value
  | cellOf id place key => exact Script.cellOf_parallel he hf id place key
  | cellValue id => exact Script.cellValue_parallel id
  | showCell id => exact Script.showCell_parallel id
  | setCell id value => exact Script.setCell_parallel he hf id value
  | react id steps => exact Script.react_parallel id hs.2
  | dropReaction id => exact Script.dropReaction_parallel id
  | track name reaction paths => exact Script.track_parallel he hf name reaction paths
  | trackCell reaction id => exact Script.trackCell_parallel reaction id
  | registry id => exact Script.makeRegistry_parallel id
  | register id reaction => exact Script.register_parallel id reaction
  | create markup => exact Script.create_parallel markup
  | input node text => exact Script.input_parallel he node text
  | dispatch node kind => exact Script.dispatch_parallel he node kind
  | event node kind value => exact Script.event_parallel he node kind value
  | node node => exact Script.report_parallel node
  | nodeCount => exact Script.nodeCount_parallel
  | query selector => exact Script.query_parallel selector
  | setText node text => exact Script.setFace_parallel .text node text
  | setValue node text => exact Script.setFace_parallel .value node text
  | detach node => exact Script.detach_parallel node
  | append node children => exact Script.append_parallel node children
  | log value =>
    refine .bind (Script.value_parallel he hf value) fun q _ _ _ hv => ?_
    exact .bind (.emit hv) fun _ _ _ _ _ => .pure fun _ _ => rfl
  | fail message => exact .throw _
  | cond test yes no =>
    refine .bind (Script.value_parallel he hf test) fun q hq v v' hv => ?_
    refine .ite (by rw [hv.isTrue]) (fun _ => ?_) fun _ => ?_
    · exact .bind (Step.receiveAll_parallel (hf.mono hq) hs.2.1) fun _ _ _ _ _ =>
        .pure fun _ _ => rfl
    · exact .bind (Step.receiveAll_parallel (hf.mono hq) hs.2.2) fun _ _ _ _ _ =>
        .pure fun _ _ => rfl
  | attempt steps =>
    refine .bind (Step.receiveAll_parallel hf hs.2).faultOf fun q _ fault _ hfault => ?_
    cases hfault
    cases fault with
    | none => exact .pure fun _ _ => rfl
    | some g => exact .bind (.emit rfl) fun _ _ _ _ _ => .pure fun _ _ => rfl
  | loop times steps =>
    exact .bind (.times (Step.receiveAll_parallel hf hs.2) times) fun _ _ _ _ _ =>
      .pure fun _ _ => rfl
  | watcherUpdate | notify | watcherCount | cellSubscribers | registrySize => exact False.elim hs
termination_by structural s

theorem Step.receiveAll_parallel {p : Pairing} (hf : f.Twin p f') {ss : List Step}
    (hs : Step.EveryAll (Step.Fair G) ss) :
    Parallel G p (Step.receiveAll G e f ss) (Step.runAll e' f' (Step.coreAll G ss))
      fun _ _ _ => True := by
  cases ss with
  | nil => exact .pure fun _ _ => trivial
  | cons s rest =>
    rw [Step.coreAll]
    cases hg : s.isGuest G with
    | true =>
      have hguest := Step.guest_aside he hf hs.1 hg
      exact .afterAside hguest.1 hguest.2 fun _ hq _ => Step.receiveAll_parallel (hf.mono hq) hs.2
    | false =>
      exact .bind (Step.receive_parallel hf hs.1 hg) fun _ hq _ _ _ =>
        Step.receiveAll_parallel (hf.mono hq) hs.2
termination_by structural ss

end

mutual

theorem Step.last_beside {p : Pairing} (hf : f.Twin p f') {s : Step}
    (hs : s.Every (Step.Fair G)) (hg : s.isGuest G = false) :
    Beside G p (s.receive G e f) (Step.runAll e' f' (s.coreLast G)) := by
  have hlast (h : s.coreLast G = [s.core G]) :
      Beside G p (s.receive G e f) (Step.runAll e' f' (s.coreLast G)) := by
    rw [h]
    exact (Step.receive_parallel he hf hs hg).beside.mapRight fun _ => ()
  cases s with
  | fail message => exact (Aside.throw _).beside _
  | cond test yes no =>
    have hyes {q : Pairing} (hq : p ≤ q) := Step.callback_beside (hf.mono hq) hs.2.1
    have hno {q : Pairing} (hq : p ≤ q) := Step.callback_beside (hf.mono hq) hs.2.2
    rw [coreLast]
    generalize Step.coreCallback G yes = yes' at hyes ⊢
    generalize Step.coreCallback G no = no' at hno ⊢
    have hend {q : Pairing} {x x' : Action Unit} (hx : Beside G q x x') :
        Beside G q (x >>= fun _ => pure Answer.nothing) (x' >>= fun _ => pure Answer.nothing) :=
      (hx.mapRight fun _ => Answer.nothing).thenAside fun _ _ _ => .pure _
    have hchoice : Beside G p ((Step.cond test yes no).receive G e f)
        (Step.runAll e' f' [.cond test yes' no']) := by
      refine Beside.mapRight (.bind (Script.value_parallel he hf test) fun q hq v v' hv => ?_)
        fun _ => ()
      exact .ite (by rw [hv.isTrue]) (hend (hyes hq)) (hend (hno hq))
    cases yes' with
    | cons s yes' => exact hchoice
    | nil =>
      cases no' with
      | cons s no' => exact hchoice
      | nil =>
        refine Aside.beside (.bind (Reading.Aside.expr he.aside f test).once fun q hq v => ?_) ()
        exact .ite (.bind (hyes hq).aside fun _ _ _ => .pure _)
          (.bind (hno hq).aside fun _ _ _ => .pure _)
  | _ => exact hlast rfl
termination_by structural s

theorem Step.callback_beside {p : Pairing} (hf : f.Twin p f') {ss : List Step}
    (hs : Step.EveryAll (Step.Fair G) ss) :
    Beside G p (Step.receiveAll G e f ss) (Step.runAll e' f' (Step.coreCallback G ss)) := by
  cases ss with
  | nil => exact (Parallel.pure (R := fun _ _ _ => True) fun _ _ => trivial).beside
  | cons s rest =>
    have hrest {q : Pairing} (hq : p ≤ q) := Step.callback_beside (hf.mono hq) hs.2
    rw [Step.coreCallback_cons]
    cases hg : s.isGuest G with
    | true =>
      have hguest := Step.guest_aside he hf hs.1 hg
      exact .afterAside hguest.1 hguest.2 fun _ hq _ => hrest hq
    | false =>
      generalize Step.coreCallback G rest = rest' at hrest ⊢
      cases rest' with
      | nil => exact (Step.last_beside hf hs.1 hg).thenAside fun _ hq _ => (hrest hq).aside
      | cons s' rest' =>
        exact .bind (Step.receive_parallel he hf hs.1 hg) fun _ hq _ _ _ => hrest hq
termination_by structural ss

end

end

theorem Engine.admitting_compute (n : Nat) : (admitting G n).compute = (ofFuel n).compute := by
  cases n with
  | zero => rw [admitting]
  | succ n => rw [admitting]

/-- In a run in which no guest is turned away scripts go parallel to what is left of them. -/
theorem Engine.admitting_twin (n : Nat) : Engine.Twin G (admitting G n) (ofFuel n) := by
  have hc (n : Nat) (p : Pairing) : Reading.ComputesParallel (.guests G) p (admitting G n).compute
      (ofFuel n).compute := by
    rw [admitting_compute]
    exact .ofFuel _ p n
  have ha (n : Nat) (c : Computed) : Reading.Aside G ((admitting G n).compute c) := by
    rw [admitting_compute]
    exact .compute n c
  induction n with
  | zero =>
    exact ⟨hc 0, ha 0, fun _ _ _ _ _ _ => .unfinished, fun _ _ _ _ _ _ =>
      Parallel.beside (R := fun _ _ _ => True) .unfinished, fun _ _ _ _ => .unfinished⟩
  | succ n ih =>
    have hcall : (admitting G (n + 1)).call =
        fun f steps => Step.receiveAll G (admitting G n) f steps := by rw [admitting]
    have hcall' : (ofFuel (n + 1)).call = fun f steps => Step.runAll (ofFuel n) f steps := by
      rw [ofFuel]
    refine ⟨hc (n + 1), ha (n + 1), fun _ _ _ _ hf hs => ?_, fun _ _ _ _ hf hs => ?_,
      fun _ f _ hs => ?_⟩
    · rw [hcall, hcall']
      exact Step.receiveAll_parallel ih hf hs
    · rw [hcall, hcall']
      exact Step.callback_beside ih hf hs
    · rw [hcall]
      exact Step.allVerdict_aside ih f hs

end ViewBinding
