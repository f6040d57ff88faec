import ViewBinding.Proofs.Guests.Exprs
import ViewBinding.Proofs.Run.Watchers

/-! Updates and writes in two runs. Whether a callback fails makes no difference to anyone else, nor
does a guest that is updated on the way. -/

namespace ViewBinding

variable {G : List String} {p q : Pairing} {w w' : World} {e e' : Engine}

/-- Whether the scripts that two engines run go parallel, where the second engine is given what is
left without guests. -/
structure Engine.Twin (G : List String) (e e' : Engine) : Prop where
  compute : ∀ p, Reading.ComputesParallel (.guests G) p e.compute e'.compute
  aside : ∀ c, Reading.Aside G (e.compute c)
  call : ∀ p f f' steps, f.Twin p f' → Step.EveryAll (Step.Fair G) steps →
    Action.Parallel G p (e.call f steps) (e'.call f' (Step.coreAll G steps)) fun _ _ _ => True
  callback : ∀ p f f' steps, f.Twin p f' → Step.EveryAll (Step.Fair G) steps →
    Action.Beside G p (e.call f steps) (e'.call f' (Step.coreCallback G steps))
  verdict : ∀ p f steps, Step.AllVerdict steps → Action.Aside G p (e.call f steps)

theorem Callback.Twin.called {callback callback' : Callback}
    (h : callback.Twin G callback') {change change' : Change} (hc : change.Twin p change')
    (r r' : Ref .watcher) :
    Happening.Twin p (.called r callback change) (.called r' callback' change') := by
  cases h with
  | run => exact .some ⟨rfl, hc.new, hc.old⟩
  | _ => exact .none

namespace Action

/-! Writing the view. -/

theorem Parallel.writeFace (face : Face) (m : Ref .model) (n : Ref .node) (text : String) :
    Parallel G p (face.write m n text) (face.write m n text) fun _ _ _ => True :=
  .bind (.tell (.some rfl)) fun _ _ _ _ _ => .modify fun q _ _ _ hw =>
    ⟨q, le_rfl, hw.view ▸ hw.setView _, trivial⟩

theorem Parallel.check (m : Ref .model) :
    Parallel G p (ViewModel.check m) (ViewModel.check m) fun q _ _ => q.pair m m := by
  intro q w w' hq hw r v h
  rw [ViewModel.check_apply] at h
  cases h
  refine ⟨q, _, w', ViewModel.check_apply m w', le_rfl, hw, ?_⟩
  rw [← hw.modelAlive m]
  split
  · exact hw.pair_of_modelAlive ‹_›
  · exact rfl

theorem Aside.check {α : Type} {m : Ref .model} {f : Unit → Action α}
    (hf : ∀ q, p ≤ q → q.pair m m → Aside G q (f ())) :
    Aside G p (ViewModel.check m >>= f) := by
  intro q w w' hq hw r v h
  rw [bind_apply, ViewModel.check_apply] at h
  cases hm : w.modelAlive m with
  | false =>
    rw [hm] at h
    cases h
    exact ⟨q, le_rfl, hw⟩
  | true =>
    rw [hm] at h
    exact hf q hq (hw.pair_of_modelAlive hm) q w w' le_rfl hw r v h

section

variable (he : Engine.Twin G e e')

include he

theorem Parallel.template (t : Template) {m : Ref .model} (hm : p.pair m m) :
    Parallel G p (t.render e.compute m) (t.render e'.compute m) fun _ => Eq := by
  refine .bind (R := fun _ => List.Forall₂ Eq) (.mapM (fun _ _ _ _ _ => id) fun segment _ => ?_)
    fun _ _ texts texts' ht => ?_
  · cases segment with
    | literal text => exact .pure fun _ _ => rfl
    | path path =>
      refine .bind ((Reading.Parallel.model (he.compute p) hm path).once fun _ _ hl _ _ =>
        Value.Twin.mono hl) fun _ _ _ _ hv => ?_
      exact .pure fun _ _ => hv.text
  · obtain rfl : texts = texts' := List.forall₂_eq_eq_eq ▸ ht
    exact .pure fun _ _ => rfl

/-! Updating a watcher. -/

theorem Parallel.evaluateWatcher {r r' : Ref .watcher} (hr : p.pair r r') :
    Parallel G p (Watcher.evaluate e.compute r) (Watcher.evaluate e'.compute r') Value.Twin := by
  refine .get fun q w w' hq hw => .get fun l v v' hl hv => ?_
  have hwr := hw.watchers r r' (hq.pair hr)
  rw [← hwr.path, ← hwr.model]
  have hread := Reading.Parallel.follow (he.compute l) (w.watchers.get r).path
    (w.watchers.get r).path.segments (.object (hv.models _ _ (hl.pair hwr.made)).data)
  have hsame : l.same (.watcher r) (.watcher r') := (hq.trans hl).pair hr
  exact hread.track (fun _ _ hk _ _ => Value.Twin.mono hk) hsame

theorem Beside.perform {m : Ref .model} (hm : p.pair m m) {change change' : Change}
    (hc : change.Twin p change') {callback callback' : Callback}
    (hcb : callback.Twin G callback') (r r' : Ref .watcher) :
    Beside G p (callback.perform e r m change) (callback'.perform e' r' m change') := by
  refine .bind (.tell (hcb.called hc r r')) fun q hq _ _ _ => ?_
  have hmq := hq.pair hm
  cases hcb with
  | run hid hfair =>
    refine he.callback q _ _ _ ⟨rfl, fun m' h => ?_, .some (hc.mono hq), rfl⟩ hfair
    cases h
    exact hmq
  | write face n =>
    rw [hc.new.text]
    exact (Parallel.writeFace face m n _).beside
  | render n t =>
    refine Parallel.beside (R := fun _ _ _ => True) (.bind (.check m) fun q _ _ _ hm => ?_)
    refine .bind (.template he t hm) fun _ _ text _ ht => ?_
    cases ht
    exact .writeFace .text m n text

theorem Beside.updateWatcher {r r' : Ref .watcher} (hr : p.pair r r') :
    Beside G p (Watcher.update e r) (Watcher.update e' r') := by
  refine .get fun q w w' hq hw => ?_
  rw [← (hw.watchers r r' (hq.pair hr)).model]
  refine .bind (.check _) fun l hl _ _ hm => .usingModel hm ?_
  have hrl := (hq.trans hl).pair hr
  refine .bind (.evaluateWatcher he hrl) fun k hk new new' hnew => ?_
  refine .get fun i v v' hi hv => ?_
  have hri := (hk.trans hi).pair hrl
  have hvr := hv.watchers r r' hri
  have hsame := hvr.value.same hv.fits.oneToOne (hnew.mono hi)
  refine .ite (by rw [hsame])
    (Parallel.beside (.pure (R := fun _ _ _ => True) fun _ _ => trivial)) ?_
  refine .bind (R := fun _ _ _ => True) (.modify fun j _ _ hj hu =>
    ⟨j, le_rfl, hu.setWatcher (hj.pair hri) (hnew.mono (hi.trans hj)), trivial⟩)
    fun j hj _ _ _ => ?_
  exact .perform he ((hk.trans (hi.trans hj)).pair hm)
    ⟨hnew.mono (hi.trans hj), hvr.value.mono hj⟩ hvr.callback r r'

theorem Aside.updateGuest {r : Ref .watcher} (hr : p.guest r) :
    Aside G p (Watcher.update e r) := by
  refine .get fun q w w' hq hw => .check fun l hl hm => .usingModel hm ?_
  have hrl := (hq.trans hl).guest hr
  refine .bind ?_ fun k hk new => .get fun i v v' hi hv => ?_
  · refine .get fun _ _ _ hj _ => .get fun _ _ _ hj' _ => Reading.Aside.track ?_ ?_
    · exact .follow he.aside _ _ _
    · exact (hj.trans hj').guest hrl
  · have hri := (hk.trans hi).guest hrl
    obtain ⟨id, hid, steps, hsteps, hcb⟩ := hv.guests r hri
    refine .ite (.pure _) (.bind (.modify fun j _ _ hj hu =>
      ⟨j, le_rfl, hu.setGuest (hj.guest hri) new⟩) fun j _ _ => ?_)
    rw [hcb]
    exact .bind (.tell (by simpa [Happening.shown, Happening.effect?, Callback.effect?,
      Effect.shown] using hid)) fun k _ _ => he.verdict k _ _ hsteps

theorem Beside.update {s s' : Subscriber} (hs : p.same s s') :
    Beside G p (Subscriber.update e s) (Subscriber.update e' s') := by
  cases s <;> cases s' <;> first | exact False.elim hs | skip
  · exact .updateWatcher he hs
  · obtain rfl := hs
    refine .get fun q w w' hq hw => ?_
    rename_i r
    have hrr := hw.reactions r
    simp only [hrr.steps, ← hrr.id]
    exact .bind (.emit rfl) fun l hl _ _ _ =>
      (he.call l _ _ _ ⟨rfl, (fun _ h => by cases h), .none, rfl⟩ hrr.fair).beside

/-! Notifications. -/

theorem Parallel.updateEach {ss ss' : List Subscriber}
    (hs : Interlaced p.stranger p.same ss ss') :
    Parallel G p (ViewBinding.updateEach (Subscriber.update e) ss)
      (ViewBinding.updateEach (Subscriber.update e') ss') fun _ _ _ => True := by
  induction hs with
  | nil => exact .pure fun _ _ => trivial
  | @pair s s' ss ss' hsame _ ih =>
    -- what follows the turn of a subscriber, whatever was noted about it
    have rest {q : Pairing} (hq : p ≤ q) (count count' : Nat → Nat) : Parallel G q (do
        MonadState.modifyGet fun w : World => ((), w.releaseSubscriber s)
        let failed ← ViewBinding.updateEach (Subscriber.update e) ss
        return count failed) (do
        MonadState.modifyGet fun w : World => ((), w.releaseSubscriber s')
        let failed ← ViewBinding.updateEach (Subscriber.update e') ss'
        return count' failed) fun _ _ _ => True := by
      refine .bind (R := fun _ _ _ => True) (.modify fun l _ _ hl hw => ⟨l, le_rfl,
        hw.releaseSubscriber (Pairing.same_mono (hq.trans hl) hsame), trivial⟩) fun l hl _ _ _ => ?_
      exact .bind (ih.mono (hq.trans hl)) fun _ _ _ _ _ => .pure fun _ _ => trivial
    refine .bind (Beside.update he hsame).faultOf fun q hq fault fault' _ => ?_
    cases fault <;> cases fault'
    · exact rest hq _ _
    · exact .emitRight rfl (rest hq _ _)
    · exact .emitLeft rfl (rest hq _ _)
    · exact .emitLeft rfl (.emitRight rfl (rest hq _ _))
  | @extra s ss ss' hg _ ih =>
    have rest {q : Pairing} (hq : p ≤ q) (count : Nat → Nat) : Parallel G q (do
        MonadState.modifyGet fun w : World => ((), w.releaseSubscriber s)
        let failed ← ViewBinding.updateEach (Subscriber.update e) ss
        return count failed) (ViewBinding.updateEach (Subscriber.update e') ss')
        fun _ _ _ => True := by
      have hx := (ih.mono hq).mapLeft (T := fun _ _ _ => True) (f := count) fun _ _ _ _ _ _ _ =>
        trivial
      exact fun l w w' hl hw =>
        hx l _ w' hl (hw.releaseGuest (Pairing.stranger_mono (hq.trans hl) hg))
    have hupdate : Aside G p (Subscriber.update e s) := by
      cases s with
      | watcher r => exact .updateGuest he hg
      | reaction r => exact False.elim hg
    refine hupdate.thenParallel fun q hq fault => ?_
    cases fault with
    | none => exact rest hq _
    | some f => exact .emitLeft rfl (rest hq _)

theorem Parallel.notify {registry registry' : Registry} (hr : registry.Twin p registry') :
    Parallel G p (registry.notify (Subscriber.update e)) (registry'.notify (Subscriber.update e'))
      fun _ _ _ => True := by
  refine .get fun q w w' hq hw => ?_
  have hlive := (hr.mono hq).live fun _ _ hs => hw.alive hs
  refine .bind (R := fun _ _ _ => True) (.modify fun l _ _ hl hv => ⟨l, le_rfl,
    hv.useSubscribers (hlive.mono (fun _ => Pairing.stranger_mono hl) fun _ _ =>
      Pairing.same_mono hl), trivial⟩) fun l hl _ _ _ => ?_
  exact .updateEach he (hlive.mono (fun _ => Pairing.stranger_mono hl) fun _ _ =>
    Pairing.same_mono hl)

theorem Parallel.notifySource {source source' : Source} (hs : source.Twin p source') :
    Parallel G p (source.notify (Subscriber.update e)) (source'.notify (Subscriber.update e'))
      fun _ _ _ => True := by
  refine .get fun q w w' hq hw => ?_
  have hr := (hw.registry (hs.mono hq)).prune fun _ _ hs => hw.alive hs
  refine .bind (R := fun _ _ _ => True) (.modify fun l _ _ hl hv => ⟨l, le_rfl,
    hv.setRegistry (hs.mono (hq.trans hl)) (hr.mono hl), trivial⟩) fun l hl _ _ _ => ?_
  exact .notify he (hr.mono hl)

/-! Writes. -/

omit he in
theorem Parallel.leaveBehind {α β : Type} {x : Unit → Action α} {x' : Unit → Action β}
    {R : Pairing → α → β → Prop} (key : Option String) (failed failed' : Nat)
    (hx : Parallel G p (x ()) (x' ()) R) :
    Parallel G p (if 0 < failed then Action.emit (.leftBehind failed key) >>= x else x ())
      (if 0 < failed' then Action.emit (.leftBehind failed' key) >>= x' else x' ()) R := by
  split <;> split
  · exact .emitLeft rfl (.emitRight rfl hx)
  · exact .emitLeft rfl hx
  · exact .emitRight rfl hx
  · exact hx

theorem Parallel.writeCell {c c' : Ref .cell} (hc : p.pair c c') {v v' : Value}
    (hv : v.Twin p v') :
    Parallel G p (Cell.write (Subscriber.update e) c v) (Cell.write (Subscriber.update e') c' v')
      fun _ => Eq := by
  refine .get fun q w w' hq hw => ?_
  rw [(hw.value (hq.pair hc)).same hw.fits.oneToOne (hv.mono hq)]
  refine .ite Iff.rfl (fun _ => .pure fun _ _ => rfl) fun _ => ?_
  refine .bind (R := fun _ _ _ => True) (.modify fun l _ _ hl hu => ⟨l, le_rfl,
    hu.setCell ((hq.trans hl).pair hc) (hv.mono (hq.trans hl)), trivial⟩) fun l hl _ _ _ => ?_
  have hs : Source.Twin l (.cell c) (.cell c') := (hq.trans hl).pair hc
  refine .bind (.notifySource he hs) fun k _ failed failed' _ => ?_
  exact .leaveBehind none failed failed' (.pure fun _ _ => rfl)

theorem Parallel.insert {o o' : Ref .object} (ho : p.pair o o') (key : String) {v v' : Value}
    (hv : v.Twin p v') :
    Parallel G p (Object.insert (Subscriber.update e) o key v)
      (Object.insert (Subscriber.update e') o' key v') fun _ _ _ => True := by
  refine .bind (R := fun _ _ _ => True) (.modify fun q w w' hq hw => ?_) fun q hq _ _ _ => ?_
  · have hj := q.le_join w.cells.fresh w'.cells.fresh
    exact ⟨_, hj, (hw.addCell (hv.mono hq)).setSlot (hj.pair (hq.pair ho)) key
      (Pairing.pair_join.2 (.inr ⟨rfl, rfl⟩)), trivial⟩
  refine .bind (R := fun q a b => Registry.Twin q (a.getD {}) (b.getD {}))
    (.modifyGet fun l w w' hl hw => ?_) fun l hl a b hab => ?_
  · have htake := hw.takeWaiting ((hq.trans hl).pair ho) key
    exact ⟨l, le_rfl, htake.2, htake.1⟩
  have hrest : Parallel G l (do
      let failed ← (a.getD {}).notify (Subscriber.update e)
      if 0 < failed then Action.emit (.leftBehind failed (some key)) >>= Pure.pure else return ())
      (do
      let failed ← (b.getD {}).notify (Subscriber.update e')
      if 0 < failed then Action.emit (.leftBehind failed (some key)) >>= Pure.pure else return ())
      fun _ _ _ => True :=
    .bind (.notify he hab) fun _ _ failed failed' _ =>
      .leaveBehind (some key) failed failed' (.pure fun _ _ => trivial)
  simp only [bind_pure] at hrest
  -- to notify nobody is to do nothing
  cases a <;> cases b <;> exact hrest

theorem Parallel.writeObject {o o' : Ref .object} (ho : p.pair o o') (key : String) {v v' : Value}
    (hv : v.Twin p v') :
    Parallel G p (Object.write (Subscriber.update e) o key v)
      (Object.write (Subscriber.update e') o' key v') fun _ => Eq := by
  refine .get fun q w w' hq hw => ?_
  have hslot := hw.slot? (hq.pair ho) key
  generalize w.slot? o key = a at hslot ⊢
  generalize w'.slot? o' key = b at hslot ⊢
  cases hslot with
  | none =>
    exact .bind (.insert he (hq.pair ho) key (hv.mono hq)) fun _ _ _ _ _ => .pure fun _ _ => rfl
  | @some a b hs =>
    cases a <;> cases b <;> first | exact False.elim hs | skip
    · exact .writeCell he hs (hv.mono hq)
    · exact .throw _

theorem Parallel.assign (f : Path) {root root' : Ref .object} (hroot : p.pair root root')
    {v v' : Value} (hv : v.Twin p v') :
    Parallel G p (f.assign e.compute (Subscriber.update e) root v)
      (f.assign e'.compute (Subscriber.update e') root' v') fun _ => Eq := by
  have hread := Reading.Parallel.follow (he.compute p) f f.parents (.object hroot)
  refine .bind (hread.once fun _ _ hl _ _ => Value.Twin.mono hl) fun q hq u u' hu => ?_
  refine .bind (.ofExcept fun _ hl => (hu.mono hl).owner f f.last) fun l hl o o' ho => ?_
  exact .writeObject he ho f.last (hv.mono (hq.trans hl))

theorem Parallel.writeModel {m : Ref .model} (hm : p.pair m m) (path : String) {v v' : Value}
    (hv : v.Twin p v') :
    Parallel G p (ViewModel.write e.compute (Subscriber.update e) m path v)
      (ViewModel.write e'.compute (Subscriber.update e') m path v') fun _ => Eq := by
  refine .bind (R := fun _ => Eq) (.ofExcept fun _ _ => ?_) fun q hq f f' hf => ?_
  · cases Path.parse path <;> rfl
  · cases hf
    refine .get fun l w w' hl hw => ?_
    exact .assign he f (hw.models m m ((hq.trans hl).pair hm)).data (hv.mono (hq.trans hl))

/-! Methods and events. -/

theorem Parallel.callMethod {m : Ref .model} (hm : p.pair m m) (name : String) (event : Event) :
    Parallel G p (ViewModel.call e m name event) (ViewModel.call e' m name event)
      fun _ _ _ => True := by
  refine .get fun q w w' hq hw => ?_
  have hmodel := hw.models m m (hq.pair hm)
  refine .bind (R := fun _ a b => Step.EveryAll (Step.Fair G) a ∧ b = Step.coreAll G a)
    (.require _ fun _ _ => ?_) fun l hl a b hab => ?_
  · rw [hmodel.methods name]
    cases hsteps : (w.models.get m).methods[name]? with
    | none => exact .none
    | some steps => exact .some ⟨hmodel.fair name steps hsteps, rfl⟩
  · obtain ⟨hfair, rfl⟩ := hab
    refine .bind (.tell (.some rfl)) fun k hk _ _ _ => ?_
    refine he.call k _ _ _ ⟨rfl, fun m' h => ?_, .none, rfl⟩ hfair
    cases h
    exact (hq.trans (hl.trans hk)).pair hm

theorem Parallel.respond (event : Event) (response : Response) :
    Parallel G p (response.perform e event) (response.perform e' event) fun _ _ _ => True := by
  cases response with
  | assign m path n =>
    refine .get fun q w w' hq hw => .ite (by rw [hw.modelAlive]) (fun ha => ?_)
      fun _ => .pure fun _ _ => trivial
    refine .usingModel (hw.pair_of_modelAlive ha) (.get fun l v v' hl hv => ?_)
    rw [hv.view]
    exact .bind (.writeModel he (hl.pair (hw.pair_of_modelAlive ha)) path (.string _))
      fun _ _ _ _ _ => .pure fun _ _ => trivial
  | call m name =>
    exact .get fun q w w' hq hw => .ite (by rw [hw.modelAlive]) (fun ha =>
      .usingModel (hw.pair_of_modelAlive ha) (.callMethod he (hw.pair_of_modelAlive ha) name event))
      fun _ => .pure fun _ _ => trivial

theorem Parallel.dispatch (n : Ref .node) (event : Event) :
    Parallel G p (event.dispatch e n) (event.dispatch e' n) fun _ _ _ => True := by
  refine .get fun q w w' _ hw => ?_
  rw [hw.view]
  exact .forM fun l _ => .respond he event l.response

theorem Parallel.input (n : Ref .node) (text : String) :
    Parallel G p (Event.input e n text) (Event.input e' n text) fun _ _ _ => True := by
  refine .bind (R := fun _ _ _ => True) (.modify fun q w w' _ hw => ⟨q, le_rfl, ?_, trivial⟩)
    fun _ _ _ _ _ => .dispatch he n _
  rw [hw.view]
  exact hw.setView _

end

end Action

end ViewBinding
