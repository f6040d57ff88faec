import ViewBinding.Proofs.Course.Run
import ViewBinding.Proofs.Freshness
import ViewBinding.Proofs.Nodes

/-! Two-way bindings. After a text was typed into a node that a binding shows a value on, the node
shows what the binding saw last if the binding wrote it meanwhile, and what was typed otherwise. -/

namespace ViewBinding

variable {n : Ref .node} {v v' v'' : View}

namespace View

/-- Whether a node, if it was there, still shows the value it showed and was not written meanwhile.
-/
structure Still (n : Ref .node) (v v' : View) : Prop where
  size : v.nodes.size ≤ v'.nodes.size
  value : n.index < v.nodes.size → (v'.node n).value = (v.node n).value
  writes : n.index < v.nodes.size → (v'.node n).valueWrites = (v.node n).valueWrites

namespace Still

theorem refl (v : View) : v.Still n v := ⟨Nat.le_refl _, fun _ => rfl, fun _ => rfl⟩

theorem trans (h : Still n v v') (h' : Still n v' v'') : Still n v v'' where
  size := Nat.le_trans h.size h'.size
  value hn := (h'.value (Nat.lt_of_lt_of_le hn h.size)).trans (h.value hn)
  writes hn := (h'.writes (Nat.lt_of_lt_of_le hn h.size)).trans (h.writes hn)

theorem modify (v : View) (n' : Ref .node) (change : Node → Node)
    (h : n' = n → ∀ node, (change node).value = node.value ∧
      (change node).valueWrites = node.valueWrites) : Still n v (v.modify n' change) := by
  have hsize := v.size_modify n' change
  by_cases e : n' = n
  · subst e
    refine ⟨Nat.le_of_eq hsize.symm, fun hn => ?_, fun hn => ?_⟩
    · rw [node_modify_self hn]
      exact (h rfl _).1
    · rw [node_modify_self hn]
      exact (h rfl _).2
  · refine ⟨Nat.le_of_eq hsize.symm, fun _ => ?_, fun _ => ?_⟩ <;> rw [node_modify_of_ne e]

theorem add (v : View) (node : Node) : Still n v (v.add node).2 where
  size := Nat.le_of_lt (Nat.lt_of_lt_of_eq (Nat.lt_succ_self _) (v.nodes.size_add node).symm)
  value hn := by rw [node_add_of_ne _ (ne_fresh hn)]
  writes hn := by rw [node_add_of_ne _ (ne_fresh hn)]

theorem setParent (v : View) (parent : Option (Ref .node)) (ns : List (Ref .node)) :
    Still n v (v.setParent parent ns) := by
  induction ns generalizing v with
  | nil => exact .refl v
  | cons n' ns ih =>
    have hm := modify (n := n) v n' (fun node => { node with parent }) fun _ _ => ⟨rfl, rfl⟩
    exact hm.trans (ih _)

theorem detach (v : View) (n' : Ref .node) : Still n v (v.detach n').2 := by
  have hm := modify (n := n) v n' (fun node => { node with children := [] })
    fun _ _ => ⟨rfl, rfl⟩
  exact hm.trans (setParent _ none _)

theorem append (v : View) (n' : Ref .node) (ns : List (Ref .node)) : Still n v (v.append n' ns) :=
  (setParent v (some n') ns).trans (modify _ n' _ fun _ _ => ⟨rfl, rfl⟩)

theorem renewText (v : View) (n' : Ref .node) (s : String) : Still n v (v.renewText n' s) := by
  rw [renewText_eq]
  exact ((add v _).trans (detach _ n')).trans (append _ n' _)

theorem replaceText (v : View) (n' : Ref .node) (s : String) :
    Still n v (v.replaceText n' s) := by
  rcases v.replaceText_cases n' s with ⟨-, e⟩ | ⟨-, ⟨c, -, -, e⟩ | e⟩ <;> rw [e]
  · exact modify v n' _ fun _ _ => ⟨rfl, rfl⟩
  · exact modify v c _ fun _ _ => ⟨rfl, rfl⟩
  · exact renewText v n' s

theorem write (v : View) {face : Face} {n' : Ref .node} (h : ¬(face = .value ∧ n' = n))
    (s : String) : Still n v (v.write face n' s) := by
  cases face with
  | text => exact (replaceText v n' s).trans (modify _ n' _ fun _ _ => ⟨rfl, rfl⟩)
  | value => exact modify v n' _ fun e => absurd ⟨rfl, e⟩ h
  | html => exact modify v n' _ fun _ _ => ⟨rfl, rfl⟩

theorem listen (v : View) (n' : Ref .node) (l : Listener) : Still n v (v.listen n' l) :=
  modify v n' _ fun _ _ => ⟨rfl, rfl⟩

mutual

theorem create : ∀ (m : Markup) (v : View), Still n v (View.create m v).2
  | .text _, v => add v _
  | .comment _, v => add v _
  | .element _ _ children, v => ((createAll children v).trans (add _ _)).trans (append _ _ _)

theorem createAll : ∀ (ms : List Markup) (v : View), Still n v (View.createAll ms v).2
  | [], v => .refl v
  | m :: ms, v => (create m v).trans (createAll ms _)

end

end Still

theorem node_write_value (hn : n.index < v.nodes.size) (s : String) :
    ((v.write .value n s).node n).value = s ∧
      ((v.write .value n s).node n).valueWrites = (v.node n).valueWrites + 1 := by
  rw [write, node_modify_self hn]
  exact ⟨rfl, rfl⟩

end View

/-- Steps that leave the value of a node to its bindings. -/
def Step.LeavesValue (n : Ref .node) (s : Step) : Prop :=
  (∀ text, s ≠ .input n.index text) ∧ ∀ text, s ≠ .setValue n.index text

theorem Step.writable_leavesValue (n : Ref .node) : Writable (Step.LeavesValue n) := by
  refine ⟨.write none "" (.data .null), ⟨?_, ?_⟩, trivial⟩ <;> exact fun _ h => nomatch h

theorem Step.callable_leavesValue (n : Ref .node) : Callable (Step.LeavesValue n) := by
  refine ⟨.call none "" "" none, ⟨?_, ?_⟩, trivial⟩ <;> exact fun _ h => nomatch h

namespace World

variable {w w' w'' : World} {hs : List Happening} {r : Ref .watcher}

theorem Edited.still (h : w.view.Edited (Step.LeavesValue n) v) : View.Still n w.view v := by
  cases h with
  | create m => exact .create m _
  | detach n' => exact .detach _ n'
  | append n' ns => exact .append _ n' ns
  | @typed k text hP =>
    refine .modify _ _ _ fun e => ?_
    subst e
    exact absurd rfl (hP.1 text)
  | @setText k text _ =>
    have hne : ¬(Face.text = .value ∧ (⟨k⟩ : Ref .node) = n) := fun h => nomatch h.1
    exact .write w.view hne text
  | @setValue k text hP =>
    refine .write _ (fun h => ?_) _
    obtain ⟨-, rfl⟩ := h
    exact absurd rfl (hP.2 text)

/-- What becomes of the value of a node that a watcher shows what it sees on: nothing, or the
watcher wrote what it has seen by now. -/
inductive Mirrors (n : Ref .node) (r : Ref .watcher) (w w' : World) : Prop
  | still : View.Still n w.view w'.view → (w'.watchers.get r).value = (w.watchers.get r).value →
      Mirrors n r w w'
  | wrote : w.view.nodes.size ≤ w'.view.nodes.size →
      (w'.view.node n).value = (w'.watchers.get r).value.text →
      (w'.view.node n).valueWrites = (w.view.node n).valueWrites + 1 → Mirrors n r w w'

/-- A binding of the value of a node: a watcher that is there, and the only one to write it. -/
structure Binds (w : World) (n : Ref .node) (r : Ref .watcher) : Prop where
  made : r.index < w.watchers.size
  callback : (w.watchers.get r).callback = .write .value n
  only : ∀ r', (w.watchers.get r').callback = .write .value n → r' = r

theorem Mirrors.of_eq (hview : View.Still n w.view w'.view) (h : w'.watchers = w.watchers) :
    Mirrors n r w w' := .still hview (by rw [h])

theorem Move.mirrors (h : w.Move (Step.LeavesValue n) hs w') (hn : n.index < w.view.nodes.size)
    (hb : w.Binds n r) : Mirrors n r w w' := by
  have same (hview : w'.view = w.view) (hw : w'.watchers = w.watchers) : Mirrors n r w w' :=
    .of_eq (by rw [hview]; exact .refl _) hw
  cases h with
  | glance h => exact same h.sameFrame.view h.sameFrame.watchers
  | prune => exact same (SameFrame.setRegistry w _ _).view (SameFrame.setRegistry w _ _).watchers
  | prepare =>
    refine .still (.refl _) ?_
    rw [addWatcher, Store.get_add_of_lt _ _ hb.made]
  | watch _ h =>
    obtain ⟨-, -, -, hview⟩ := h.frame
    refine .still ?_ (congrArg Watcher.value (h.get_watcher hb.made))
    rw [keepWatcher, hview]
    exact .refl _
  | hold _ _ h =>
    obtain ⟨-, -, -, hview⟩ := h.frame
    refine .still ?_ (congrArg Watcher.value (h.get_watcher hb.made))
    rw [hview]
    exact .refl _
  | @call _ _ r' _ new =>
    have hw := startCallback_watchers (w.remember r' new) r' (w.watchers.get r').model
      { new, old := (w.watchers.get r').value } (w.watchers.get r').callback
    by_cases e : r' = r
    · subst e
      rw [hb.callback] at hw ⊢
      obtain ⟨hvalue, hwrites⟩ := View.node_write_value hn new.text
      refine .wrote (View.size_write ..) ?_ hwrites
      rw [hw, value_remember_self w hb.made]
      exact hvalue
    · -- Somebody else is called, who cannot write the value of the node.
      refine .still ?_ ?_
      · cases hc : (w.watchers.get r').callback with
        | write face n' =>
          refine .write w.view (fun h => e (hb.only r' ?_)) _
          rw [hc, h.1, h.2]
        | _ => exact .refl _
      · rw [hw, remember, Store.get_modify_of_ne _ _ e]
  | @write _ r' face n' text _ hshown =>
    by_cases e : face = .value ∧ n' = n
    · obtain ⟨rfl, rfl⟩ := e
      cases hshown with
      | value hc =>
        obtain rfl := hb.only r' hc
        obtain ⟨hvalue, hwrites⟩ := View.node_write_value hn (w.watchers.get r').value.text
        exact .wrote (View.size_write ..) hvalue hwrites
    · exact .of_eq (.write w.view e text) rfl
  | edit h => exact .of_eq (Edited.still h) rfl
  | listen => exact .of_eq (.listen ..) rfl
  | _ => exact same rfl rfl

theorem made_of_callback (h : (w.watchers.get r).callback = .write .value n) :
    r.index < w.watchers.size := by
  by_contra hr
  rw [Store.get_of_size_le _ (Nat.le_of_not_lt hr)] at h
  cases h

def bindings (w : World) (n : Ref .node) : List Nat :=
  (List.range w.watchers.size).filter fun i =>
    match (w.watchers.get ⟨i⟩).callback with
    | .write .value n' => n' == n
    | _ => false

theorem Binds.of_bindings (h : w.bindings n = [r.index]) : w.Binds n r := by
  have hall (r' : Ref .watcher) : r'.index ∈ w.bindings n ↔
      (w.watchers.get r').callback = .write .value n := by
    rw [bindings, List.mem_filter, List.mem_range]
    constructor
    · rintro ⟨-, hc⟩
      split at hc
      · rename_i n' hn'
        rw [hn', beq_iff_eq.1 hc]
      · cases hc
    · intro hc
      refine ⟨made_of_callback hc, ?_⟩
      rw [hc]
      exact beq_self_eq_true n
  have hself := (hall r).1 (by simp [h])
  refine ⟨made_of_callback hself, hself, fun r' hc => ?_⟩
  have hm := (hall r').2 hc
  rw [h, List.mem_singleton] at hm
  cases r
  cases r'
  exact congrArg Ref.mk hm

theorem Move.binds {P : Step → Prop} (h : w.Move P hs w') (hr : r.index < w.watchers.size)
    (hb : w'.Binds n r) : w.Binds n r where
  made := hr
  callback := ((h.watcher hr).2).symm.trans hb.callback
  only r' hc := hb.only r' (((h.watcher (made_of_callback hc)).2).trans hc)

structure Echoes (n : Ref .node) (r : Ref .watcher) (w w' : World) : Prop where
  node : n.index < w'.view.nodes.size
  writes : (w.view.node n).valueWrites ≤ (w'.view.node n).valueWrites
  value : (w'.view.node n).value =
    if (w.view.node n).valueWrites < (w'.view.node n).valueWrites then
      (w'.watchers.get r).value.text
    else (w.view.node n).value

theorem Echoes.mirrors (h : Echoes n r w w') (hm : Mirrors n r w' w'') : Echoes n r w w'' := by
  cases hm with
  | still hview hvalue =>
    refine ⟨Nat.lt_of_lt_of_le h.node hview.size, ?_, ?_⟩
    · rw [hview.writes h.node]
      exact h.writes
    · rw [hview.writes h.node, hview.value h.node, hvalue]
      exact h.value
  | wrote hsize hvalue hwrites =>
    have hlt : (w.view.node n).valueWrites < (w''.view.node n).valueWrites := by
      rw [hwrites]
      exact Nat.lt_succ_of_le h.writes
    refine ⟨Nat.lt_of_lt_of_le h.node hsize, Nat.le_of_lt hlt, ?_⟩
    rw [if_pos hlt]
    exact hvalue

/-- The node shows what the binding saw last if the binding wrote it on the way, and what it showed
before otherwise. -/
theorem Course.echoes (h : w.Course (Step.LeavesValue n) hs w') (hn : n.index < w.view.nodes.size)
    (hr : r.index < w.watchers.size) (hb : w'.Binds n r) : Echoes n r w w' := by
  -- That the binding is the only one is known of the last world, and goes back from there.
  induction h with
  | nil =>
    refine ⟨hn, Nat.le_refl _, ?_⟩
    rw [if_neg (Nat.lt_irrefl _)]
  | snoc hcourse hmove ih =>
    have hb' := hmove.binds (Course.watcher hcourse hr).1 hb
    have he := ih hb'
    exact he.mirrors (hmove.mirrors he.node hb')

end World

namespace Moment

variable {f : Frame} {w w' : World} {k j : Nat} {r : Ref .watcher}

theorem dispatch (h : Moment f w) {event : Event} {res : Except Fault Unit}
    (hd : Event.dispatch (Engine.ofFuel k) n event w = some (res, w')) : Moment f w' := by
  have hall (ls : List Listener) {w : World} (h : Moment f w)
      (hd : (ls.forM fun l => l.response.perform (Engine.ofFuel k) event) w = some (res, w')) :
      Moment f w' := by
    induction ls generalizing w with
    | nil =>
      cases hd
      exact h
    | cons l ls ih =>
      obtain ⟨g, hl, rfl⟩ | ⟨_, w₁, hl, hd⟩ :=
        Action.bind_eq_some (x := l.response.perform (Engine.ofFuel k) event) hd
      · exact .response h hl
      · exact ih (.response h hl) hd
  exact hall _ h hd

/-- From any moment of a run, a text is typed into a node whose value one binding shows, and nothing
else writes it. The binding has then seen what its path leads to, and the node shows that if the
binding has written the node since, and otherwise what was typed: so it shows the data if and only
if the binding has written it, or what was typed reads like the data. -/
theorem input_shows (h : Moment f w) (hn : n.index < w.view.nodes.size)
    (hr : r.index < w.watchers.size) (hs : w.Stored (Step.LeavesValue n)) {text : String}
    {res : Except Fault Unit}
    (hi : Event.input (Engine.ofFuel k) n text w = some (res, w')) (hb : w'.Binds n r)
    (ha : w'.alive (.watcher r)) (hm : w'.modelAlive (w'.watchers.get r).model) {v : Value}
    (hv : w'.Resolves j r v) :
    (w'.watchers.get r).value.Agrees v ∧
      (w'.view.node n).value =
        (if (w.view.node n).valueWrites < (w'.view.node n).valueWrites then
          (w'.watchers.get r).value.text
        else text) ∧
      ((w'.watchers.get r).value.text = v.text → ((w'.view.node n).value = v.text ↔
        (w.view.node n).valueWrites < (w'.view.node n).valueWrites ∨ text = v.text)) := by
  rw [Event.input, Action.modify_bind] at hi
  -- Typing changes the value of the node without counting as a write of it.
  let typed (node : Node) : Node := { node with value := text }
  let w₁ : World := { w with view := w.view.modify n typed }
  have hnode : w₁.view.node n = typed (w.view.node n) := View.node_modify_self hn typed
  have hn₁ : n.index < w₁.view.nodes.size := Nat.lt_of_lt_of_eq hn (w.view.size_modify ..).symm
  have hs₁ : w₁.Stored (Step.LeavesValue n) := ⟨hs.callback, hs.methods, hs.reaction⟩
  have hdispatch := (Judgement.proceeds_acts (Engine.proceeds k)).dispatch (s := w₁.uses)
    (Step.writable_leavesValue n) (Step.callable_leavesValue n) n { kind := "input", value := text }
  obtain ⟨-, hs', hcourse⟩ := hdispatch w₁ res w' rfl hs₁ hi
  have he := World.Course.echoes hcourse hn₁ hr hb
  have hagrees := (dispatch (.view (w.view.modify n typed) h) hi).quiet.agrees ha hm hv
  have hvalue := he.value
  rw [hnode] at hvalue
  refine ⟨hagrees, hvalue, fun ht => ?_⟩
  rw [hvalue]
  split
  · exact iff_of_true ht (.inl ‹_›)
  · exact (or_iff_right ‹_›).symm

theorem exists_stored {P : Step → Prop} (k : Nat) (trees : List Markup) (steps : List Step)
    (check : World → Bool) (hs : Step.AllPlain steps) (hP : Step.EveryAll P steps)
    (h : ((World.ofTrees trees).bind fun w =>
      (w.steps (Engine.ofFuel k) steps).map fun p => check p.2) = some true) :
    ∃ w, Moment {} w ∧ w.Stored P ∧ check w := by
  obtain ⟨w₀, h₀, h⟩ := Option.bind_eq_some_iff.1 h
  obtain ⟨⟨outcomes, w⟩, hw, hc⟩ := Option.map_eq_some_iff.1 h
  obtain ⟨-, hw₀, -⟩ := World.ofTrees_course (P := P) h₀
  obtain ⟨_, hcourse, -⟩ := World.steps_course hw₀ hP hw
  exact ⟨w, (Moment.start h₀).steps hs hw, World.Course.stored hcourse hw₀, hc⟩

def form : List Markup := [.element "form" [] [.element "input" [("directive-model", "a")] []]]

def reverting : List Step :=
  [.build none (some (.data (.object [("a", .string "x")]))) [] [],
    .watcher none "u" "a" [.write none "a" (.data (.string "x"))],
    .compile none 1 {}]

theorem reverting_run : ∃ (w w' : World) (v : Value), Moment {} w ∧
    w.Stored (Step.LeavesValue ⟨0⟩) ∧ 0 < w.view.nodes.size ∧ 1 < w.watchers.size ∧
      Event.input (Engine.ofFuel 4) ⟨0⟩ "y" w = some (.ok (), w') ∧ w'.Binds ⟨0⟩ ⟨1⟩ ∧
      w'.alive (.watcher ⟨1⟩) ∧ w'.modelAlive (w'.watchers.get ⟨1⟩).model ∧
      w'.Resolves 4 ⟨1⟩ v ∧ v.text = "x" ∧ (w'.view.node ⟨0⟩).value = "y" := by
  obtain ⟨w, h, hs, hc⟩ := exists_stored (P := Step.LeavesValue ⟨0⟩) 4 form reverting
    (fun w => decide (0 < w.view.nodes.size ∧ 1 < w.watchers.size) &&
      (Event.input (Engine.ofFuel 4) ⟨0⟩ "y" w).any fun p => p.1.isOk &&
        p.2.bindings ⟨0⟩ == [1] && p.2.alive (.watcher ⟨1⟩) &&
        p.2.modelAlive (p.2.watchers.get ⟨1⟩).model && (p.2.view.node ⟨0⟩).value == "y" &&
        (Watcher.peek (Engine.ofFuel 4).compute ⟨1⟩ p.2).any fun q =>
          q.1.toOption.any (·.text == "x"))
    (by simp [reverting, Step.AllPlain, Step.Plain, Step.PlainMethods, Expr.IsOwn])
    (by simp [reverting, Step.EveryAll, Step.Every, Step.EveryMethod, Step.LeavesValue])
    (by decide +kernel)
  simp only [Bool.and_eq_true, Option.any_eq_true, beq_iff_eq, decide_eq_true_eq] at hc
  obtain ⟨⟨hn, hr⟩, ⟨_ | _, w'⟩, hi, ⟨⟨⟨⟨hok, hb⟩, ha⟩, hm⟩, hvalue⟩, ⟨_ | v, w''⟩, hv, ht⟩ := hc
  · cases hok
  · cases hok
  · obtain ⟨_, he, ht⟩ := ht
    cases he
  · obtain ⟨_, he, ht⟩ := ht
    cases he
    exact ⟨w, w', v, h, hs, hn, hr, hi, .of_bindings hb, ha, hm, ⟨w'', hv⟩, ht, hvalue⟩

/-- The data is as before, and the node shows what was typed. -/
theorem reverting_shows_typed : ∃ (w w' : World) (v : Value), Moment {} w ∧
    Event.input (Engine.ofFuel 4) ⟨0⟩ "y" w = some (.ok (), w') ∧ w'.Binds ⟨0⟩ ⟨1⟩ ∧
      w'.alive (.watcher ⟨1⟩) ∧ w'.modelAlive (w'.watchers.get ⟨1⟩).model ∧
      w'.Resolves 4 ⟨1⟩ v ∧ (w'.view.node ⟨0⟩).value ≠ v.text := by
  obtain ⟨w, w', v, h, -, -, -, hi, hb, ha, hm, hv, ht, hvalue⟩ := reverting_run
  refine ⟨w, w', v, h, hi, hb, ha, hm, hv, ?_⟩
  rw [hvalue, ht]
  decide

theorem input_shows_reverting : ∃ (w w' : World) (v : Value), Moment {} w ∧
    0 < w.view.nodes.size ∧ 1 < w.watchers.size ∧ w.Stored (Step.LeavesValue ⟨0⟩) ∧
      Event.input (Engine.ofFuel 4) ⟨0⟩ "y" w = some (.ok (), w') ∧ w'.Binds ⟨0⟩ ⟨1⟩ ∧
      w'.alive (.watcher ⟨1⟩) ∧ w'.modelAlive (w'.watchers.get ⟨1⟩).model ∧
      w'.Resolves 4 ⟨1⟩ v ∧ (w'.watchers.get ⟨1⟩).value.Agrees v := by
  obtain ⟨w, w', v, h, hs, hn, hr, hi, hb, ha, hm, hv, -, -⟩ := reverting_run
  exact ⟨w, w', v, h, hn, hr, hs, hi, hb, ha, hm, hv, (h.input_shows hn hr hs hi hb ha hm hv).1⟩

end Moment

end ViewBinding
