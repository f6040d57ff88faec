import ViewBinding.Proofs.Strata.Visits

/-! The callbacks of one watcher. However they are nested and whatever they do, each is told the
value that the callback before it was told as the new one, and that is the value of the watcher. -/

namespace ViewBinding

/-- Changes that lead from one value to another, each going on from where the one before led to, and
none between values that are the same. -/
def Change.Linked : Value → List Change → Value → Prop
  | first, [], last => last = first
  | first, change :: rest, last =>
    change.old = first ∧ change.old.same change.new = false ∧ Linked change.new rest last

theorem Change.Linked.snoc {first last new : Value} {changes : List Change}
    (h : Linked first changes last) (hn : last.same new = false) :
    Linked first (changes ++ [{ new, old := last }]) new := by
  induction changes generalizing first with
  | nil =>
    have he : last = first := h
    subst he
    exact ⟨rfl, hn, rfl⟩
  | cons change rest ih => exact ⟨h.1, h.2.1, ih h.2.2⟩

/-- The changes that the callbacks of a watcher were told of, in the order they started. -/
def callsOf (r : Ref .watcher) (hs : List Happening) : List Change :=
  hs.filterMap fun
    | .called r' _ change => if r' = r then some change else none
    | _ => none

theorem callsOf_append (r : Ref .watcher) (hs hs' : List Happening) :
    callsOf r (hs ++ hs') = callsOf r hs ++ callsOf r hs' := List.filterMap_append ..

def Made (past : List Happening) (r : Ref .watcher) : Prop :=
  ∃ first, Happening.made r first ∈ past

theorem Made.append {past : List Happening} {r : Ref .watcher} (h : Made past r)
    (hs : List Happening) : Made (past ++ hs) r := by
  obtain ⟨first, h⟩ := h
  exact ⟨first, List.mem_append_left _ h⟩

theorem Made.last (past hs : List Happening) (r : Ref .watcher) (v : Value) :
    Made (past ++ (hs ++ [.made r v])) r :=
  ⟨v, List.mem_append_right _ (List.mem_append_right _ (List.mem_singleton.2 rfl))⟩

def Happening.OfWatcher : Happening → Prop
  | made _ _ => True
  | called _ _ _ => True
  | _ => False

theorem callsOf_eq_nil {hs : List Happening} (h : ∀ x ∈ hs, ¬x.OfWatcher) (r : Ref .watcher) :
    callsOf r hs = [] := by
  refine List.filterMap_eq_nil_iff.2 fun x hx => ?_
  cases x with
  | called => exact absurd trivial (h _ hx)
  | _ => rfl

namespace World

variable {P : Step → Prop} {w w' : World} {hs past : List Happening}

structure Known (past : List Happening) (w : World) : Prop where
  named : ∀ r, w.names.watchers.holds r → Made past r
  kept : ∀ m, ∀ r ∈ (w.models.get m).watchers, Made past r
  used : ∀ r, .watcher r ∈ w.subscribersInUse → Made past r

theorem Known.of_alive (h : Known past w) {r : Ref .watcher} (hr : w.alive (.watcher r)) :
    Made past r := by
  rcases (alive_iff r).1 hr with hu | hn | ⟨-, hk⟩
  · exact h.used r hu
  · exact h.named r hn
  · exact h.kept _ r hk

theorem empty_known : Known [] {} where
  named r h := by
    obtain ⟨name, h⟩ := (Holder.holds_iff _ r).1 h
    simp at h
  kept m r h := by
    rw [Store.get_of_size_le _ (Nat.zero_le _)] at h
    exact absurd h List.not_mem_nil
  used r h := absurd h List.not_mem_nil

theorem Known.mono (h : Known past w) (hs : List Happening)
    (hn : w'.names.watchers = w.names.watchers) (hm : w'.models = w.models)
    (hu : w'.subscribersInUse = w.subscribersInUse) : Known (past ++ hs) w' where
  named := by
    rw [hn]
    exact fun r hr => (h.named r hr).append hs
  kept := by
    rw [hm]
    exact fun m r hr => (h.kept m r hr).append hs
  used := by
    rw [hu]
    exact fun r hr => (h.used r hr).append hs

theorem fresh_not_lt {k : Kind} {α : Type} (s : Store k α) : ¬s.fresh.index < s.size :=
  Nat.lt_irrefl _

theorem Move.known (h : w.Move P hs w') (hw : Known past w) : Known (past ++ hs) w' := by
  cases h with
  | glance h =>
    have hf := h.sameFrame
    exact hw.mono _ (by rw [hf.names]) hf.models hf.subscribersInUse
  | prune =>
    have hf := SameFrame.setRegistry w
    exact hw.mono _ (by rw [(hf _ _).names]) (hf _ _).models (hf _ _).subscribersInUse
  | @watch _ w' _ hs _ v _ h =>
    obtain ⟨hn, hm, hu, -⟩ := h.frame
    have hw := hw.mono (hs ++ [.made w.watchers.fresh v]) (by rw [hn]) hm hu
    refine { hw with kept := fun m' r' h' => ?_ }
    rw [keepWatcher] at h'
    rcases Store.get_modify_cases _ _ m' fun model : ViewModel =>
      { model with watchers := model.watchers ++ [w.watchers.fresh] } with e | ⟨-, -, e⟩
    · rw [e] at h'
      exact hw.kept m' r' h'
    · rw [e] at h'
      rcases List.mem_append.1 h' with h' | h'
      · exact hw.kept m' r' h'
      · rw [List.mem_singleton.1 h']
        exact .last past _ _ _
  | @hold _ w' _ hs _ v id _ h =>
    obtain ⟨hn, hm, hu, -⟩ := h.frame
    have hw := hw.mono (hs ++ [.made w.watchers.fresh v]) (by rw [hn]) hm hu
    refine { hw with named := fun r hr => ?_ }
    rcases Holder.holds_bind _ _ hr with rfl | hr
    · exact .last past _ _ _
    · exact hw.named r hr
  | call =>
    generalize (w.watchers.get _).callback = callback
    refine hw.mono _ ?_ ?_ ?_
    all_goals cases callback <;> rfl
  | build _ _ _ hm =>
    have hw : Known (past ++ []) w := hw.mono [] rfl rfl rfl
    refine { hw with kept := fun m r hr => ?_ }
    rw [Store.get_add] at hr
    split at hr
    · rw [hm] at hr
      exact absurd hr List.not_mem_nil
    · exact hw.kept m r hr
  | mount _ _ hm =>
    have hw : Known (past ++ []) w := hw.mono [] rfl rfl rfl
    refine { hw with kept := fun m r hr => ?_ }
    have hr : r ∈ ((w.models.add _).get m).watchers := hr
    rw [Store.get_add] at hr
    split at hr
    · rw [hm] at hr
      exact absurd hr List.not_mem_nil
    · exact hw.kept m r hr
  | useSubscribers ha =>
    have hw : Known (past ++ []) w := hw.mono [] rfl rfl rfl
    refine { hw with used := fun r hr => ?_ }
    -- Only those who are alive come into use, and everyone alive is known already.
    rcases List.mem_append.1 hr with hr | hr
    · exact hw.of_alive (ha _ hr)
    · exact hw.used r hr
  | releaseSubscriber s =>
    have hw : Known (past ++ []) w := hw.mono [] rfl rfl rfl
    exact { hw with used := fun r hr => hw.used r (List.mem_of_mem_erase hr) }
  | rename hn =>
    have hw : Known (past ++ []) w := hw.mono [] rfl rfl rfl
    cases hn with
    | dropWatcher id => exact { hw with named := fun r hr => hw.named r (Holder.holds_drop _ _ hr) }
    | _ => exact { hw with }
  | _ => exact hw.mono _ rfl rfl rfl

inductive Attends (w : World) : List Happening → World → Prop
  | nobody {hs : List Happening} {w' : World} : (∀ x ∈ hs, ¬x.OfWatcher) →
      w.watchers.size ≤ w'.watchers.size →
      (∀ r : Ref .watcher, r.index < w.watchers.size →
        (w'.watchers.get r).value = (w.watchers.get r).value) → Attends w hs w'
  | made {hs : List Happening} {w' : World} (v : Value) : (∀ x ∈ hs, ¬x.OfWatcher) →
      w'.watchers.size = w.watchers.size + 1 →
      (∀ r : Ref .watcher, r.index < w.watchers.size →
        (w'.watchers.get r).value = (w.watchers.get r).value) →
      (w'.watchers.get w.watchers.fresh).value = v →
      Attends w (hs ++ [.made w.watchers.fresh v]) w'
  | called {hs : List Happening} {w' : World} {r : Ref .watcher} (callback : Callback)
      (new : Value) : .watcher r ∈ w.subscribersInUse →
      (w.watchers.get r).value.same new = false → w'.watchers = (w.remember r new).watchers →
      (∀ x ∈ hs, ¬x.OfWatcher) →
      Attends w (.called r callback { new, old := (w.watchers.get r).value } :: hs) w'

theorem Attends.of_watchers (hn : ∀ x ∈ hs, ¬x.OfWatcher) (hw : w'.watchers = w.watchers) :
    w.Attends hs w' :=
  .nobody hn (Nat.le_of_eq (by rw [hw])) fun r _ => by rw [hw]

theorem Glances.silent (h : w.Glances hs w') : ∀ x ∈ hs, ¬x.OfWatcher := by
  intro x hx
  obtain ⟨p, rfl⟩ := Glances.computed h x hx
  exact id

theorem Attends.of_eq {w₁ : World} (h : w.Attends hs w₁) (he : w'.watchers = w₁.watchers) :
    w.Attends hs w' := by
  cases h with
  | nobody hn hsize hvalue =>
    rw [← he] at hsize hvalue
    exact .nobody hn hsize hvalue
  | made v hn hsize hvalue hnew =>
    rw [← he] at hsize hvalue hnew
    exact .made v hn hsize hvalue hnew
  | called callback new hr hn hw hs => exact .called callback new hr hn (he.trans hw) hs

theorem Makes.value {watcher : Watcher} {n : Nat} {v : Value} (h : w.Makes watcher n hs v w') :
    (w'.watchers.get w.watchers.fresh).value = v := by
  cases h with
  | intro h _ =>
    apply value_remember_self
    rw [(Glances.sameFrame h).watchers, size_addWatcher]
    exact Nat.lt_succ_self _

theorem Makes.attends {watcher : Watcher} {n : Nat} {v : Value} (h : w.Makes watcher n hs v w') :
    w.Attends (hs ++ [.made w.watchers.fresh v]) w' := by
  have hothers (r : Ref .watcher) (hr : r.index < w.watchers.size) :
      (w'.watchers.get r).value = (w.watchers.get r).value := by rw [h.get_watcher hr]
  refine .made _ ?_ h.size hothers h.value
  cases h with
  | intro h _ => exact Glances.silent h

theorem Move.attends (h : w.Move P hs w') : w.Attends hs w' := by
  have nothing : ∀ x ∈ ([] : List Happening), ¬x.OfWatcher := List.forall_mem_nil _
  cases h with
  | glance h => exact .of_watchers (Glances.silent (.single h)) h.sameFrame.watchers
  | prune => exact .of_watchers nothing (SameFrame.setRegistry w _ _).watchers
  | prepare =>
    refine .nobody nothing ?_ fun r hr => ?_
    · rw [size_addWatcher]
      exact Nat.le_succ _
    · rw [addWatcher, Store.get_add_of_lt _ _ hr]
  | watch _ h => exact h.attends.of_eq rfl
  | hold _ _ h => exact h.attends.of_eq rfl
  | @call _ _ r _ new hr _ _ hn =>
    have hw := startCallback_watchers (w.remember r new) r (w.watchers.get r).model
      { new, old := (w.watchers.get r).value } (w.watchers.get r).callback
    generalize (w.watchers.get r).callback = callback at hw ⊢
    refine .called callback new hr hn hw ?_
    cases callback with
    | write => exact List.forall_mem_singleton.2 id
    | _ => exact nothing
  | define => exact .of_watchers (List.forall_mem_singleton.2 id) rfl
  | method => exact .of_watchers (List.forall_mem_singleton.2 id) rfl
  | write => exact .of_watchers (List.forall_mem_singleton.2 id) rfl
  | listen => exact .of_watchers (List.forall_mem_singleton.2 id) rfl
  | «show» => exact .of_watchers (List.forall_mem_singleton.2 id) rfl
  | _ => exact .of_watchers nothing rfl

/-- Everything that happened to the watchers so far, put together: the callbacks of each are linked,
from the value it was made with to the one it has. -/
structure Linked (past : List Happening) (w : World) : Prop where
  made : ∀ r v, .made r v ∈ past → r.index < w.watchers.size
  called : ∀ r, callsOf r past ≠ [] → Made past r
  changes : ∀ r first, .made r first ∈ past →
    Change.Linked first (callsOf r past) (w.watchers.get r).value

theorem empty_linked : Linked [] {} where
  made _ _ h := absurd h List.not_mem_nil
  called _ h := absurd rfl h
  changes _ _ h := absurd h List.not_mem_nil

theorem Linked.nobody (hp : Linked past w) (hn : ∀ x ∈ hs, ¬x.OfWatcher)
    (hsize : w.watchers.size ≤ w'.watchers.size)
    (hvalue : ∀ r : Ref .watcher, r.index < w.watchers.size →
      (w'.watchers.get r).value = (w.watchers.get r).value) : Linked (past ++ hs) w' := by
  have hcalls (r : Ref .watcher) : callsOf r (past ++ hs) = callsOf r past := by
    rw [callsOf_append, callsOf_eq_nil hn, List.append_nil]
  have hmade (r : Ref .watcher) (v : Value) (h : .made r v ∈ past ++ hs) : .made r v ∈ past :=
    (List.mem_append.1 h).resolve_right fun h => hn (.made r v) h trivial
  exact {
    made := fun r v h => Nat.lt_of_lt_of_le (hp.made r v (hmade r v h)) hsize
    called := fun r h => (hp.called r (hcalls r ▸ h)).append hs
    changes := fun r first h => by
      have hpast := hmade r first h
      rw [hcalls, hvalue r (hp.made r first hpast)]
      exact hp.changes r first hpast }

theorem Linked.add (hp : Linked past w) {v : Value}
    (hsize : w'.watchers.size = w.watchers.size + 1)
    (hvalue : ∀ r : Ref .watcher, r.index < w.watchers.size →
      (w'.watchers.get r).value = (w.watchers.get r).value)
    (hnew : (w'.watchers.get w.watchers.fresh).value = v) :
    Linked (past ++ [.made w.watchers.fresh v]) w' := by
  have hcalls (r : Ref .watcher) :
      callsOf r (past ++ [.made w.watchers.fresh v]) = callsOf r past := by
    rw [callsOf_append]
    exact List.append_nil _
  have hmade (r : Ref .watcher) (u : Value) (h : .made r u ∈ past ++ [.made w.watchers.fresh v]) :
      .made r u ∈ past ∨ r = w.watchers.fresh ∧ u = v := by
    rcases List.mem_append.1 h with h | h
    · exact .inl h
    · cases List.mem_singleton.1 h
      exact .inr ⟨rfl, rfl⟩
  -- Nothing can have happened to the new watcher, since none had its number.
  have hnone : callsOf w.watchers.fresh past = [] := by
    by_contra h
    obtain ⟨first, h⟩ := hp.called _ h
    exact fresh_not_lt _ (hp.made _ first h)
  refine ⟨fun r u h => ?_, fun r h => (hp.called r (hcalls r ▸ h)).append _, fun r first h => ?_⟩
  · rw [hsize]
    rcases hmade r u h with h | ⟨rfl, -⟩
    · exact Nat.lt_succ_of_lt (hp.made r u h)
    · exact Nat.lt_succ_self _
  · rw [hcalls]
    rcases hmade r first h with h | ⟨rfl, rfl⟩
    · rw [hvalue r (hp.made r first h)]
      exact hp.changes r first h
    · rw [hnone]
      exact hnew

theorem Linked.call (hp : Linked past w) {r : Ref .watcher} (hr : Made past r)
    (callback : Callback) {new : Value} (hn : (w.watchers.get r).value.same new = false)
    (hw : w'.watchers = (w.remember r new).watchers) :
    Linked (past ++ [.called r callback { new, old := (w.watchers.get r).value }]) w' := by
  obtain ⟨first, hfirst⟩ := hr
  have hlt := hp.made r first hfirst
  have hmade (r' : Ref .watcher) (u : Value) (h : .made r' u ∈
      past ++ [.called r callback { new, old := (w.watchers.get r).value }]) : .made r' u ∈ past :=
    (List.mem_append.1 h).resolve_right fun h => nomatch List.mem_singleton.1 h
  have hself : callsOf r [.called r callback { new, old := (w.watchers.get r).value }] =
      [{ new, old := (w.watchers.get r).value }] := by simp [callsOf]
  have hother (r' : Ref .watcher) (hne : r ≠ r') :
      callsOf r' [.called r callback { new, old := (w.watchers.get r).value }] = [] := by
    simp [callsOf, hne]
  refine ⟨fun r' u h => ?_, fun r' h => ?_, fun r' first h => ?_⟩
  · rw [hw, size_remember]
    exact hp.made r' u (hmade r' u h)
  · by_cases e : r = r'
    · subst e
      exact Made.append ⟨first, hfirst⟩ _
    · rw [callsOf_append, hother r' e, List.append_nil] at h
      exact (hp.called r' h).append _
  · have hpast := hp.changes r' first (hmade r' first h)
    rw [callsOf_append, hw]
    by_cases e : r = r'
    · -- The watcher had the value that its last callback was told, and this one is told it as old.
      subst e
      rw [hself, value_remember_self w hlt]
      exact hpast.snoc hn
    · rw [hother r' e, List.append_nil, remember, Store.get_modify_of_ne _ _ e]
      exact hpast

theorem Attends.linked (h : w.Attends hs w') (hk : Known past w) (hp : Linked past w) :
    Linked (past ++ hs) w' := by
  cases h with
  | nobody hn hsize hvalue => exact hp.nobody hn hsize hvalue
  | @made hs _ v hn hsize hvalue hnew =>
    have hq : Linked (past ++ hs) w := hp.nobody hn (Nat.le_refl _) fun _ _ => rfl
    rw [← List.append_assoc]
    exact hq.add hsize hvalue hnew
  | @called hs _ r callback new hused hn hw hquiet =>
    have hcalled := hp.call (hk.used _ hused) callback hn hw
    have hall := hcalled.nobody hquiet (Nat.le_refl _) fun _ _ => rfl
    rwa [List.append_assoc] at hall

/-- Every watcher that there is was made before, and its callbacks are linked. -/
theorem Past.linked (h : w.Past) : Known w.trace.toList w ∧ Linked w.trace.toList w :=
  Along.keeps (I := fun past w => Known past w ∧ Linked past w)
    (fun _ _ _ _ hmove hp => ⟨hmove.known hp.1, hmove.attends.linked hp.1 hp.2⟩) []
    h ⟨empty_known, empty_linked⟩

theorem toList_trace_create {n : Nat} {m : Ref .model} {path : String} {callback : Callback}
    {r : Ref .watcher}
    (h : Watcher.create (Engine.ofFuel n).compute m path callback w = some (.ok r, w')) :
    ∃ hs, w'.trace.toList = w.trace.toList ++ (hs ++ [.made r (w'.watchers.get r).value]) := by
  obtain ⟨-, ⟨⟨g, he⟩, -⟩ | ⟨p, hs, v, he, hmakes⟩⟩ :=
    Watcher.create_cases (P := fun _ => True) callback
      (by cases callback <;> first | trivial | exact Step.everyAll_of_forall (fun _ => trivial) _) h
  · cases he
  · cases he
    refine ⟨hs, ?_⟩
    rw [hmakes.value]
    exact hmakes.trace

/-- At every moment of a run every watcher that is alive or was called was made before, and the
callbacks of it so far lead from the value it was made with to the value it has: each is told the
value that the one before led to, and another one that is not the same. The trace tells all that
the run shows up to its end. -/
theorem calls_linked {trees : List Markup} {steps : List Step} {w₀ : World}
    (h₀ : World.ofTrees trees = some w₀) :
    (∀ x, Deed.Reaches (.session steps, w₀) x → ∀ r,
      ((Deed.outset x).alive (.watcher r) ∨ callsOf r (Deed.outset x).trace.toList ≠ [] →
        ∃ first, .made r first ∈ (Deed.outset x).trace.toList) ∧
      ∀ first, .made r first ∈ (Deed.outset x).trace.toList →
        Change.Linked first (callsOf r (Deed.outset x).trace.toList)
          ((Deed.outset x).watchers.get r).value) ∧
    (∀ n m path callback v r v',
      Watcher.create (Engine.ofFuel n).compute m path callback v = some (.ok r, v') →
        ∃ hs, v'.trace.toList = v.trace.toList ++ (hs ++ [.made r (v'.watchers.get r).value])) ∧
    ∀ n outcomes w, w₀.steps (Engine.ofFuel n) steps = some (outcomes, w) →
      Deed.Reaches (.session steps, w₀) (.session [], w) ∧
        w.trace.toList.filterMap Happening.effect? =
          outcomes.flatMap (·.effects.toList) := by
  refine ⟨fun x hx r => ?_, fun _ _ _ _ _ _ _ => toList_trace_create, fun n outcomes w h =>
    ⟨Deed.reaches_end h, (steps_past h₀ h).2⟩⟩
  obtain ⟨hknown, hlinked⟩ := (hx.past h₀).linked
  refine ⟨fun hr => ?_, hlinked.changes r⟩
  rcases hr with hr | hr
  · exact hknown.of_alive hr
  · exact hlinked.called r hr

/-- A watcher whose callback writes what it watches, and then fails. -/
def revised : List Step :=
  [.build none (some (.data (.object [("a", .string "x")]))) [] [],
    .watcher none "u" "a" [.write none "a" (.data (.string "z")), .fail "no"],
    .write none "a" (.data (.string "y"))]

theorem calls_linked_revised : ∃ (w₀ w : World) (outcomes : List Outcome) (first : Value),
    World.ofTrees [] = some w₀ ∧ w₀.steps (Engine.ofFuel 4) revised = some (outcomes, w) ∧
      Deed.Reaches (.session revised, w₀) (.session [], w) ∧ w.alive (.watcher ⟨0⟩) ∧
      (w.watchers.get ⟨0⟩).value.text = "z" ∧ .made ⟨0⟩ first ∈ w.trace.toList ∧
      (callsOf ⟨0⟩ w.trace.toList).map (·.new.text) = ["y", "z"] ∧
      Change.Linked first (callsOf ⟨0⟩ w.trace.toList) (w.watchers.get ⟨0⟩).value := by
  have hrun : ((World.ofTrees []).bind fun w => (w.steps (Engine.ofFuel 4) revised).map fun p =>
      p.2.alive (.watcher ⟨0⟩) && (p.2.watchers.get ⟨0⟩).value.text == "z" &&
        (callsOf ⟨0⟩ p.2.trace.toList).map (·.new.text) == ["y", "z"]) = some true := by
    decide +kernel
  obtain ⟨w₀, h₀, h⟩ := Option.bind_eq_some_iff.1 hrun
  obtain ⟨⟨outcomes, w⟩, hw, hc⟩ := Option.map_eq_some_iff.1 h
  simp only [Bool.and_eq_true, beq_iff_eq] at hc
  obtain ⟨⟨ha, ht⟩, hcalls⟩ := hc
  obtain ⟨hall, -, hends⟩ := @calls_linked [] revised w₀ h₀
  obtain ⟨hend, -⟩ := hends 4 outcomes w hw
  obtain ⟨hmade, hlinked⟩ := hall _ hend ⟨0⟩
  obtain ⟨first, hfirst⟩ := hmade (.inl ha)
  exact ⟨w₀, w, outcomes, first, h₀, hw, hend, ha, ht, hfirst, hcalls, hlinked first hfirst⟩

end World

end ViewBinding
