import ViewBinding.Proofs.Course.Moves
import ViewBinding.Proofs.Growth

/-! What every course keeps, whatever is done on the way. -/

namespace ViewBinding.World

variable {R S : World → List Happening → World → Prop} {P : Step → Prop} {w w' w'' : World}
  {hs hs' : List Happening}

namespace Along

theorem single (h : R w hs w') : w.Along R hs w' := .snoc (.nil w) h

theorem trans (h : w.Along R hs w') (h' : w'.Along R hs' w'') : w.Along R (hs ++ hs') w'' := by
  induction h' with
  | nil => rwa [List.append_nil]
  | snoc _ hstep ih =>
    rw [← List.append_assoc]
    exact .snoc ih hstep

theorem map (hRS : ∀ w hs w', R w hs w' → S w hs w') (h : w.Along R hs w') : w.Along S hs w' := by
  induction h with
  | nil => exact .nil w
  | snoc _ hstep ih => exact .snoc ih (hRS _ _ _ hstep)

/-- What each single thing keeps is kept throughout. `I` may depend on all that happened so far. -/
theorem keeps {I : List Happening → World → Prop}
    (hI : ∀ past w hs w', R w hs w' → I past w → I (past ++ hs) w') (past : List Happening)
    (h : w.Along R hs w') (hw : I past w) : I (past ++ hs) w' := by
  induction h with
  | nil => rwa [List.append_nil]
  | snoc _ hstep ih =>
    rw [← List.append_assoc]
    exact hI _ _ _ _ hstep ih

/-- A reflexive and transitive relation that holds from before to after each single thing holds
from the first world to the last. -/
theorem relates {T : World → World → Prop} (hT : ∀ w hs w', R w hs w' → T w w')
    (hrefl : ∀ w, T w w) (htrans : ∀ w w' w'', T w w' → T w' w'' → T w w'')
    (h : w.Along R hs w') : T w w' := by
  induction h with
  | nil => exact hrefl w
  | snoc _ hstep ih => exact htrans _ _ _ ih (hT _ _ _ hstep)

end Along

abbrev Glances : World → List Happening → World → Prop := Along Glance

/-- All that is done in a part of a run whose steps all meet a condition. -/
abbrev Course (P : Step → Prop) : World → List Happening → World → Prop := Along (Move P)

theorem Glances.course (h : w.Glances hs w') : w.Course P hs w' := h.map fun _ _ _ => .glance

/-- Everything but data, registries of sources and the trace. Reading leaves it alone. -/
structure SameFrame (w w' : World) : Prop where
  watchers : w'.watchers = w.watchers
  reactions : w'.reactions = w.reactions
  models : w'.models = w.models
  view : w'.view = w.view
  names : w'.names = w.names
  modelsInUse : w'.modelsInUse = w.modelsInUse
  subscribersInUse : w'.subscribersInUse = w.subscribersInUse

namespace SameFrame

theorem refl (w : World) : w.SameFrame w := ⟨rfl, rfl, rfl, rfl, rfl, rfl, rfl⟩

theorem trans (h : w.SameFrame w') (h' : w'.SameFrame w'') : w.SameFrame w'' where
  watchers := h'.watchers.trans h.watchers
  reactions := h'.reactions.trans h.reactions
  models := h'.models.trans h.models
  view := h'.view.trans h.view
  names := h'.names.trans h.names
  modelsInUse := h'.modelsInUse.trans h.modelsInUse
  subscribersInUse := h'.subscribersInUse.trans h.subscribersInUse

end SameFrame

mutual

theorem observe_sameFrame : ∀ (d : Document) (w : World),
    w.SameFrame (observe d w).2 ∧ (observe d w).2.trace = w.trace
  | .null, w => ⟨.refl w, rfl⟩
  | .bool _, w => ⟨.refl w, rfl⟩
  | .number _, w => ⟨.refl w, rfl⟩
  | .string _, w => ⟨.refl w, rfl⟩
  | .array items, w => by
    obtain ⟨hf, ht⟩ := observeItems_sameFrame items w
    exact ⟨hf.trans ⟨rfl, rfl, rfl, rfl, rfl, rfl, rfl⟩, ht⟩
  | .object fields, w => by
    obtain ⟨hf, ht⟩ := observeFields_sameFrame fields ∅ w
    exact ⟨hf.trans ⟨rfl, rfl, rfl, rfl, rfl, rfl, rfl⟩, ht⟩

theorem observeItems_sameFrame : ∀ (ds : List Document) (w : World),
    w.SameFrame (observeItems ds w).2 ∧ (observeItems ds w).2.trace = w.trace
  | [], w => ⟨.refl w, rfl⟩
  | d :: ds, w => by
    obtain ⟨hf, ht⟩ := observe_sameFrame d w
    obtain ⟨hf', ht'⟩ := observeItems_sameFrame ds (observe d w).2
    exact ⟨hf.trans hf', ht'.trans ht⟩

theorem observeFields_sameFrame :
    ∀ (fields : List (String × Document)) (slots : Keyed Slot) (w : World),
      w.SameFrame (observeFields fields slots w).2 ∧
        (observeFields fields slots w).2.trace = w.trace
  | [], _, w => ⟨.refl w, rfl⟩
  | (key, d) :: fields, slots, w => by
    obtain ⟨hf, ht⟩ := observe_sameFrame d w
    have hc : (observe d w).2.SameFrame ((observe d w).2.addCell (observe d w).1).2 :=
      ⟨rfl, rfl, rfl, rfl, rfl, rfl, rfl⟩
    obtain ⟨hf', ht'⟩ := observeFields_sameFrame fields
      (slots.insert key (.cell (observe d w).2.cells.fresh))
      ((observe d w).2.addCell (observe d w).1).2
    exact ⟨(hf.trans hc).trans hf', ht'.trans ht⟩

end

theorem slot?_setRegistry (source : Source) (registry : Registry) (o : Ref .object)
    (key : String) : (w.setRegistry source registry).slot? o key = w.slot? o key := by
  cases source with
  | waiting o' key' =>
    exact w.slot?_modify_waiting o' (fun object => object.waiting.insert key' registry) o key
  | _ => rfl

theorem SameFrame.setRegistry (w : World) (source : Source) (registry : Registry) :
    w.SameFrame (w.setRegistry source registry) := by
  cases source <;> exact ⟨rfl, rfl, rfl, rfl, rfl, rfl, rfl⟩

theorem Glance.sameFrame (h : w.Glance hs w') : w.SameFrame w' := by
  cases h with
  | register => exact .setRegistry w _ _
  | observe d => exact (observe_sameFrame d w).1
  | array => exact ⟨rfl, rfl, rfl, rfl, rfl, rfl, rfl⟩
  | computed => exact ⟨rfl, rfl, rfl, rfl, rfl, rfl, rfl⟩

theorem Glances.sameFrame (h : w.Glances hs w') : w.SameFrame w' :=
  h.relates (fun _ _ _ => Glance.sameFrame) .refl fun _ _ _ => .trans

theorem Glances.computed (h : w.Glances hs w') : ∀ x ∈ hs, ∃ p, x = .computed p := by
  induction h with
  | nil => exact List.forall_mem_nil _
  | snoc _ hglance ih =>
    refine List.forall_mem_append.2 ⟨ih, ?_⟩
    cases hglance with
    | computed => exact List.forall_mem_singleton.2 ⟨_, rfl⟩
    | _ => exact List.forall_mem_nil _

section Stored

variable {v : Value} {r : Ref .watcher}

theorem SameFrame.stored (h : w.SameFrame w') (hs : w.Stored P) : w'.Stored P where
  callback := by simpa only [h.watchers] using hs.callback
  methods := by simpa only [h.models] using hs.methods
  reaction := by simpa only [h.reactions] using hs.reaction

theorem Stored.addWatcher (hs : w.Stored P) {watcher : Watcher} (hc : watcher.callback.Every P) :
    (w.addWatcher watcher).Stored P := by
  refine { hs with callback := fun r => ?_ }
  rw [World.addWatcher, Store.get_add]
  split
  · exact hc
  · exact hs.callback r

theorem callback_remember (w : World) (r r' : Ref .watcher) (v : Value) :
    ((w.remember r v).watchers.get r').callback = (w.watchers.get r').callback := by
  obtain e | ⟨-, e⟩ := w.remember_cases r r' v <;> rw [e]

theorem Stored.remember (hs : w.Stored P) : (w.remember r v).Stored P := by
  refine { hs with callback := fun r' => ?_ }
  rw [callback_remember]
  exact hs.callback r'

theorem Makes.stored {watcher : Watcher} {n : Nat} (h : w.Makes watcher n hs v w')
    (hc : watcher.callback.Every P) (hw : w.Stored P) : w'.Stored P := by
  cases h with
  | intro h _ =>
    have hm := (SameFrame.stored (Glances.sameFrame h) (hw.addWatcher hc)).remember
      (r := w.watchers.fresh) (v := v)
    exact ⟨hm.callback, hm.methods, hm.reaction⟩

theorem Stored.keepWatcher (hs : w.Stored P) (m : Ref .model) (r : Ref .watcher) :
    (w.keepWatcher m r).Stored P := by
  refine { hs with methods := fun hc m' name steps h => hs.methods hc m' name steps ?_ }
  rw [World.keepWatcher] at h
  rcases w.models.get_modify_cases m m' fun model =>
    { model with watchers := model.watchers ++ [r] } with e | ⟨-, -, e⟩ <;> rwa [e] at h

theorem sight_keepWatcher (w : World) (m : Ref .model) (r : Ref .watcher) :
    (w.keepWatcher m r).sight = w.sight := by
  have hroot (m' : Ref .model) :
      ((w.keepWatcher m r).models.get m').data = (w.models.get m').data := by
    obtain e | ⟨-, -, e⟩ := w.models.get_modify_cases m m' fun model =>
      { model with watchers := model.watchers ++ [r] }
    · exact congrArg ViewModel.data e
    · exact (congrArg ViewModel.data e :)
  simp only [sight, hroot]
  rfl

theorem startCallback_watchers (w : World) (r : Ref .watcher) (m : Ref .model) (change : Change)
    (callback : Callback) : (w.startCallback r m change callback).watchers = w.watchers := by
  cases callback <;> rfl

theorem Stored.startCallback (hs : w.Stored P) (r : Ref .watcher) (m : Ref .model)
    (change : Change) (callback : Callback) : (w.startCallback r m change callback).Stored P := by
  cases callback <;> exact ⟨hs.callback, hs.methods, hs.reaction⟩

theorem Stored.addModel (hs : w.Stored P) {model : ViewModel}
    (hm : Callable P → ∀ (name : String) steps, model.methods[name]? = some steps →
      Step.EveryAll P steps) :
    ({ w with models := w.models.add model } : World).Stored P := by
  refine { hs with methods := fun hc m name steps h => ?_ }
  rw [Store.get_add] at h
  split at h
  · exact hm hc name steps h
  · exact hs.methods hc m name steps h

theorem Move.stored (h : w.Move P hs w') (hw : w.Stored P) : w'.Stored P := by
  cases h with
  | glance h => exact h.sameFrame.stored hw
  | prepare hc => exact hw.addWatcher hc
  | watch hc h => exact ((h.stored hc hw).keepWatcher _ _)
  | hold id hc h =>
    have hm := h.stored hc hw
    exact ⟨hm.callback, hm.methods, hm.reaction⟩
  | call => exact (Stored.remember hw).startCallback _ _ _ _
  | prune => exact (SameFrame.setRegistry w _ _).stored hw
  | addReaction _ _ hr =>
    refine { hw with reaction := fun r => ?_ }
    rw [Store.get_add]
    split
    · exact hr
    · exact hw.reaction r
  | build _ _ _ _ hm =>
    have ha := hw.addModel hm
    exact ⟨ha.callback, ha.methods, ha.reaction⟩
  | mount _ _ _ hm =>
    have ha := hw.addModel hm
    exact ⟨ha.callback, ha.methods, ha.reaction⟩
  -- No other move brings a script into the world.
  | _ => exact ⟨hw.callback, hw.methods, hw.reaction⟩

theorem Course.stored (h : w.Course P hs w') (hw : w.Stored P) : w'.Stored P :=
  Along.keeps (I := fun _ w => w.Stored P) (fun _ _ _ _ h => h.stored) [] h hw

end Stored

section Watchers

variable {r : Ref .watcher}

theorem size_addWatcher (w : World) (watcher : Watcher) :
    (w.addWatcher watcher).watchers.size = w.watchers.size + 1 := Store.size_add ..

theorem size_remember (w : World) (r : Ref .watcher) (v : Value) :
    (w.remember r v).watchers.size = w.watchers.size := Store.size_modify ..

theorem registry_addWatcher (w : World) (watcher : Watcher) (source : Source) :
    (w.addWatcher watcher).registry source = w.registry source := by
  cases source <;> rfl

theorem registry_remember (w : World) (r : Ref .watcher) (u : Value) (source : Source) :
    (w.remember r u).registry source = w.registry source := by
  cases source <;> rfl

theorem Makes.size {watcher : Watcher} {n : Nat} {v : Value} (h : w.Makes watcher n hs v w') :
    w'.watchers.size = w.watchers.size + 1 := by
  cases h with
  | intro h _ =>
    exact (size_remember ..).trans (by rw [(Glances.sameFrame h).watchers, size_addWatcher])

theorem Makes.frame {watcher : Watcher} {n : Nat} {v : Value} (h : w.Makes watcher n hs v w') :
    w'.names = w.names ∧ w'.models = w.models ∧ w'.subscribersInUse = w.subscribersInUse ∧
      w'.view = w.view := by
  cases h with
  | intro h _ =>
    have hf := Glances.sameFrame h
    exact ⟨hf.names, hf.models, hf.subscribersInUse, hf.view⟩

theorem Makes.get_watcher {watcher : Watcher} {n : Nat} {v : Value}
    (h : w.Makes watcher n hs v w') (hr : r.index < w.watchers.size) :
    w'.watchers.get r = w.watchers.get r := by
  cases h with
  | intro h _ =>
    have hne : w.watchers.fresh ≠ r := by
      rintro rfl
      exact Nat.lt_irrefl _ hr
    refine (Store.get_modify_of_ne _ _ hne).trans ?_
    rw [(Glances.sameFrame h).watchers, addWatcher, Store.get_add_of_lt _ _ hr]

theorem Move.same_watcher (h : w.Move P hs w') (hr : r.index < w.watchers.size) :
    r.index < w'.watchers.size ∧ (w'.watchers.get r).callback = (w.watchers.get r).callback ∧
      (w'.watchers.get r).model = (w.watchers.get r).model := by
  have same (h : w'.watchers = w.watchers) : r.index < w'.watchers.size ∧
      (w'.watchers.get r).callback = (w.watchers.get r).callback ∧
        (w'.watchers.get r).model = (w.watchers.get r).model := by
    rw [h]
    exact ⟨hr, rfl, rfl⟩
  cases h with
  | glance h => exact same h.sameFrame.watchers
  | prune => exact same (SameFrame.setRegistry w _ _).watchers
  | prepare =>
    rw [size_addWatcher, addWatcher, Store.get_add_of_lt _ _ hr]
    exact ⟨Nat.lt_succ_of_lt hr, rfl, rfl⟩
  | watch _ h =>
    rw [keepWatcher, h.size, h.get_watcher hr]
    exact ⟨Nat.lt_succ_of_lt hr, rfl, rfl⟩
  | hold _ _ h =>
    rw [h.size, h.get_watcher hr]
    exact ⟨Nat.lt_succ_of_lt hr, rfl, rfl⟩
  | call =>
    rw [startCallback_watchers, size_remember, callback_remember, model_remember]
    exact ⟨hr, rfl, rfl⟩
  | _ => exact same rfl

theorem Course.same_watcher (h : w.Course P hs w') (hr : r.index < w.watchers.size) :
    r.index < w'.watchers.size ∧ (w'.watchers.get r).callback = (w.watchers.get r).callback ∧
      (w'.watchers.get r).model = (w.watchers.get r).model := by
  induction h with
  | nil => exact ⟨hr, rfl, rfl⟩
  | snoc _ hmove ih =>
    obtain ⟨hr', hc, hm⟩ := Move.same_watcher hmove ih.1
    exact ⟨hr', hc.trans ih.2.1, hm.trans ih.2.2⟩

theorem Move.watcher (h : w.Move P hs w') (hr : r.index < w.watchers.size) :
    r.index < w'.watchers.size ∧ (w'.watchers.get r).callback = (w.watchers.get r).callback :=
  (h.same_watcher hr).imp_right And.left

theorem Course.watcher (h : w.Course P hs w') (hr : r.index < w.watchers.size) :
    r.index < w'.watchers.size ∧ (w'.watchers.get r).callback = (w.watchers.get r).callback :=
  (Course.same_watcher h hr).imp_right And.left

end Watchers

section Trace

theorem trace_setRegistry (w : World) (source : Source) (registry : Registry) :
    (w.setRegistry source registry).trace = w.trace := by
  cases source <;> rfl

theorem toList_trace_tell (w : World) (x : Happening) :
    (w.tell x).trace.toList = w.trace.toList ++ [x] := Array.toList_push

theorem Glance.trace (h : w.Glance hs w') : w'.trace.toList = w.trace.toList ++ hs := by
  cases h with
  | register => rw [trace_setRegistry, List.append_nil]
  | observe d => rw [(observe_sameFrame d w).2, List.append_nil]
  | array => exact (List.append_nil _).symm
  | computed => exact toList_trace_tell ..

/-- The trace tells all that happens on the way. -/
theorem Along.trace (hR : ∀ w hs w', R w hs w' → w'.trace.toList = w.trace.toList ++ hs)
    (h : w.Along R hs w') : w'.trace.toList = w.trace.toList ++ hs := by
  induction h with
  | nil => rw [List.append_nil]
  | snoc _ hstep ih => rw [hR _ _ _ hstep, ih, List.append_assoc]

theorem Makes.trace {watcher : Watcher} {n : Nat} {v : Value} (h : w.Makes watcher n hs v w') :
    w'.trace.toList = w.trace.toList ++ (hs ++ [.made w.watchers.fresh v]) := by
  cases h with
  | intro h _ =>
    have ht := h.trace fun _ _ _ => Glance.trace
    rw [toList_trace_tell, ← List.append_assoc]
    exact congrArg (· ++ [_]) ht

theorem toList_trace_startCallback (w : World) (r : Ref .watcher) (m : Ref .model)
    (change : Change) (callback : Callback) :
    (w.startCallback r m change callback).trace.toList =
      w.trace.toList ++ callback.start r m change := by
  cases callback with
  | write =>
    exact (toList_trace_tell ..).trans
      ((congrArg (· ++ [_]) (toList_trace_tell ..)).trans (List.append_assoc ..))
  | _ => exact toList_trace_tell ..

theorem Move.trace (h : w.Move P hs w') : w'.trace.toList = w.trace.toList ++ hs := by
  cases h with
  | glance h => exact h.trace
  | watch _ h => exact h.trace
  | hold _ _ h => exact h.trace
  | call => exact toList_trace_startCallback ..
  | define => exact toList_trace_tell ..
  | prune => rw [trace_setRegistry, List.append_nil]
  | method => exact toList_trace_tell ..
  | write => exact toList_trace_tell ..
  | listen => exact toList_trace_tell ..
  | «show» => exact toList_trace_tell ..
  | _ => exact (List.append_nil _).symm

theorem Course.trace (h : w.Course P hs w') : w'.trace.toList = w.trace.toList ++ hs :=
  Along.trace (fun _ _ _ => Move.trace) h

end Trace

end ViewBinding.World
