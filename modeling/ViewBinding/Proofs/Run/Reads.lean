import ViewBinding.Proofs.Goes
import ViewBinding.Proofs.Look.Within

/-! Evaluations go onward, and leave the watcher they are for settled. -/

namespace ViewBinding

variable {w w' : World} {n : Nat}

theorem Reading.Sees.goes {x : Reading Value} {l : Sight → Look Value} (hx : x.Sees l)
    (hw : w.Valid) (hl : (l w.sight).Within w (Value.Within w.objects.size)) :
    x.Goes w fun v w' => v.Within w'.objects.size := by
  intro e r e' w' h
  rw [hx e w hw.tracked.steady] at h
  obtain ⟨⟨r', ms⟩, hr, he⟩ := Option.map_eq_some_iff.1 h
  cases he
  have hn := World.Noted.leaveAll ms (e, w)
  refine ⟨hn.onward hw, fun v hv => ?_⟩
  exact ((hl _ _ hr).2 v hv).mono (Nat.le_of_eq hn.objects.symm)

theorem Object.read_goes (hw : w.Valid) {o : Ref .object} (ho : o.index < w.objects.size)
    (key : String) : (Object.read (Engine.ofFuel n).compute o key).Goes w
      fun v w' => v.Within w'.objects.size :=
  (Reading.Sees.object (Reading.Sees.compute n) o key).goes hw
    (Object.look_within hw.closed (hw.bounded n) ho key)

theorem Path.follow_goes (hw : w.Valid) (p : Path) (segments : List String) {v : Value}
    (hv : v.Within w.objects.size) : (p.follow (Engine.ofFuel n).compute segments v).Goes w
      fun v w' => v.Within w'.objects.size :=
  (Reading.Sees.follow (Reading.Sees.compute n) p segments v).goes hw
    (Path.lookFrom_within hw.closed (hw.bounded n) p segments hv)

theorem ViewModel.read_goes (hw : w.Valid) {m : Ref .model} (hm : m.index < w.models.size)
    (path : String) : (ViewModel.read (Engine.ofFuel n).compute m path).Goes w
      fun v w' => v.Within w'.objects.size :=
  (Reading.Sees.model (Reading.Sees.compute n) m path).goes hw
    (ViewModel.look_within hw.closed (hw.bounded n) hm path)

structure Frame.Valid (f : Frame) (w : World) : Prop where
  model : ∀ m, f.model = some m → m ∈ w.modelsInUse
  change : ∀ c, f.change = some c → c.new.Within w.objects.size ∧ c.old.Within w.objects.size

namespace Frame

variable {f : Frame}

theorem Valid.onward (h : f.Valid w) (ho : w.Onward w') : f.Valid w' where
  model m hm := by
    rw [ho.used]
    exact h.model m hm
  change c hc := (h.change c hc).imp (·.mono ho.objects) (·.mono ho.objects)

theorem Valid.useModel (h : f.Valid w) (m : Ref .model) : f.Valid (w.useModel m) :=
  ⟨fun m' hm' => List.mem_cons_of_mem m (h.model m' hm'), h.change⟩

theorem modelAlive_of_findModel (h : ∀ m, f.model = some m → m ∈ w.modelsInUse)
    {name : Option String} {m : Ref .model} (hm : f.findModel w name = .ok m) :
    w.modelAlive m := by
  have hf (name : String) (hn : Frame.findModel.found w name = .ok m) : w.modelAlive m := by
    rw [findModel.found] at hn
    cases hh : w.names.models.held[name]? with
    | none =>
      rw [hh] at hn
      cases hn
    | some m' =>
      rw [hh] at hn
      cases hn
      exact (World.modelAlive_iff m).2 (.inl ((Holder.holds_iff _ m).2 ⟨name, hh⟩))
  cases name with
  | some name => exact hf name hm
  | none =>
    simp only [Frame.findModel] at hm
    cases hm' : f.model with
    | none =>
      rw [hm'] at hm
      exact hf "main" hm
    | some m' =>
      rw [hm'] at hm
      cases hm
      exact (World.modelAlive_iff m).2 (.inr (h m hm'))

theorem Valid.findModel (h : f.Valid w) {name : Option String} {m : Ref .model}
    (hm : f.findModel w name = .ok m) : w.modelAlive m := modelAlive_of_findModel h.model hm

theorem read_goes (hw : w.Valid) (hf : f.Valid w) (name : Option String) (path : String) :
    (f.read (Engine.ofFuel n).compute name path).Goes w fun v w' => v.Within w'.objects.size := by
  refine .getWorld (.bind (Q := fun m w' => m.index < w'.models.size) (.ofExcept hw fun m hm => ?_)
    fun m w' ho hm => ViewModel.read_goes ho.valid hm path)
  exact hw.lt_of_modelAlive (hf.findModel hm)

theorem Valid.argument (hf : f.Valid w) (which : Argument) :
    (f.argument which).Within w.objects.size := by
  cases which with
  | new =>
    cases hc : f.change with
    | none => simp [Frame.argument, hc, Value.Within, Value.object?]
    | some c => simpa [Frame.argument, hc] using (hf.change c hc).1
  | old =>
    cases hc : f.change with
    | none => simp [Frame.argument, hc, Value.Within, Value.object?]
    | some c => simpa [Frame.argument, hc] using (hf.change c hc).2
  | kind => cases hc : f.event <;> simp [Frame.argument, hc, Value.Within, Value.object?]
  | value =>
    cases hc : f.event.bind Event.value <;> simp [Frame.argument, hc, Value.Within, Value.object?]

end Frame

section

open Reading.Goes

variable {f : Frame}

theorem Reading.Goes.operands {x y : Reading Value} {g : Value → Value → Value}
    (hg : ∀ u v, (g u v).object? = none) (hx : x.Goes w fun v w' => v.Within w'.objects.size)
    (hy : ∀ w', w.Onward w' → y.Goes w' fun v w' => v.Within w'.objects.size) :
    (do let u ← x; let v ← y; return g u v : Reading Value).Goes w
      fun v w' => v.Within w'.objects.size :=
  bind hx fun u w' ho _ => bind (hy w' ho) fun v _ ho' _ =>
    pure ho'.valid (Value.within_of_object? (hg u v))

mutual

theorem Expr.eval_goes : ∀ (x : Expr) {w : World}, w.Valid → f.Valid w →
    (x.eval (Engine.ofFuel n).compute f).Goes w fun v w' => v.Within w'.objects.size
  | .data d, w, hw, _ =>
    modifyGet ((World.observe_grown d w).1.onward hw) (World.observe_grown d w).2
  | .number _, _, hw, _ => pure hw (Value.within_of_object? rfl)
  | .get model path, _, hw, hf => Frame.read_goes hw hf model path
  | .peek model path, _, hw, hf => ofAction (once (Frame.read_goes hw hf model path))
  | .property object key, w, hw, hf => by
    refine bind (eval_goes object hw hf) fun u w₁ ho hu =>
      bind (eval_goes key ho.valid (hf.onward ho)) fun k w₂ ho' _ => ?_
    cases h : u.object? with
    | none => exact throw ho'.valid _
    | some o => exact Object.read_goes ho'.valid (Nat.lt_of_lt_of_le (hu o h) ho'.objects) k.text
  | .root model, w, hw, hf => by
    refine getWorld (bind (Q := fun m w' => (w.models.get m).data.index < w'.objects.size)
      (ofExcept hw fun m hm => ?_) fun m w' ho hm => pure ho.valid fun o h => ?_)
    · exact hw.root m (hw.lt_of_modelAlive (hf.findModel hm))
    · obtain rfl := Option.some.inj h
      exact hm
  | .saved name, w, hw, hf => by
    refine getWorld ?_
    cases h : w.names.values[name]? with
    | none => exact throw hw _
    | some v => exact pure hw (hw.saved name v h)
  | .array items, w, hw, hf =>
    bind (evalAll_goes items hw hf) fun vs w' ho _ =>
      modifyGet ((World.Grown.addArray w' vs).onward ho.valid) (Value.within_of_object? rfl)
  | .concat parts, w, hw, hf =>
    bind (evalAll_goes parts hw hf) fun _ w' ho _ => pure ho.valid (Value.within_of_object? rfl)
  | .add a b, w, hw, hf =>
    operands (fun _ _ => rfl) (eval_goes a hw hf) fun _ ho => eval_goes b ho.valid (hf.onward ho)
  | .mul a b, w, hw, hf =>
    operands (fun _ _ => rfl) (eval_goes a hw hf) fun _ ho => eval_goes b ho.valid (hf.onward ho)
  | .less a b, w, hw, hf =>
    operands (fun _ _ => rfl) (eval_goes a hw hf) fun _ ho => eval_goes b ho.valid (hf.onward ho)
  | .same a b, w, hw, hf =>
    operands (fun _ _ => rfl) (eval_goes a hw hf) fun _ ho => eval_goes b ho.valid (hf.onward ho)
  | .cond test yes no, w, hw, hf =>
    bind (eval_goes test hw hf) fun v w' ho _ => by
      cases hv : v.isTrue with
      | true => exact eval_goes yes ho.valid (hf.onward ho)
      | false => exact eval_goes no ho.valid (hf.onward ho)
  | .sort e, w, hw, hf =>
    bind (eval_goes e hw hf) fun _ w' ho _ => pure ho.valid (Value.within_of_object? rfl)
  | .fail _, _, hw, _ => throw hw _
  | .tracking, _, hw, _ => getEvaluation fun _ => pure hw (Value.within_of_object? rfl)
  | .registrations, _, hw, _ => getEvaluation fun _ => pure hw (Value.within_of_object? rfl)
  | .argument which, _, hw, hf => pure hw (hf.argument which)

theorem Expr.evalAll_goes : ∀ (xs : List Expr) {w : World}, w.Valid → f.Valid w →
    (Expr.evalAll (Engine.ofFuel n).compute f xs).Goes w fun _ _ => True
  | [], _, hw, _ => pure hw trivial
  | x :: xs, _, hw, hf =>
    bind (eval_goes x hw hf) fun _ _ ho _ =>
      bind (evalAll_goes xs ho.valid (hf.onward ho)) fun _ _ ho' _ => pure ho'.valid trivial

end

end

namespace Watcher

theorem evaluate_apply (hw : w.sight.Steady) (r : Ref .watcher) :
    evaluate (Engine.ofFuel n).compute r w = (w.look n r).run.map fun (res, ms) =>
      (res, (Mark.leaveAll ms ({ subscriber := some (.watcher r) }, w)).2) := by
  have hs := Reading.Sees.resolve (Reading.Sees.compute n) (w.watchers.get r).path
    (w.models.get (w.watchers.get r).model).data { subscriber := some (.watcher r) } w hw
  show Option.bind (Option.map _ (Path.resolve _ _ _ _ _)) _ = _
  rw [hs]
  cases h : (w.look n r).run with
  | none =>
    rw [World.look] at h
    simp only [Look.leave, h]
    rfl
  | some p =>
    obtain ⟨⟨⟩, ms⟩ := p <;>
    · rw [World.look] at h
      simp only [Look.leave, h]
      rfl

/-- An evaluated watcher is registered with all that it read. -/
theorem evaluate_notes (hw : w.Valid) {r : Ref .watcher} (hr : r.index < w.watchers.size)
    {res : Except Fault Value} (h : evaluate (Engine.ofFuel n).compute r w = some (res, w')) :
    w.Noted w' ∧ w'.Tracks r res ∧ ∀ v, res = .ok v → v.Within w'.objects.size := by
  rw [evaluate_apply hw.tracked.steady, Option.map_eq_some_iff] at h
  obtain ⟨⟨res', ms⟩, hl, he⟩ := h
  cases he
  have hn := World.Noted.leaveAll ms ({ subscriber := some (.watcher r) }, w)
  have hroot : (Value.object (w.models.get (w.watchers.get r).model).data).Within
      w.objects.size := by
    intro o ho
    obtain rfl := Option.some.inj ho
    exact hw.root _ (hw.model r hr)
  obtain ⟨hs, hv⟩ := Path.lookFrom_within hw.closed (hw.bounded n) (w.watchers.get r).path
    (w.watchers.get r).path.segments hroot _ _ hl
  refine ⟨hn, ⟨n, ms, ?_, fun source hm => ?_⟩, fun v h => ?_⟩
  · have hl' : (Mark.leaveAll ms ({ subscriber := some (.watcher r) }, w)).2.look n r =
        w.look n r := by
      simp only [World.look, hn.sight, hn.watchers, hn.models]
    exact hl' ▸ hl
  · exact Mark.mem_order_leaveAll hw.sound rfl (hs source hm) hm
  · exact (hv v h).mono (Nat.le_of_eq hn.objects.symm)

end Watcher

end ViewBinding
