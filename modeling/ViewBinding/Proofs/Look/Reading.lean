import ViewBinding.Proofs.Look

/-! An evaluation is a look that leaves its marks: it registers its subscriber with every source it
read, in that order, reports the computed properties it worked out, and changes nothing else. -/

namespace ViewBinding

def Mark.leave : Mark → Evaluation × World → Evaluation × World
  | .computed p, (e, w) => (e, w.tell (.computed p))
  | .read source, (e, w) =>
    match e.subscriber with
    | none => (e, w)
    | some s =>
      match (w.registry source).add? s with
      | none => (e, w)
      | some registry =>
        ({ e with registrations := e.registrations + 1 }, w.setRegistry source registry)

def Mark.leaveAll (ms : List Mark) (p : Evaluation × World) : Evaluation × World :=
  ms.foldl (fun p m => m.leave p) p

@[simp] theorem Mark.leaveAll_nil (p : Evaluation × World) : Mark.leaveAll [] p = p := rfl

@[simp] theorem Mark.leaveAll_cons (m : Mark) (ms : List Mark) (p : Evaluation × World) :
    Mark.leaveAll (m :: ms) p = Mark.leaveAll ms (m.leave p) := rfl

theorem Mark.leaveAll_append (ms ns : List Mark) (p : Evaluation × World) :
    Mark.leaveAll (ms ++ ns) p = Mark.leaveAll ns (Mark.leaveAll ms p) :=
  List.foldl_append

theorem World.slot?_modify_waiting (w : World) (o : Ref .object) (f : Object → Keyed Registry)
    (o' : Ref .object) (key : String) :
    World.slot? { w with objects := w.objects.modify o fun object =>
      { object with waiting := f object } } o' key = w.slot? o' key := by
  simp only [World.slot?, Store.get, Store.get?_modify]
  split
  · cases w.objects.get? o' <;> rfl
  · rfl

theorem World.value_modify_registry (w : World) (c : Ref .cell) (f : Cell → Registry)
    (c' : Ref .cell) :
    ((w.cells.modify c fun cell => { cell with registry := f cell }).get c').value =
      (w.cells.get c').value := by
  simp only [Store.get, Store.get?_modify]
  split
  · cases w.cells.get? c' <;> rfl
  · rfl

@[simp] theorem World.sight_setRegistry (w : World) (source : Source) (registry : Registry) :
    (w.setRegistry source registry).sight = w.sight := by
  cases source with
  | cell c =>
    have h := w.value_modify_registry c fun _ => registry
    simp only [World.sight, World.setRegistry, h]
    rfl
  | waiting o key =>
    have h := w.slot?_modify_waiting o fun object => object.waiting.insert key registry
    simp only [World.sight, World.setRegistry]
    congr 1
    funext o' key'
    exact h o' key'
  | registry r => rfl

theorem Mark.sight_leave (m : Mark) (p : Evaluation × World) : (m.leave p).2.sight = p.2.sight := by
  obtain ⟨e, w⟩ := p
  cases m with
  | computed name => rfl
  | read source =>
    rw [Mark.leave]
    split
    · rfl
    · split
      · rfl
      · exact World.sight_setRegistry ..

@[simp] theorem Mark.sight_leaveAll (ms : List Mark) (p : Evaluation × World) :
    (Mark.leaveAll ms p).2.sight = p.2.sight := by
  induction ms generalizing p with
  | nil => rfl
  | cons m ms ih => rw [Mark.leaveAll_cons, ih, Mark.sight_leave]

theorem Mark.view_leaveAll (ms : List Mark) (p : Evaluation × World) :
    (Mark.leaveAll ms p).2.view = p.2.view := by
  induction ms generalizing p with
  | nil => rfl
  | cons m ms ih =>
    obtain ⟨⟨s, k⟩, w⟩ := p
    rw [leaveAll_cons, ih, leave.eq_def]
    cases m with
    | computed name => rfl
    | read source =>
      cases s with
      | none => rfl
      | some s =>
        dsimp only
        cases (w.registry source).add? s with
        | none => rfl
        | some registry => cases source <;> rfl

theorem Mark.leaveAll_nobody (ms : List Mark) (w : World) :
    ∃ es, (Mark.leaveAll ms ({}, w)).2 = { w with trace := es } := by
  induction ms generalizing w with
  | nil => exact ⟨w.trace, rfl⟩
  | cons m ms ih =>
    cases m with
    | read source => exact ih w
    | computed p =>
      obtain ⟨es, h⟩ := ih (w.tell (.computed p))
      exact ⟨es, h⟩

def Look.leave {α : Type} (l : Look α) (e : Evaluation) (w : World) :
    Option ((Except Fault α × Evaluation) × World) :=
  l.run.map fun (r, ms) => ((r, (Mark.leaveAll ms (e, w)).1), (Mark.leaveAll ms (e, w)).2)

def Reading.Sees {α : Type} (x : Reading α) (l : Sight → Look α) : Prop :=
  ∀ e w, w.sight.Steady → x e w = (l w.sight).leave e w

namespace Reading

variable {α β : Type}

theorem bind_apply (x : Reading α) (f : α → Reading β) (e : Evaluation) (w : World) :
    (x >>= f) e w =
      match x e w with
      | none => none
      | some ((.error g, e'), w') => some ((.error g, e'), w')
      | some ((.ok a, e'), w') => f a e' w' := by
  show (x e w).bind _ = _
  cases x e w with
  | none => rfl
  | some p => obtain ⟨⟨⟨⟩, _⟩, _⟩ := p <;> rfl

theorem outcome_apply (x : Reading α) (e : Evaluation) (w : World) :
    Script.outcome x e w = (x e w).map fun p => ((.ok p.1.1, p.1.2), p.2) := by
  show Option.bind (Option.bind (x e w) _) _ = _
  cases x e w with
  | none => rfl
  | some p => obtain ⟨⟨⟨⟩, _⟩, _⟩ := p <;> rfl

theorem Sees.pure (a : α) : Sees (Pure.pure a : Reading α) fun _ => Pure.pure a :=
  fun _ _ _ => rfl

theorem Sees.fail (f : Fault) : Sees (throw f : Reading α) fun _ => Look.fail f :=
  fun _ _ _ => rfl

theorem Sees.ofExcept (r : Except Fault α) :
    Sees (MonadExcept.ofExcept r : Reading α) fun _ => Look.ofExcept r := by
  intro e w _
  cases r <;> rfl

theorem Sees.bind {x : Reading α} {l : Sight → Look α} {f : α → Reading β} {k : α → Sight → Look β}
    (hx : Sees x l) (hf : ∀ a, Sees (f a) (k a)) :
    Sees (x >>= f) fun d => l d >>= fun a => k a d := by
  intro e w hw
  rw [bind_apply, hx e w hw, Look.leave, Look.leave, Look.run_bind]
  cases (l w.sight).run with
  | none => rfl
  | some p =>
    obtain ⟨g | a, ms⟩ := p
    · rfl
    · have hs := Mark.sight_leaveAll ms (e, w)
      have ha := hf a (Mark.leaveAll ms (e, w)).1 (Mark.leaveAll ms (e, w)).2 (hs ▸ hw)
      rw [hs] at ha
      simp only [Option.map_some, Option.bind_some, Look.next_ok, ha, Look.leave, Option.map_map]
      congr 1
      funext q
      simp only [Function.comp, Mark.leaveAll_append]

theorem getWorld_bind (f : World → Reading α) (e : Evaluation) (w : World) :
    (getThe World >>= f) e w = f w e w := rfl

theorem getEvaluation_bind (f : Evaluation → Reading α) (e : Evaluation) (w : World) :
    (getThe Evaluation >>= f) e w = f e e w := rfl

theorem register_apply (source : Source) (e : Evaluation) (w : World) :
    register source e w = some ((.ok (), ((Mark.read source).leave (e, w)).1),
      ((Mark.read source).leave (e, w)).2) := by
  obtain ⟨s?, n⟩ := e
  cases s? with
  | none => rfl
  | some s =>
    rw [Mark.leave, Reading.register, getEvaluation_bind]
    dsimp only
    rw [getWorld_bind]
    cases (w.registry source).add? s <;> rfl

theorem Sees.register (source : Source) :
    Sees (register source) fun _ => Look.mark (.read source) :=
  fun e w _ => register_apply source e w

theorem Sees.cell (c : Ref .cell) : Sees (Cell.read c) fun d => Cell.look d c := by
  refine Sees.bind (Sees.register (.cell c)) fun _ e w _ => ?_
  rfl

section

variable {compute : Computed → Reading Value} {sight : Sight → Computed → Look Value}
  (hc : ∀ p : Computed, p.body.Steady → Sees (compute p) fun d => sight d p)

include hc

theorem Sees.object (o : Ref .object) (key : String) :
    Sees (Object.read compute o key) fun d => Object.look d (sight d) o key := by
  intro e w hw
  rw [Object.read, getWorld_bind]
  have hs : w.sight.slot? o key = w.slot? o key := rfl
  simp only [Object.look, hs]
  cases h : w.slot? o key with
  | none =>
    exact Sees.bind (Sees.register (.waiting o key)) (fun _ => Sees.pure Value.null) e w hw
  | some slot =>
    cases slot with
    | cell c => exact Sees.cell c e w hw
    | computed p => exact hc p (hw o key p h) e w hw

theorem Sees.follow (p : Path) (segments : List String) (v : Value) :
    Sees (p.follow compute segments v) fun d => p.lookFrom d (sight d) segments v := by
  induction segments generalizing v with
  | nil => exact Sees.pure v
  | cons segment rest ih =>
    exact Sees.bind (Sees.ofExcept _) fun o => Sees.bind (Sees.object hc o segment) ih

theorem Sees.resolve (p : Path) (root : Ref .object) :
    Sees (p.resolve compute root) fun d => p.look d (sight d) root :=
  Sees.follow hc p p.segments (.object root)

theorem Sees.model (m : Ref .model) (path : String) :
    Sees (ViewModel.read compute m path) fun d => ViewModel.look d (sight d) m path := by
  refine Sees.bind (Sees.ofExcept _) fun p e w hw => ?_
  rw [getWorld_bind]
  exact Sees.resolve hc p _ e w hw

theorem Sees.frame (f : Frame) (name : Option String) (path : String) :
    Sees (f.read compute name path) fun d => f.look d (sight d) name path := by
  intro e w hw
  have hf : f.findModel w name = f.seek w.sight name := by cases name <;> rfl
  rw [Frame.read, getWorld_bind, hf]
  exact Sees.bind (Sees.ofExcept (f.seek w.sight name)) (Sees.model hc · path) e w hw

end

theorem Mark.leaveAll_untracked (ms : List Mark) (e : Evaluation) (n : Nat) (w : World) :
    Mark.leaveAll (ms.filter Mark.isComputed) (e, w) =
      (e, (Mark.leaveAll ms (⟨none, n⟩, w)).2) := by
  induction ms generalizing w with
  | nil => rfl
  | cons m ms ih =>
    cases m with
    | read source => exact ih w
    | computed name => exact ih _

theorem once_eq_map (x : Reading α) (w : World) :
    x.once w = (x {} w).map fun p => (p.1.1, p.2) := by
  show Option.bind (Option.map _ (x {} w)) _ = _
  cases x {} w with
  | none => rfl
  | some p => obtain ⟨⟨⟨⟩, _⟩, _⟩ := p <;> rfl

theorem track_eq_map (s : Subscriber) (x : Reading α) (w : World) :
    x.track s w = (x { subscriber := some s } w).map fun p => (p.1.1, p.2) := by
  show Option.bind (Option.map _ (x { subscriber := some s } w)) _ = _
  cases x { subscriber := some s } w with
  | none => rfl
  | some p => obtain ⟨⟨⟨⟩, _⟩, _⟩ := p <;> rfl

theorem Sees.untracked {x : Reading α} {l : Sight → Look α} (hx : Sees x l) :
    Sees (ofAction x.once) fun d => (l d).untracked := by
  intro e w hw
  have h : ofAction x.once e w = (x ⟨none, 0⟩ w).map fun p => ((p.1.1, e), p.2) := by
    rw [ofAction, once_eq_map, Option.map_map]
    rfl
  rw [h, hx _ _ hw]
  simp only [Look.leave, Look.untracked, Option.map_map]
  congr 1
  funext p
  simp only [Function.comp, Mark.leaveAll_untracked p.2 e 0 w]

section

variable {compute : Computed → Reading Value} {sight : Sight → Computed → Look Value}

mutual

/-- A steady expression is evaluated as it is seen, if computed properties are. -/
theorem Sees.expr (hc : ∀ p : Computed, p.body.Steady → Sees (compute p) fun d => sight d p)
    (f : Frame) : ∀ x : Expr, x.Steady →
    Sees (x.eval compute f) fun d => x.look d (sight d) f
  | .data doc, h => by
    cases doc with
    | array items => cases h
    | object fields => cases h
    | _ => exact fun _ _ _ => rfl
  | .number x, _ => Sees.pure _
  | .get model path, _ => Sees.frame hc f model path
  | .peek model path, _ => Sees.untracked (Sees.frame hc f model path)
  | .property object key, h =>
    Sees.bind (Sees.expr hc f object h.1) fun u => Sees.bind (Sees.expr hc f key h.2) fun k => by
      cases hu : u.object? with
      | none => exact Sees.fail _
      | some o => exact Sees.object hc o k.text
  | .root model, _ => by
    intro e w hw
    have hf : f.findModel w (some model) = f.seek w.sight (some model) := rfl
    simp only [Expr.eval, Expr.look, getWorld_bind, hf]
    cases f.seek w.sight (some model) <;> rfl
  | .saved name, _ => by
    intro e w hw
    have hv : w.sight.saved? name = w.names.values[name]? := rfl
    simp only [Expr.eval, getWorld_bind, Expr.look, hv]
    cases w.names.values[name]? <;> rfl
  | .array _, h => h.1.elim
  | .concat parts, h => Sees.bind (Sees.exprs hc f parts h) fun _ => Sees.pure _
  | .add a b, h =>
    Sees.bind (Sees.expr hc f a h.1) fun _ => Sees.bind (Sees.expr hc f b h.2) fun _ => Sees.pure _
  | .mul a b, h =>
    Sees.bind (Sees.expr hc f a h.1) fun _ => Sees.bind (Sees.expr hc f b h.2) fun _ => Sees.pure _
  | .less a b, h =>
    Sees.bind (Sees.expr hc f a h.1) fun _ => Sees.bind (Sees.expr hc f b h.2) fun _ => Sees.pure _
  | .same a b, h =>
    Sees.bind (Sees.expr hc f a h.1) fun _ => Sees.bind (Sees.expr hc f b h.2) fun _ => Sees.pure _
  | .cond test yes no, h =>
    Sees.bind (Sees.expr hc f test h.1) fun v => by
      cases hv : v.isTrue with
      | true => exact Sees.expr hc f yes h.2.1
      | false => exact Sees.expr hc f no h.2.2
  | .sort e, h => Sees.bind (Sees.expr hc f e h) fun _ => Sees.pure _
  | .fail message, _ => Sees.fail _
  | .tracking, h => nomatch h
  | .registrations, h => nomatch h
  | .argument which, _ => Sees.pure _

theorem Sees.exprs (hc : ∀ p : Computed, p.body.Steady → Sees (compute p) fun d => sight d p)
    (f : Frame) : ∀ xs : List Expr, Expr.EachAll Expr.Firm xs →
    Sees (Expr.evalAll compute f xs) fun d => Expr.lookAll d (sight d) f xs
  | [], _ => Sees.pure _
  | x :: xs, h =>
    Sees.bind (Sees.expr hc f x h.1) fun _ =>
      Sees.bind (Sees.exprs hc f xs h.2) fun _ => Sees.pure _

end

end

theorem Sees.compute (fuel : Nat) (p : Computed) (hp : p.body.Steady) :
    Sees ((Engine.ofFuel fuel).compute p) fun d => d.compute fuel p := by
  induction fuel generalizing p with
  | zero => exact fun _ _ _ => rfl
  | succ fuel ih =>
    intro e w hw
    show Computed.eval (Engine.ofFuel fuel).compute p e w = _
    rw [Computed.eval, getWorld_bind]
    have hm : w.sight.alive p.model = w.modelAlive p.model := rfl
    cases h : w.modelAlive p.model with
    | false =>
      simp only [Sight.compute, hm, h]
      rfl
    | true =>
      simp only [Sight.compute, hm, h]
      exact Sees.bind (l := fun _ => Look.mark (.computed p)) (fun _ _ _ => rfl)
        (fun _ => Sees.expr ih _ p.body hp) e w hw

end Reading

end ViewBinding
