import ViewBinding.Proofs.Fuel
import ViewBinding.Proofs.Strata.Deeds

/-! Actions that come to an end with every engine that goes far enough, and readings that do so
wherever computed properties are total. -/

namespace ViewBinding

variable {α β : Type} {w w' : World}

namespace World

theorem Glances.touches {hs : List Happening} (h : w.Glances hs w') :
    Relation.ReflTransGen Touches w w' :=
  h.relates (fun _ _ _ hg => .single (.glance hg)) (fun _ => .refl) fun _ _ _ => .trans

theorem Total.glances {hs : List Happening} (hw : w.Total) (h : w.Glances hs w') : w'.Total :=
  fun w'' h' => hw w'' (h.touches.trans h')

theorem Total.tell (hw : w.Total) (x : Happening) : (w.tell x).Total :=
  fun w' h => hw w' (.head (.tell x) h)

theorem Total.useModel (hw : w.Total) (m : Ref .model) : (w.useModel m).Total :=
  fun w' h => hw w' (.head (.use m) h)

end World

/-- Whether a reading has an outcome, with every engine that goes far enough, wherever computed
properties are total, and leaves them total. -/
def Reading.Sure (x : Engine → Reading α) : Prop :=
  ∀ e w, w.Total → ∃ n q, (∀ k, n ≤ k → x (.ofFuel k) e w = some q) ∧ q.2.Total

/-- Whether an action has an outcome wherever computed properties are total, and leaves them
total. -/
def Action.Sure (x : Engine → Action α) : Prop :=
  ∀ w, w.Total → ∃ p, Action.HasOutcome x w p ∧ p.2.Total

namespace Action

theorem HasOutcome.eq {x : Engine → Action α} {p q : Except Fault α × World}
    (hp : HasOutcome x w p) (hq : HasOutcome x w q) : p = q := by
  obtain ⟨n, hn⟩ := hp
  obtain ⟨n', hn'⟩ := hq
  have h := (hn (max n n') (Nat.le_max_left n n')).symm.trans (hn' _ (Nat.le_max_right n n'))
  exact Option.some.inj h

theorem HasOutcome.bind {x : Engine → Action α} {f : Engine → α → Action β} {a : α}
    {q : Except Fault β × World} (hx : HasOutcome x w (.ok a, w'))
    (hf : HasOutcome (fun e => f e a) w' q) : HasOutcome (fun e => x e >>= f e) w q := by
  obtain ⟨n, hn⟩ := hx
  obtain ⟨n', hn'⟩ := hf
  refine ⟨max n n', fun k hk => ?_⟩
  show (x _ >>= f _) w = _
  rw [bind_apply, hn k (by omega)]
  exact hn' k (by omega)

theorem HasOutcome.fault {x : Engine → Action α} {f : Engine → α → Action β} {g : Fault}
    (hx : HasOutcome x w (.error g, w')) : HasOutcome (fun e => x e >>= f e) w (.error g, w') := by
  obtain ⟨n, hn⟩ := hx
  refine ⟨n, fun k hk => ?_⟩
  show (x _ >>= f _) w = _
  rw [bind_apply, hn k hk]

namespace Returns

theorem of_eq {x : Action α} {p : Except Fault α × World} (h : x w = some p) :
    Returns (fun _ => x) w := ⟨p, 0, fun _ _ => h⟩

theorem pure (a : α) : Returns (fun _ => (Pure.pure a : Action α)) w := of_eq rfl

theorem throw (f : Fault) : Returns (fun _ => (MonadExcept.throw f : Action α)) w := of_eq rfl

theorem get {f : Engine → World → Action α} (h : Returns (fun e => f e w) w) :
    Returns (fun e => MonadState.get >>= f e) w := h

theorem modify {g : World → World} {f : Engine → Action α} (h : Returns f (g w)) :
    Returns (fun e => (modify g : Action Unit) >>= fun _ => f e) w := h

theorem ofExcept {r : Except Fault α} {f : Engine → α → Action β}
    (h : ∀ a, r = .ok a → Returns (fun e => f e a) w) :
    Returns (fun e => (MonadExcept.ofExcept r : Action α) >>= f e) w := by
  cases r with
  | error g => exact ⟨(.error g, w), 0, fun _ _ => rfl⟩
  | ok a => exact h a rfl

theorem require {g : Fault} {a? : Option α} {f : Engine → α → Action β}
    (h : ∀ a, a? = some a → Returns (fun e => f e a) w) :
    Returns (fun e => Action.require g a? >>= f e) w := by
  cases a? with
  | none => exact ⟨(.error g, w), 0, fun _ _ => rfl⟩
  | some a => exact h a rfl

theorem bind {x : Engine → Action α} {f : Engine → α → Action β} (hx : Returns x w)
    (hf : ∀ a w', HasOutcome x w (.ok a, w') → Returns (fun e => f e a) w') :
    Returns (fun e => x e >>= f e) w := by
  obtain ⟨⟨g | a, w'⟩, hx⟩ := hx
  · exact ⟨_, hx.fault⟩
  · obtain ⟨q, hq⟩ := hf a w' hx
    exact ⟨q, hx.bind hq⟩

theorem map {x : Engine → Action α} (hx : Returns x w) (f : α → β) :
    Returns (fun e => x e >>= fun a => Pure.pure (f a)) w :=
  bind hx fun a _ _ => pure (f a)

theorem sure {x : Engine → Action α} {f : Engine → α → Action β} (hw : w.Total) (hx : Sure x)
    (hf : ∀ a w', HasOutcome x w (.ok a, w') → w'.Total → Returns (fun e => f e a) w') :
    Returns (fun e => x e >>= f e) w := by
  obtain ⟨p, hp, ht⟩ := hx w hw
  refine bind ⟨p, hp⟩ fun a w' ha => hf a w' ha ?_
  cases hp.eq ha
  exact ht

theorem of_map {x : Engine → Action α} {y : Engine → Action β}
    {g : Except Fault β × World → Except Fault α × World} (h : ∀ e, x e w = (y e w').map g)
    (hy : Returns y w') : Returns x w := by
  obtain ⟨p, n, hn⟩ := hy
  refine ⟨g p, n, fun k hk => ?_⟩
  rw [h, hn k hk, Option.map_some]

theorem usingModel {x : Engine → Action α} {m : Ref .model} (hx : Returns x (w.useModel m)) :
    Returns (fun e => Action.usingModel m (x e)) w :=
  of_map (fun _ => usingModel_apply ..) hx

theorem faultOf {x : Engine → Action Unit} (hx : Returns x w) :
    Returns (fun e => (x e).faultOf) w := by
  obtain ⟨⟨r, w'⟩, n, hn⟩ := hx
  refine ⟨(.ok (match r with | .error f => some f | .ok _ => none), w'), n, fun k hk => ?_⟩
  show (x _).faultOf w = _
  rw [faultOf_apply, hn k hk]
  cases r <;> rfl

theorem withModel {f : Frame} {name : Option String} {x : Engine → Ref .model → Action α}
    (hx : ∀ m, f.findModel w name = .ok m → Returns (fun e => x e m) (w.useModel m)) :
    Returns (fun e => Script.withModel f name (x e)) w :=
  get (ofExcept fun m hm => usingModel (hx m hm))

end Returns

namespace Sure

theorem returns {x : Engine → Action α} (hx : Sure x) (hw : w.Total) : Returns x w :=
  (hx w hw).imp fun _ h => h.1

theorem pure (a : α) : Sure fun _ => (Pure.pure a : Action α) :=
  fun w hw => ⟨(.ok a, w), ⟨0, fun _ _ => rfl⟩, hw⟩

theorem throw (f : Fault) : Sure fun _ => (MonadExcept.throw f : Action α) :=
  fun w hw => ⟨(.error f, w), ⟨0, fun _ _ => rfl⟩, hw⟩

theorem ofExcept (r : Except Fault α) : Sure fun _ => (MonadExcept.ofExcept r : Action α) := by
  cases r with
  | error f => exact throw f
  | ok a => exact pure a

theorem get {f : Engine → World → Action α} (h : ∀ w, Sure fun e => f e w) :
    Sure fun e => MonadState.get >>= f e := fun w hw => h w w hw

theorem bind {x : Engine → Action α} {f : Engine → α → Action β} (hx : Sure x)
    (hf : ∀ a, Sure fun e => f e a) : Sure fun e => x e >>= f e := by
  intro w hw
  obtain ⟨⟨g | a, w'⟩, hx, hw'⟩ := hx w hw
  · exact ⟨_, hx.fault, hw'⟩
  · obtain ⟨q, hq, ht⟩ := hf a w' hw'
    exact ⟨q, hx.bind hq, ht⟩

theorem mapM {l : List β} {f : Engine → β → Action α} (hf : ∀ b, Sure fun e => f e b) :
    Sure fun e => l.mapM (f e) := by
  induction l with
  | nil => exact pure []
  | cons b l ih =>
    simp only [List.mapM_cons]
    exact bind (hf b) fun a => bind ih fun as => pure (a :: as)

end Sure

end Action

namespace Reading.Sure

theorem pure (a : α) : Sure fun _ => (Pure.pure a : Reading α) :=
  fun e w hw => ⟨0, ((.ok a, e), w), fun _ _ => rfl, hw⟩

theorem throw (f : Fault) : Sure fun _ => (MonadExcept.throw f : Reading α) :=
  fun e w hw => ⟨0, ((.error f, e), w), fun _ _ => rfl, hw⟩

theorem ofExcept (r : Except Fault α) : Sure fun _ => (MonadExcept.ofExcept r : Reading α) := by
  cases r with
  | error f => exact throw f
  | ok a => exact pure a

theorem bind {x : Engine → Reading α} {f : Engine → α → Reading β} (hx : Sure x)
    (hf : ∀ a, Sure fun e => f e a) : Sure fun e => x e >>= f e := by
  intro e w hw
  obtain ⟨n, ⟨⟨r, e₁⟩, w₁⟩, hn, hw₁⟩ := hx e w hw
  cases r with
  | error g =>
    refine ⟨n, ((.error g, e₁), w₁), fun k hk => ?_, hw₁⟩
    show (x _ >>= f _) e w = _
    rw [bind_apply, hn k hk]
  | ok a =>
    obtain ⟨n', q, hn', hq⟩ := hf a e₁ w₁ hw₁
    refine ⟨max n n', q, fun k hk => ?_, hq⟩
    show (x _ >>= f _) e w = _
    rw [bind_apply, hn k (by omega)]
    exact hn' k (by omega)

theorem getWorld {f : Engine → World → Reading α}
    (h : ∀ (e : Evaluation) w, w.Total →
      ∃ n q, (∀ k, n ≤ k → f (.ofFuel k) w e w = some q) ∧ q.2.Total) :
    Sure fun e => getThe World >>= f e := h

theorem modifyGet {f : World → α × World} (h : ∀ w : World, w.Glance [] (f w).2) :
    Sure fun _ => (modifyGetThe World f : Reading α) :=
  fun e w hw => ⟨0, ((.ok (f w).1, e), (f w).2), fun _ _ => rfl, hw.glances (.single (h w))⟩

theorem mapM {l : List β} {f : Engine → β → Reading α} (hf : ∀ b, Sure fun e => f e b) :
    Sure fun e => l.mapM (f e) := by
  induction l with
  | nil => exact pure []
  | cons b l ih =>
    simp only [List.mapM_cons]
    exact bind (hf b) fun a => bind ih fun as => pure (a :: as)

theorem outcome {x : Engine → Reading α} (hx : Sure x) : Sure fun e => Script.outcome (x e) := by
  intro e w hw
  obtain ⟨n, q, hn, hq⟩ := hx e w hw
  refine ⟨n, ((.ok q.1.1, q.1.2), q.2), fun k hk => ?_, hq⟩
  show Script.outcome (x _) e w = _
  rw [outcome_apply, hn k hk]
  rfl

theorem evaluate {x : Engine → Reading α} (hx : Sure x) (s : Option Subscriber) :
    Action.Sure fun e => (x e).evaluate s := by
  intro w hw
  obtain ⟨n, ⟨⟨r, e'⟩, w'⟩, hn, hq⟩ := hx { subscriber := s } w hw
  refine ⟨(.ok (r, e'.registrations), w'), ⟨n, fun k hk => ?_⟩, hq⟩
  show Option.map _ (x _ { subscriber := s } w) = _
  rw [hn k hk]
  rfl

theorem once {x : Engine → Reading α} (hx : Sure x) : Action.Sure fun e => (x e).once :=
  .bind (hx.evaluate none) fun p => .ofExcept p.1

theorem track {x : Engine → Reading α} (hx : Sure x) (s : Subscriber) :
    Action.Sure fun e => (x e).track s :=
  .bind (hx.evaluate (some s)) fun p => .ofExcept p.1

theorem ofAction {x : Engine → Action α} (hx : Action.Sure x) :
    Sure fun e => Reading.ofAction (x e) := by
  intro e w hw
  obtain ⟨⟨r, w'⟩, ⟨n, hn⟩, hq⟩ := hx w hw
  refine ⟨n, ((r, e), w'), fun k hk => ?_, hq⟩
  show Option.map _ (x _ w) = _
  rw [hn k hk]
  rfl

theorem of_eq {x : Reading α} (hp : x.Proceeds) (h : ∀ e w, (x e w).isSome) :
    Sure fun _ => x := by
  intro e w hw
  obtain ⟨⟨⟨r, e'⟩, w'⟩, hq⟩ := Option.isSome_iff_exists.1 (h e w)
  obtain ⟨hs, hg⟩ := hp e w r e' w' hq
  exact ⟨0, _, fun _ _ => hq, hw.glances hg⟩

theorem cell (c : Ref .cell) : Sure fun _ => Cell.read c := by
  refine of_eq (Cell.read_proceeds c) fun e w => ?_
  rw [Cell.read, bind_apply, register_apply]
  rfl

theorem object (o : Ref .object) (key : String) : Sure fun e => Object.read e.compute o key := by
  refine getWorld fun e w hw => ?_
  cases hs : w.slot? o key with
  | none =>
    have ho : w.Open (.waiting o key) := hs
    have hr : (register (.waiting o key) >>= fun _ => Pure.pure Value.null) e w =
        some ((.ok .null, ((Mark.read (.waiting o key)).leave (e, w)).1),
          ((Mark.read (.waiting o key)).leave (e, w)).2) := by
      rw [bind_apply, register_apply]
      rfl
    obtain ⟨_, hg⟩ := Proceeds.register_then (Proceeds.pure Value.null) ho hr
    exact ⟨0, _, fun _ _ => hr, hw.glances hg⟩
  | some slot =>
    cases slot with
    | cell c => exact cell c e w hw
    | computed p =>
      obtain ⟨n, hn⟩ := hw w .refl o key p hs
      obtain ⟨⟨⟨r, e'⟩, w'⟩, hq⟩ := Option.isSome_iff_exists.1 (hn e)
      obtain ⟨hs, hg⟩ := Engine.compute_proceeds n p e w r e' w' hq
      have hk (k : Nat) (hk : n ≤ k) : (Engine.ofFuel k).compute p e w = some ((r, e'), w') :=
        (Engine.ofFuel_below hk).compute p e w _ hq
      exact ⟨n, _, hk, hw.glances hg⟩

theorem follow (p : Path) (segments : List String) (v : Value) :
    Sure fun e => p.follow e.compute segments v := by
  induction segments generalizing v with
  | nil => exact pure v
  | cons segment rest ih => exact bind (ofExcept _) fun o => bind (object o segment) ih

theorem model (m : Ref .model) (path : String) :
    Sure fun e => ViewModel.read e.compute m path :=
  bind (ofExcept _) fun p => getWorld fun e w hw => follow p p.segments _ e w hw

theorem frame (f : Frame) (name : Option String) (path : String) :
    Sure fun e => f.read e.compute name path :=
  getWorld fun e w hw => bind (ofExcept (f.findModel w name)) (model · path) e w hw

mutual

theorem expr (f : Frame) : ∀ x : Expr, Sure fun e => x.eval e.compute f
  | .data d => modifyGet fun w => .observe w d
  | .number _ => pure _
  | .get model path => frame f model path
  | .peek model path => ofAction (frame f model path).once
  | .property object key =>
    bind (expr f object) fun v => bind (expr f key) fun k => by
      cases v.object? with
      | none => exact throw _
      | some o => exact Sure.object o k.text
  | .root model => getWorld fun e w hw =>
    bind (ofExcept (f.findModel w (some model)))
      (fun m => pure (Value.object (w.models.get m).data)) e w hw
  | .saved name => getWorld fun e w hw => by
      cases w.names.values[name]? with
      | none => exact throw _ e w hw
      | some v => exact pure v e w hw
  | .array items => bind (exprs f items) fun vs => modifyGet fun w => .array w vs
  | .concat parts => bind (exprs f parts) fun _ => pure _
  | .add a b => bind (expr f a) fun _ => bind (expr f b) fun _ => pure _
  | .mul a b => bind (expr f a) fun _ => bind (expr f b) fun _ => pure _
  | .less a b => bind (expr f a) fun _ => bind (expr f b) fun _ => pure _
  | .same a b => bind (expr f a) fun _ => bind (expr f b) fun _ => pure _
  | .cond test yes no =>
    bind (expr f test) fun v => by
      cases hv : v.isTrue with
      | true => exact expr f yes
      | false => exact expr f no
  | .sort x => bind (expr f x) fun _ => pure _
  | .fail _ => throw _
  | .tracking => fun e w hw => ⟨0, _, fun _ _ => rfl, hw⟩
  | .registrations => fun e w hw => ⟨0, _, fun _ _ => rfl, hw⟩
  | .argument _ => pure _

theorem exprs (f : Frame) : ∀ xs : List Expr, Sure fun e => Expr.evalAll e.compute f xs
  | [] => pure _
  | x :: xs => bind (expr f x) fun _ => bind (exprs f xs) fun _ => pure _

end

end Reading.Sure

namespace Action.Sure

theorem value (f : Frame) (x : Expr) : Sure fun e => Script.value e f x :=
  (Reading.Sure.expr f x).once

theorem evaluate (r : Ref .watcher) : Sure fun e => Watcher.evaluate e.compute r :=
  get fun w => get fun _ => (Reading.Sure.follow (w.watchers.get r).path _ _).track _

theorem template (t : Template) (m : Ref .model) : Sure fun e => t.render e.compute m := by
  refine bind (mapM fun segment => ?_) fun _ => pure _
  cases segment with
  | literal text => exact pure text
  | path path => exact bind (Reading.Sure.model m path).once fun v => pure v.text

end Action.Sure

end ViewBinding
