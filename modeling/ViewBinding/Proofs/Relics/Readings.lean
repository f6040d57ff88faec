import ViewBinding.Proofs.Assigns.Stops
import ViewBinding.Proofs.Relics.Matches

/-! Reading in worlds that are alike but for relics. It finds the same, or else it comes upon a
computed property of a view-model that is gone. -/

namespace ViewBinding

variable {α β : Type} {b d v u w : World} {relics : Prop} {ahead : Bool} {s : Subscriber}
  {m : Ref .model}

namespace Reading

/-- How two readings may end. If `ahead`, the first is allowed to go on for longer than the second,
and otherwise it is not. -/
inductive Meets (b d : World) (relics : Prop) (ahead : Bool) (Q : α → Prop) (e : Evaluation) :
    Option ((Except Fault α × Evaluation) × World) →
    Option ((Except Fault α × Evaluation) × World) → Prop
  | short {y : Option ((Except Fault α × Evaluation) × World)} : ahead = false →
      Meets b d relics ahead Q e none y
  | late {x : Option ((Except Fault α × Evaluation) × World)} : ahead = true →
      Meets b d relics ahead Q e x none
  | detached {e' : Evaluation} {v : World} {y : Option ((Except Fault α × Evaluation) × World)} :
      relics → Meets b d relics ahead Q e (some ((.error .detached, e'), v)) y
  | same {r : Except Fault α} {e' : Evaluation} {v u : World} : b.Matches d relics v u →
      e'.subscriber = e.subscriber → (∀ a, r = .ok a → Q a) →
      Meets b d relics ahead Q e (some ((r, e'), v)) (some ((r, e'), u))

/-- Whether two readings find the same in worlds that are alike, for whomever is no relic, or the
first comes upon a relic. -/
def Matches (b d : World) (relics : Prop) (ahead : Bool) (x y : Reading α) (Q : α → Prop) : Prop :=
  ∀ e v u, b.Matches d relics v u → (∀ s, e.subscriber = some s → ¬s.Between b d) →
    Meets b d relics ahead Q e (x e v) (y e u)

namespace Matches

variable {x y : Reading α} {Q : α → Prop} {R : β → Prop}

theorem pure {a : α} (h : Q a) : Matches b d relics ahead (Pure.pure a) (Pure.pure a) Q :=
  fun _ _ _ hw _ => .same hw rfl fun a' ha => by cases ha; exact h

theorem throw (f : Fault) :
    Matches b d relics ahead (MonadExcept.throw f : Reading α) (MonadExcept.throw f) Q :=
  fun _ _ _ hw _ => .same hw rfl fun _ ha => nomatch ha

theorem ofExcept {r : Except Fault α} (h : ∀ a, r = .ok a → Q a) :
    Matches b d relics ahead (MonadExcept.ofExcept r : Reading α) (MonadExcept.ofExcept r) Q := by
  cases r with
  | error f => exact throw f
  | ok a => exact pure (h a rfl)

theorem bind {f g : α → Reading β} (hx : Matches b d relics ahead x y Q)
    (hf : ∀ a, Q a → Matches b d relics ahead (f a) (g a) R) :
    Matches b d relics ahead (x >>= f) (y >>= g) R := by
  intro e v u hw hs
  rw [bind_apply, bind_apply]
  have hx' := hx e v u hw hs
  generalize x e v = p at hx'
  generalize y e u = q at hx'
  cases hx' with
  | short ha => exact .short ha
  | late ha => exact .late ha
  | detached hr => exact .detached hr
  | @same r e' v' u' hw' he hq =>
    cases r with
    | error g => exact .same hw' he fun _ ha => nomatch ha
    | ok a =>
      -- Both go on from worlds that match again, for the same subscriber.
      have hf' := hf a (hq a rfl) e' v' u' hw' fun s hs' => hs s (he ▸ hs')
      dsimp only
      generalize f a e' v' = p at hf'
      generalize g a e' u' = q at hf'
      cases hf' with
      | short ha => exact .short ha
      | late ha => exact .late ha
      | detached hr => exact .detached hr
      | same hw'' he' hr => exact .same hw'' (he'.trans he) hr

theorem getWorld {f g : World → Reading α}
    (h : ∀ v u, b.Matches d relics v u → Matches b d relics ahead (f v) (g u) Q) :
    Matches b d relics ahead (getThe World >>= f) (getThe World >>= g) Q :=
  fun e v u hw => h v u hw e v u hw

theorem getEvaluation {f g : Evaluation → Reading α}
    (h : ∀ e, Matches b d relics ahead (f e) (g e) Q) :
    Matches b d relics ahead (getThe Evaluation >>= f) (getThe Evaluation >>= g) Q :=
  fun e v u => h e e v u

theorem modifyGet {g : World → α × World}
    (h : ∀ v u, b.Matches d relics v u →
      (g v).1 = (g u).1 ∧ b.Matches d relics (g v).2 (g u).2 ∧ Q (g u).1) :
    Matches b d relics ahead (modifyGetThe World g) (modifyGetThe World g) Q := by
  intro e v u hw _
  obtain ⟨hr, hw', hq⟩ := h v u hw
  show Meets b d relics ahead Q e (some ((.ok (g v).1, e), (g v).2))
    (some ((.ok (g u).1, e), (g u).2))
  rw [hr]
  exact .same hw' rfl fun a ha => by cases ha; exact hq

theorem tell (x : Happening) : Matches b d relics ahead (Reading.ofAction (Action.tell x))
    (Reading.ofAction (Action.tell x)) fun _ => True :=
  fun _ _ _ hw _ => .same (hw.tell x) rfl fun _ _ => trivial

theorem once (hx : Matches b d relics ahead x y Q) :
    Matches b d relics ahead (Reading.ofAction x.once) (Reading.ofAction y.once) Q := by
  intro e v u hw _
  have hx' := hx {} v u hw fun s hs => by cases hs
  show Meets b d relics ahead Q e ((x.once v).map _) ((y.once u).map _)
  rw [once_eq_map, once_eq_map]
  generalize x {} v = p at hx'
  generalize y {} u = q at hx'
  cases hx' with
  | short ha => exact .short ha
  | late ha => exact .late ha
  | detached hr => exact .detached hr
  | same hw' _ hq => exact .same hw' rfl hq

theorem register (source : Source) :
    Matches b d relics ahead (Reading.register source) (Reading.register source) fun _ => True := by
  rintro ⟨s?, n⟩ v u hw hs
  cases s? with
  | none => exact .same hw rfl fun _ _ => trivial
  | some s =>
    rw [World.register_eq, World.register_eq]
    obtain ⟨hv, hu⟩ | ⟨r, r', hv, hu, hw'⟩ := hw.add? (hs s rfl) source
    · rw [hv, hu]
      exact .same hw rfl fun _ _ => trivial
    · rw [hv, hu]
      exact .same hw' rfl fun _ _ => trivial

theorem cell {c : Ref .cell} (hc : ¬c.Between b.cells.size d.cells.size) :
    Matches b d relics ahead (Cell.read c) (Cell.read c) (Value.Apart b d) :=
  .bind (.register _) fun _ _ => .getWorld fun v u hw => by
    rw [hw.value c hc]
    exact .pure (hw.valueApart c hc)

end Matches

/-- Whether two ways to work out computed properties find the same, if their view-models are alive.
-/
structure ComputesAlike (b d : World) (relics : Prop) (ahead : Bool)
    (compute compute' : Computed → Reading Value) : Prop where
  alike : ∀ p, Matches b d relics ahead (compute p) (compute' p) (Value.Apart b d)
  gone : ∀ p y, b.modelAlive p.model = false → relics →
    Matches b d relics ahead (compute p) y (Value.Apart b d)

namespace ComputesAlike

variable {compute compute' : Computed → Reading Value}
  (hc : ComputesAlike b d relics ahead compute compute')

section

include hc

theorem object {o : Ref .object} (ho : ¬o.Between b.objects.size d.objects.size) (key : String) :
    Matches b d relics ahead (Object.read compute o key) (Object.read compute' o key)
      (Value.Apart b d) := by
  refine .getWorld fun v u hw => ?_
  obtain hsame | ⟨hr, p, hp, hgone⟩ := hw.slot o key ho
  · rw [hsame]
    cases hslot : u.slot? o key with
    | none => exact .bind (.register _) fun _ _ => .pure (Value.apart_of_object? rfl)
    | some slot =>
      cases slot with
      | cell c => exact .cell (hw.slotApart o key c ho hslot)
      | computed p => exact hc.alike p
  · rw [hp]
    exact hc.gone p _ hgone hr

theorem follow (p : Path) (segments : List String) {x : Value} (hx : x.Apart b d) :
    Matches b d relics ahead (p.follow compute segments x) (p.follow compute' segments x)
      (Value.Apart b d) := by
  induction segments generalizing x with
  | nil => exact .pure hx
  | cons segment rest ih =>
    refine .bind (Q := fun o => ¬o.Between b.objects.size d.objects.size)
      (.ofExcept fun o ho => ?_) fun o ho => .bind (hc.object ho segment) fun x hx => ih hx
    cases x <;> cases ho
    exact hx o rfl

variable (hb : b.Closed)
include hb

theorem model (hm : m.index < b.models.size) (path : String) :
    Matches b d relics ahead (ViewModel.read compute m path) (ViewModel.read compute' m path)
      (Value.Apart b d) := by
  refine .bind (Q := fun _ => True) (.ofExcept fun _ _ => trivial) fun p _ =>
    .getWorld fun v u hw => ?_
  rw [(hw.root m hm).1, (hw.root m hm).2]
  refine hc.follow p p.segments (Value.Within.apart fun o ho => ?_)
  cases ho
  exact hb.root m hm

omit hc in
theorem findModel (hw : b.Matches d relics v u) {f : Frame}
    (hf : ∀ m, f.model = some m → m.index < b.models.size) (name : Option String) :
    f.findModel v name = f.findModel u name ∧
      ∀ m, f.findModel u name = .ok m → m.index < b.models.size := by
  have found (name : String) : Frame.findModel.found v name = Frame.findModel.found u name ∧
      ∀ m, Frame.findModel.found u name = .ok m → m.index < b.models.size := by
    rw [Frame.findModel.found, Frame.findModel.found, hw.names.1, hw.names.2]
    refine ⟨rfl, fun m hm => ?_⟩
    cases hh : b.names.models.held[name]? with
    | none =>
      rw [hh] at hm
      cases hm
    | some m' =>
      rw [hh] at hm
      cases hm
      exact hb.named m ((Holder.holds_iff _ m).2 ⟨name, hh⟩)
  obtain ⟨model, change, event⟩ := f
  cases name with
  | some name => exact found name
  | none =>
    cases model with
    | none => exact found "main"
    | some m => exact ⟨rfl, fun m' hm' => by cases hm'; exact hf m rfl⟩

theorem frame {f : Frame} (hf : ∀ m, f.model = some m → m.index < b.models.size)
    (name : Option String) (path : String) :
    Matches b d relics ahead (f.read compute name path) (f.read compute' name path)
      (Value.Apart b d) := by
  refine .getWorld fun v u hw => ?_
  obtain ⟨hsame, hmade⟩ := findModel hb hw hf name
  rw [hsame]
  exact .bind (.ofExcept hmade) fun m hm => hc.model hb hm path

end

theorem operands {x y x' y' : Reading Value} {g : Value → Value → Value}
    (hg : ∀ p q, (g p q).object? = none) (hx : Matches b d relics ahead x x' (Value.Apart b d))
    (hy : Matches b d relics ahead y y' (Value.Apart b d)) :
    Matches b d relics ahead (do let p ← x; let q ← y; return g p q)
      (do let p ← x'; let q ← y'; return g p q) (Value.Apart b d) :=
  .bind hx fun _ _ => .bind hy fun _ _ => .pure (Value.apart_of_object? (hg _ _))

mutual

theorem expr (hc : ComputesAlike b d relics ahead compute compute') (hb : b.Closed)
    (hm : m.index < b.models.size) :
    ∀ x : Expr, Matches b d relics ahead (x.eval compute { model := m })
      (x.eval compute' { model := m }) (Value.Apart b d)
  | .data doc => .modifyGet fun v u hw => hw.observe doc
  | .number _ => .pure (Value.apart_of_object? rfl)
  | .get name path => hc.frame hb (fun m' h => by cases h; exact hm) name path
  | .peek name path => .once (hc.frame hb (fun m' h => by cases h; exact hm) name path)
  | .property object key =>
    .bind (expr hc hb hm object) fun x hx => .bind (expr hc hb hm key) fun k _ => by
      cases ho : x.object? with
      | none => exact .throw _
      | some o => exact hc.object (hx o ho) k.text
  | .root name => .getWorld fun v u hw => by
      obtain ⟨hsame, hmade⟩ := findModel hb hw (f := { model := m })
        (fun m' h => by cases h; exact hm) (some name)
      rw [hsame]
      refine .bind (.ofExcept hmade) fun m' hm' => ?_
      rw [(hw.root m' hm').1, (hw.root m' hm').2]
      refine .pure (Value.Within.apart fun o ho => ?_)
      cases ho
      exact hb.root m' hm'
  | .saved name => .getWorld fun v u hw => by
      rw [hw.names.1, hw.names.2]
      cases hx : b.names.values[name]? with
      | none => exact .throw _
      | some x => exact .pure (hb.saved name x hx).apart
  | .array items => .bind (exprs hc hb hm items) fun xs _ => .modifyGet fun v u hw =>
      ⟨(hw.addArray xs).1, (hw.addArray xs).2, Value.apart_of_object? rfl⟩
  | .concat parts => .bind (exprs hc hb hm parts) fun _ _ => .pure (Value.apart_of_object? rfl)
  | .add x y => operands (fun _ _ => rfl) (expr hc hb hm x) (expr hc hb hm y)
  | .mul x y => operands (fun _ _ => rfl) (expr hc hb hm x) (expr hc hb hm y)
  | .less x y => operands (fun _ _ => rfl) (expr hc hb hm x) (expr hc hb hm y)
  | .same x y => operands (fun _ _ => rfl) (expr hc hb hm x) (expr hc hb hm y)
  | .cond test yes no => .bind (expr hc hb hm test) fun x _ => by
      cases x.isTrue with
      | true => exact expr hc hb hm yes
      | false => exact expr hc hb hm no
  | .sort x => .bind (expr hc hb hm x) fun _ _ => .pure (Value.apart_of_object? rfl)
  | .fail _ => .throw _
  | .tracking => .getEvaluation fun _ => .pure (Value.apart_of_object? rfl)
  | .registrations => .getEvaluation fun _ => .pure (Value.apart_of_object? rfl)
  | .argument which => .pure (by cases which <;> exact Value.apart_of_object? rfl)

theorem exprs (hc : ComputesAlike b d relics ahead compute compute') (hb : b.Closed)
    (hm : m.index < b.models.size) :
    ∀ xs : List Expr, Matches b d relics ahead (Expr.evalAll compute { model := m } xs)
      (Expr.evalAll compute' { model := m } xs) fun _ => True
  | [] => .pure trivial
  | x :: xs => .bind (expr hc hb hm x) fun _ _ => .bind (exprs hc hb hm xs) fun _ _ => .pure trivial

end

theorem eval_gone {compute : Computed → Reading Value} {p : Computed}
    (hp : b.modelAlive p.model = false) (hr : relics) (y : Reading Value) (Q : Value → Prop) :
    Matches b d relics ahead (p.eval compute) y Q := by
  intro e v u hw _
  have heval : p.eval compute e v = some ((.error .detached, e), v) := by
    rw [Computed.eval, getWorld_bind, (hw.modelAlive p.model).1, hp]
    rfl
  rw [heval]
  exact .detached hr

theorem computed (hc : ComputesAlike b d relics ahead compute compute') (hb : b.Closed)
    (hm : ∀ m, b.modelAlive m → m.index < b.models.size) :
    ComputesAlike b d relics ahead (Computed.eval compute) (Computed.eval compute') where
  alike p := by
    refine .getWorld fun v u hw => ?_
    rw [(hw.modelAlive p.model).1, (hw.modelAlive p.model).2]
    cases ha : b.modelAlive p.model with
    | false => exact .bind (Q := fun _ => False) (.throw _) fun _ h => h.elim
    | true => exact .bind (.tell _) fun _ _ => expr hc hb (hm _ ha) p.body
  gone p y hp hr := eval_gone hp hr y _

/-- The computed properties of two engines find the same, the first having just as much fuel as the
second or some more. -/
theorem ofFuel (hb : b.Closed) (hm : ∀ m, b.modelAlive m → m.index < b.models.size) (n : Nat) :
    ComputesAlike b d relics false (Engine.ofFuel n).compute (Engine.ofFuel n).compute ∧
      ComputesAlike b d relics true (Engine.ofFuel (n + 1)).compute (Engine.ofFuel n).compute := by
  -- The second statement does not follow from the first: without fuel the second reading stops
  -- where the first may already come upon a relic.
  induction n with
  | zero =>
    exact ⟨⟨fun _ _ _ _ _ _ => .short rfl, fun _ _ _ _ _ _ _ _ _ => .short rfl⟩,
      ⟨fun _ _ _ _ _ _ => .late rfl, fun p y hp hr => eval_gone hp hr y _⟩⟩
  | succ n ih => exact ⟨ih.1.computed hb hm, ih.2.computed hb hm⟩

end ComputesAlike

end Reading

/-- How writing a property ends depends on that property alone, whoever is updated. -/
theorem Object.write_result {update : Subscriber → Action Unit} {o : Ref .object} {key : String}
    {x : Value} {r : Except Fault Bool} {w' : World}
    (h : Object.write update o key x w = some (r, w')) : r =
      match w.slot? o key with
      | some (.cell c) => .ok (w.changes (.cell c) x)
      | some (.computed _) => .error (.readOnly key)
      | none => .ok true := by
  cases hslot : w.slot? o key with
  | none =>
    obtain ⟨hn, -⟩ | ⟨source, hs, hwr⟩ := Object.write_written h
    · rw [World.property?, hslot] at hn
      cases hn
    · rw [World.property?, hslot] at hs
      cases hs
      exact (hwr.turns rfl).1
  | some slot =>
    cases slot with
    | computed p =>
      rw [Object.write_computed hslot] at h
      cases h
      rfl
    | cell c =>
      rw [Object.write_cell hslot] at h
      have hwr := Cell.write_written h
      dsimp only
      cases hc : w.changes (.cell c) x with
      | false => exact (hwr.same (by simp [hc])).1
      | true => exact (hwr.turns hc).1

section

variable (hw : b.Matches d relics v u)

include hw

theorem World.Matches.write {o : Ref .object} (ho : ¬o.Between b.objects.size d.objects.size)
    {update update' : Subscriber → Action Unit} {key : String} {x : Value}
    {r r' : Except Fault Bool} {v' u' : World} (hv : Object.write update o key x v = some (r, v'))
    (hu : Object.write update' o key x u = some (r', u')) :
    r = r' ∨ relics ∧ r = .error (.readOnly key) := by
  rw [Object.write_result hv, Object.write_result hu]
  obtain hsame | ⟨hr, p, hp, -⟩ := hw.slot o key ho
  · left
    rw [hsame]
    cases hslot : u.slot? o key with
    | none => rfl
    | some slot =>
      cases slot with
      | computed p => rfl
      | cell c =>
        dsimp only
        rw [World.changes, World.changes, hw.value c (hw.slotApart o key c ho hslot)]
  · rw [hp]
    exact .inr ⟨hr, rfl⟩

theorem World.Matches.property? {o : Ref .object} (ho : ¬o.Between b.objects.size d.objects.size)
    {key : String} {source : Source} (h : v.property? o key = some source) :
    u.property? o key = some source ∧ ∀ x, v.changes source x = u.changes source x := by
  rw [World.property?] at h ⊢
  obtain hsame | ⟨-, p, hp, -⟩ := hw.slot o key ho
  · rw [hsame] at h
    refine ⟨h, fun x => ?_⟩
    cases hslot : u.slot? o key with
    | none =>
      rw [hslot] at h
      cases h
      rfl
    | some slot =>
      rw [hslot] at h
      cases slot with
      | computed p => cases h
      | cell c =>
        cases h
        rw [World.changes, World.changes, hw.value c (hw.slotApart o key c ho hslot)]
  · rw [hp] at h
    cases h

variable (hb : b.Closed) (hm : ∀ m, b.modelAlive m → m.index < b.models.size)

include hb hm

theorem World.Matches.follow (n : Nat) (p : Path) (segments : List String) {root : Ref .object}
    (hroot : root.index < b.objects.size) (e : Evaluation)
    (hs : ∀ s, e.subscriber = some s → ¬s.Between b d) :
    Reading.Meets b d relics false (Value.Apart b d) e
        (p.follow (Engine.ofFuel n).compute segments (.object root) e v)
        (p.follow (Engine.ofFuel n).compute segments (.object root) e u) ∧
      Reading.Meets b d relics true (Value.Apart b d) e
        (p.follow (Engine.ofFuel (n + 1)).compute segments (.object root) e v)
        (p.follow (Engine.ofFuel n).compute segments (.object root) e u) := by
  have hapart : (Value.object root).Apart b d :=
    Value.Within.apart fun o ho => by cases ho; exact hroot
  exact ⟨(Reading.ComputesAlike.ofFuel hb hm n).1.follow p segments hapart e v u hw hs,
    (Reading.ComputesAlike.ofFuel hb hm n).2.follow p segments hapart e v u hw hs⟩

/-- A write that finds its property in the first world finds it in the second, where it changes as
much and updates the same subscribers in the same order. -/
theorem World.Matches.find {n : Nat} {p : Path} {root : Ref .object}
    (hroot : root.index < b.objects.size) {source : Source} {v' : World}
    (h : (Site.path p root).find (Engine.ofFuel n).compute v = some (source, v')) :
    ∃ u', (Site.path p root).find (Engine.ofFuel n).compute u = some (source, u') ∧
      v'.due source = u'.due source ∧ ∀ x, v'.changes source x = u'.changes source x := by
  have hmeets := (hw.follow hb hm n p p.parents hroot {} fun _ hs => nomatch hs).1
  simp only [Site.find, Reading.once_eq_map] at h ⊢
  generalize p.follow _ p.parents (.object root) {} v = y at hmeets h
  generalize p.follow _ p.parents (.object root) {} u = z at hmeets ⊢
  -- A walk that found its end in the first world came upon no relic on the way.
  cases hmeets with
  | short => cases h
  | late ha => cases ha
  | detached => cases h
  | @same r e' v₁ u₁ hw' _ hq =>
    cases r with
    | error g => cases h
    | ok parent =>
      simp only [Option.map_some] at h ⊢
      cases ho : p.owner parent p.last with
      | error g =>
        rw [ho] at h
        cases h
      | ok o =>
        rw [ho] at h
        obtain ⟨source', hs, he⟩ := Option.map_eq_some_iff.1 h
        cases he
        have hapart' : ¬o.Between b.objects.size d.objects.size := by
          cases parent <;> cases ho
          exact hq _ rfl o rfl
        obtain ⟨hs', hchanges⟩ := hw'.property? hapart' hs
        exact ⟨u₁, Option.map_eq_some_iff.2 ⟨source, hs', rfl⟩, hw'.due source, hchanges⟩

theorem World.Matches.assign {n : Nat} {p : Path} {root : Ref .object}
    (hroot : root.index < b.objects.size) {update update' : Subscriber → Action Unit} {x : Value}
    {r r' : Except Fault Bool} {v' u' : World}
    (hv : p.assign (Engine.ofFuel n).compute update root x v = some (r, v'))
    (hu : p.assign (Engine.ofFuel n).compute update' root x u = some (r', u')) :
    r = r' ∨ relics ∧ (r = .error .detached ∨ r = .error (.readOnly p.last)) := by
  have hmeets := (hw.follow hb hm n p p.parents hroot {} fun _ hs => nomatch hs).1
  rw [Path.assign, Action.bind_apply, Reading.once_eq_map] at hv hu
  generalize p.follow _ p.parents (.object root) {} v = y at hmeets hv
  generalize p.follow _ p.parents (.object root) {} u = z at hmeets hu
  -- The walks to the owner end alike, or the first stops at a relic.
  cases hmeets with
  | short => cases hv
  | late => cases hu
  | detached hr =>
    cases hv
    exact .inr ⟨hr, .inl rfl⟩
  | @same r₀ e' v₁ u₁ hw' _ hq =>
    cases r₀ with
    | error g =>
      cases hv
      cases hu
      exact .inl rfl
    | ok parent =>
      simp only [Option.map_some] at hv hu
      rw [Action.bind_apply] at hv hu
      cases parent with
      | object o =>
        exact (hw'.write (hq _ rfl o rfl) hv hu).imp_right fun h => ⟨h.1, .inr h.2⟩
      | _ =>
        cases hv
        cases hu
        exact .inl rfl

end

end ViewBinding
