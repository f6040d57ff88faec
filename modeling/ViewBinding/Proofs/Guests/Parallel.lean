import ViewBinding.Proofs.Fuel
import ViewBinding.Proofs.Guests.Births

/-! Actions that go parallel in two runs: whenever the first ends, so does the second, in the same
world and in the same way. -/

namespace ViewBinding

variable {α β γ δ : Type} {G : List String} {p q : Pairing} {w w' : World}

namespace Action

def ParallelAt (G : List String) (p : Pairing) (w w' : World) (x : Action α) (x' : Action β)
    (R : Pairing → α → β → Prop) : Prop :=
  ∀ r v, x w = some (r, v) → ∃ q r' v', x' w' = some (r', v') ∧ p ≤ q ∧ v.Twin G q v' ∧
    EndsAlike (R q) r r'

def Parallel (G : List String) (p : Pairing) (x : Action α) (x' : Action β)
    (R : Pairing → α → β → Prop) : Prop :=
  ∀ q w w', p ≤ q → w.Twin G q w' → ParallelAt G q w w' x x' R

def Beside (G : List String) (p : Pairing) (x : Action α) (x' : Action β) : Prop :=
  ∀ q w w', p ≤ q → w.Twin G q w' → ∀ r v, x w = some (r, v) →
    ∃ l r' v', x' w' = some (r', v') ∧ q ≤ l ∧ v.Twin G l v'

def Aside (G : List String) (p : Pairing) (x : Action α) : Prop :=
  ∀ q w w', p ≤ q → w.Twin G q w' → ∀ r v, x w = some (r, v) → ∃ l, q ≤ l ∧ v.Twin G l w'

section

variable {x : Action α} {x' : Action β} {R : Pairing → α → β → Prop} {S : Pairing → γ → δ → Prop}

theorem Parallel.beside (hx : Parallel G p x x' R) : Beside G p x x' := by
  intro q w w' hq hw r v h
  obtain ⟨l, r', v', h', hl, hv, -⟩ := hx q w w' hq hw r v h
  exact ⟨l, r', v', h', hl, hv⟩

theorem Aside.beside (hx : Aside G p x) (b : β) : Beside G p x (pure b : Action β) := by
  intro q w w' hq hw r v h
  obtain ⟨l, hl, hv⟩ := hx q w w' hq hw r v h
  exact ⟨l, .ok b, w', rfl, hl, hv⟩

namespace ParallelAt

theorem mono (hpq : p ≤ q) (hx : ParallelAt G q w w' x x' R) : ParallelAt G p w w' x x' R := by
  intro r v h
  obtain ⟨l, r', v', h', hl, hv, hr⟩ := hx r v h
  exact ⟨l, r', v', h', hpq.trans hl, hv, hr⟩

theorem bind {f : α → Action γ} {f' : β → Action δ} (hx : ParallelAt G p w w' x x' R)
    (hf : ∀ q, p ≤ q → ∀ a b, R q a b → Parallel G q (f a) (f' b) S) :
    ParallelAt G p w w' (x >>= f) (x' >>= f') S := by
  intro r v h
  obtain ⟨g, hg, rfl⟩ | ⟨a, w₁, ha, h⟩ := bind_eq_some h
  · obtain ⟨q, r', v', h', hq, hv, hr⟩ := hx _ _ hg
    cases r' with
    | ok b => cases hr
    | error g' =>
      refine ⟨q, .error g', v', ?_, hq, hv, hr⟩
      rw [bind_apply, h']
  · obtain ⟨q, r', w₁', h', hq, hw₁, hr⟩ := hx _ _ ha
    cases r' with
    | error g' => cases hr
    | ok b =>
      obtain ⟨l, r', v', h'', hl, hv, hr⟩ := hf q hq a b hr q w₁ w₁' le_rfl hw₁ r v h
      refine ⟨l, r', v', ?_, hq.trans hl, hv, hr⟩
      rw [bind_apply, h']
      exact h''

theorem modify {g g' : World → World} {f : Unit → Action γ} {f' : Unit → Action δ} (hq : p ≤ q)
    (hf : ParallelAt G q (g w) (g' w') (f ()) (f' ()) S) :
    ParallelAt G p w w' (MonadState.modifyGet (fun w => ((), g w)) >>= f)
      (MonadState.modifyGet (fun w => ((), g' w)) >>= f') S := hf.mono hq

end ParallelAt

namespace Parallel

theorem atWorld (hx : Parallel G p x x' R) (hw : w.Twin G p w') : ParallelAt G p w w' x x' R :=
  hx p w w' le_rfl hw

theorem mono (hx : Parallel G p x x' R) (hq : p ≤ q) : Parallel G q x x' R :=
  fun l w w' hl => hx l w w' (hq.trans hl)

theorem pure {a : α} {b : β} (h : ∀ q, p ≤ q → R q a b) :
    Parallel G p (Pure.pure a) (Pure.pure b) R := by
  intro q w w' hq hw r v hr
  cases hr
  exact ⟨q, .ok b, w', rfl, le_rfl, hw, h q hq⟩

theorem throw (f : Fault) :
    Parallel G p (MonadExcept.throw f : Action α) (MonadExcept.throw f : Action β) R := by
  intro q w w' hq hw r v hr
  cases hr
  exact ⟨q, .error f, w', rfl, le_rfl, hw, rfl⟩

theorem unfinished : Parallel G p (Action.unfinished : Action α) x' R :=
  fun _ _ _ _ _ _ _ h => nomatch h

theorem ofExcept {r : Except Fault α} {r' : Except Fault β}
    (h : ∀ q, p ≤ q → EndsAlike (R q) r r') :
    Parallel G p (MonadExcept.ofExcept r) (MonadExcept.ofExcept r') R := by
  cases r with
  | error f =>
    cases r' with
    | error g => exact (show f = g from h p le_rfl) ▸ throw f
    | ok b => exact (h p le_rfl).elim
  | ok a =>
    cases r' with
    | error g => exact (h p le_rfl).elim
    | ok b => exact pure h

theorem require (f : Fault) {a? : Option α} {b? : Option β}
    (h : ∀ q, p ≤ q → Option.Rel (R q) a? b?) :
    Parallel G p (Action.require f a?) (Action.require f b?) R := by
  cases a? with
  | none => cases h p le_rfl; exact throw f
  | some a =>
    cases b? with
    | none => cases h p le_rfl
    | some b =>
      refine pure fun q hq => ?_
      cases h q hq with
      | some hr => exact hr

theorem finished {a? : Option α} {b? : Option β}
    (h : ∀ a, a? = some a → ∃ b, b? = some b ∧ ∀ q, p ≤ q → R q a b) :
    Parallel G p (Action.finished a?) (Action.finished b?) R := by
  cases a? with
  | none => exact unfinished
  | some a =>
    obtain ⟨b, rfl, hr⟩ := h a rfl
    exact pure hr

theorem bind {f : α → Action γ} {f' : β → Action δ} (hx : Parallel G p x x' R)
    (hf : ∀ q, p ≤ q → ∀ a b, R q a b → Parallel G q (f a) (f' b) S) :
    Parallel G p (x >>= f) (x' >>= f') S :=
  fun q w w' hq hw => (hx q w w' hq hw).bind fun l hl => hf l (hq.trans hl)

theorem get {f : World → Action α} {f' : World → Action β}
    (h : ∀ q w w', p ≤ q → w.Twin G q w' → Parallel G q (f w) (f' w') R) :
    Parallel G p (MonadState.get >>= f) (MonadState.get >>= f') R :=
  fun q w w' hq hw => h q w w' hq hw q w w' le_rfl hw

theorem getAt {f : World → Action α} {f' : World → Action β}
    (h : ∀ q w w', p ≤ q → w.Twin G q w' → ParallelAt G q w w' (f w) (f' w') R) :
    Parallel G p (MonadState.get >>= f) (MonadState.get >>= f') R := h

theorem modify {g g' : World → World} {R : Pairing → Unit → Unit → Prop}
    (h : ∀ q w w', p ≤ q → w.Twin G q w' → ∃ l, q ≤ l ∧ (g w).Twin G l (g' w') ∧ R l () ()) :
    Parallel G p (MonadState.modifyGet (fun w => ((), g w)) : Action Unit)
      (MonadState.modifyGet (fun w => ((), g' w)) : Action Unit) R := by
  intro q w w' hq hw r v hr
  cases hr
  obtain ⟨l, hl, hv, hR⟩ := h q w w' hq hw
  exact ⟨l, .ok (), g' w', rfl, hl, hv, hR⟩

theorem modifyGet {g : World → α × World} {g' : World → β × World}
    (h : ∀ q w w', p ≤ q → w.Twin G q w' →
      ∃ l, q ≤ l ∧ (g w).2.Twin G l (g' w').2 ∧ R l (g w).1 (g' w').1) :
    Parallel G p (MonadState.modifyGet g : Action α) (MonadState.modifyGet g' : Action β) R := by
  intro q w w' hq hw r v hr
  cases hr
  obtain ⟨l, hl, hv, hR⟩ := h q w w' hq hw
  exact ⟨l, .ok (g' w').1, (g' w').2, rfl, hl, hv, hR⟩

theorem tell {y y' : Happening} (hy : y.Twin p y') :
    Parallel G p (Action.tell y) (Action.tell y') fun _ _ _ => True :=
  modify fun q _ _ hq hw => ⟨q, le_rfl, hw.tell (hy.mono hq), trivial⟩

theorem emit {e e' : Effect} (he : e.Twin p e') :
    Parallel G p (Action.emit e) (Action.emit e') fun _ _ _ => True := tell (.some he)

theorem ite {c c' : Prop} [Decidable c] [Decidable c'] {y : Action α} {y' : Action β}
    (hc : c ↔ c') (hx : c → Parallel G p x x' R) (hy : ¬c → Parallel G p y y' R) :
    Parallel G p (if c then x else y) (if c' then x' else y') R := by
  by_cases h : c
  · rw [if_pos h, if_pos (hc.1 h)]
    exact hx h
  · rw [if_neg h, if_neg fun h' => h (hc.2 h')]
    exact hy h

theorem usingModel {m : Ref .model} (hm : p.pair m m) (hx : Parallel G p x x' R) :
    Parallel G p (Action.usingModel m x) (Action.usingModel m x') R := by
  intro q w w' hq hw r v h
  obtain ⟨⟨r₁, v₁⟩, h₁, he⟩ := Option.map_eq_some_iff.1 h
  cases he
  obtain ⟨l, r', v', h', hl, hv, hr⟩ := hx q _ _ hq (hw.useModel (hq.pair hm)) _ _ h₁
  exact ⟨l, r', v'.releaseModel m, Option.map_eq_some_iff.2 ⟨_, h', rfl⟩, hl, hv.releaseModel m, hr⟩

theorem faultOf {x x' : Action Unit} {R : Pairing → Unit → Unit → Prop}
    (hx : Parallel G p x x' R) :
    Parallel G p x.faultOf x'.faultOf fun _ a b => a = b := by
  intro q w w' hq hw r v h
  rw [faultOf_apply, Option.bind_eq_some_iff] at h
  obtain ⟨⟨r₁, v₁⟩, h₁, he⟩ := h
  obtain ⟨l, r', v', h', hl, hv, hr⟩ := hx q _ _ hq hw _ _ h₁
  cases r₁ with
  | ok a =>
    cases he
    cases r' with
    | error g => cases hr
    | ok b => exact ⟨l, .ok none, v', by rw [faultOf_apply, h']; rfl, hl, hv, rfl⟩
  | error f =>
    cases he
    cases r' with
    | error g =>
      exact ⟨l, .ok (some g), v', by rw [faultOf_apply, h']; rfl, hl, hv, congrArg some hr⟩
    | ok b => cases hr

theorem forM {as : List γ} {f f' : γ → Action Unit}
    (hf : ∀ a ∈ as, Parallel G p (f a) (f' a) fun _ _ _ => True) :
    Parallel G p (as.forM f) (as.forM f') fun _ _ _ => True := by
  induction as with
  | nil => exact pure fun _ _ => trivial
  | cons a as ih =>
    refine bind (hf a List.mem_cons_self) fun q hq _ _ _ => Parallel.mono ?_ hq
    exact ih fun b hb => hf b (List.mem_cons_of_mem a hb)

theorem mapM {as : List γ} {f : γ → Action α} {f' : γ → Action β}
    (hR : ∀ q l, q ≤ l → ∀ a b, R q a b → R l a b)
    (hf : ∀ a ∈ as, Parallel G p (f a) (f' a) R) :
    Parallel G p (as.mapM f) (as.mapM f') fun q => List.Forall₂ (R q) := by
  induction as with
  | nil => exact pure fun _ _ => .nil
  | cons a as ih =>
    rw [List.mapM_cons, List.mapM_cons]
    refine bind (hf a List.mem_cons_self) fun q hq b b' hb => ?_
    refine bind ((ih fun c hc => hf c (List.mem_cons_of_mem a hc)).mono hq)
      fun l hl bs bs' hbs => ?_
    exact pure fun k hk => .cons (hR q k (hl.trans hk) _ _ hb) (hbs.imp (hR l k hk))

theorem tellLeft {y : Happening} (hy : y.shown G = false) {f : Unit → Action α}
    (hf : Parallel G p (f ()) x' R) : Parallel G p (Action.tell y >>= f) x' R :=
  fun q _ w' hq hw => hf q _ w' hq (hw.tellLeft hy)

theorem emitLeft {e : Effect} (he : e.shown G = false) {f : Unit → Action α}
    (hf : Parallel G p (f ()) x' R) : Parallel G p (Action.emit e >>= f) x' R :=
  tellLeft (y := .showed e) he hf

theorem emitRight {e : Effect} (he : e.shown G = false) {f' : Unit → Action β}
    (hf : Parallel G p x (f' ()) R) : Parallel G p x (Action.emit e >>= f') R :=
  fun q w _ hq hw => hf q w _ hq (hw.tellRight (x := .showed e) he)

theorem mapLeft {f : α → γ} {T : Pairing → γ → β → Prop} (hx : Parallel G p x x' R)
    (hT : ∀ q, p ≤ q → ∀ a b, R q a b → ∀ l, q ≤ l → T l (f a) b) :
    Parallel G p (x >>= fun a => Pure.pure (f a)) x' T := by
  rw [← bind_pure x']
  exact bind hx fun q hq a b hr => pure (hT q hq a b hr)

theorem times {x x' : Action Unit} (hx : Parallel G p x x' fun _ _ _ => True) (n : Nat) :
    Parallel G p (Action.times n x) (Action.times n x') fun _ _ _ => True := by
  induction n with
  | zero => exact pure fun _ _ => trivial
  | succ n ih => exact bind hx fun _ hq _ _ _ => ih.mono hq

end Parallel

namespace Beside

theorem bind {f : α → Action γ} {f' : β → Action δ} (hx : Parallel G p x x' R)
    (hf : ∀ q, p ≤ q → ∀ a b, R q a b → Beside G q (f a) (f' b)) :
    Beside G p (x >>= f) (x' >>= f') := by
  intro q w w' hq hw r v h
  obtain ⟨g, hg, rfl⟩ | ⟨a, w₁, ha, h⟩ := bind_eq_some h
  · obtain ⟨l, r', v', h', hl, hv, hr⟩ := hx q w w' hq hw _ _ hg
    cases r' with
    | ok b => cases hr
    | error g' => exact ⟨l, .error g', v', by rw [bind_apply, h'], hl, hv⟩
  · obtain ⟨l, r', w₁', h', hl, hw₁, hr⟩ := hx q w w' hq hw _ _ ha
    cases r' with
    | error g' => cases hr
    | ok b =>
      obtain ⟨k, r', v', h'', hk, hv⟩ := hf l (hq.trans hl) a b hr l w₁ w₁' le_rfl hw₁ r v h
      refine ⟨k, r', v', ?_, hl.trans hk, hv⟩
      rw [bind_apply, h']
      exact h''

theorem get {f : World → Action α} {f' : World → Action β}
    (h : ∀ q w w', p ≤ q → w.Twin G q w' → Beside G q (f w) (f' w')) :
    Beside G p (MonadState.get >>= f) (MonadState.get >>= f') :=
  fun q w w' hq hw => h q w w' hq hw q w w' le_rfl hw

theorem ite {c c' : Prop} [Decidable c] [Decidable c'] {y : Action α} {y' : Action β}
    (hc : c ↔ c') (hx : Beside G p x x') (hy : Beside G p y y') :
    Beside G p (if c then x else y) (if c' then x' else y') := by
  by_cases h : c
  · rw [if_pos h, if_pos (hc.1 h)]
    exact hx
  · rw [if_neg h, if_neg fun h' => h (hc.2 h')]
    exact hy

theorem usingModel {m : Ref .model} (hm : p.pair m m) (hx : Beside G p x x') :
    Beside G p (Action.usingModel m x) (Action.usingModel m x') := by
  intro q w w' hq hw r v h
  obtain ⟨⟨r₁, v₁⟩, h₁, he⟩ := Option.map_eq_some_iff.1 h
  cases he
  obtain ⟨l, r', v', h', hl, hv⟩ := hx q _ _ hq (hw.useModel (hq.pair hm)) _ _ h₁
  exact ⟨l, r', v'.releaseModel m, Option.map_eq_some_iff.2 ⟨_, h', rfl⟩, hl, hv.releaseModel m⟩

theorem faultOf {x x' : Action Unit} (hx : Beside G p x x') :
    Parallel G p x.faultOf x'.faultOf fun _ _ _ => True := by
  intro q w w' hq hw r v h
  rw [faultOf_apply, Option.bind_eq_some_iff] at h
  obtain ⟨⟨r₁, v₁⟩, h₁, he⟩ := h
  obtain ⟨l, r', v', h', hl, hv⟩ := hx q _ _ hq hw _ _ h₁
  cases r₁ <;> cases he <;> cases r' <;>
    exact ⟨l, .ok _, v', by rw [faultOf_apply, h']; rfl, hl, hv, trivial⟩

end Beside

namespace Aside

theorem pure (a : α) : Aside G p (Pure.pure a : Action α) := by
  intro q w w' _ hw r v h
  cases h
  exact ⟨q, le_rfl, hw⟩

theorem throw (f : Fault) : Aside G p (MonadExcept.throw f : Action α) := by
  intro q w w' _ hw r v h
  cases h
  exact ⟨q, le_rfl, hw⟩

theorem ofExcept (r : Except Fault α) : Aside G p (MonadExcept.ofExcept r : Action α) := by
  cases r with
  | error f => exact throw f
  | ok a => exact pure a

theorem bind {f : α → Action γ} (hx : Aside G p x) (hf : ∀ q, p ≤ q → ∀ a, Aside G q (f a)) :
    Aside G p (x >>= f) := by
  intro q w w' hq hw r v h
  obtain ⟨g, hg, rfl⟩ | ⟨a, w₁, ha, h⟩ := bind_eq_some h
  · exact hx q w w' hq hw _ _ hg
  · obtain ⟨l, hl, hw₁⟩ := hx q w w' hq hw _ _ ha
    obtain ⟨k, hk, hv⟩ := hf l (hq.trans hl) a l w₁ w' le_rfl hw₁ _ _ h
    exact ⟨k, hl.trans hk, hv⟩

theorem get {f : World → Action α}
    (h : ∀ q w w', p ≤ q → w.Twin G q w' → Aside G q (f w)) :
    Aside G p (MonadState.get >>= f) :=
  fun q w w' hq hw => h q w w' hq hw q w w' le_rfl hw

theorem modify {g : World → World}
    (h : ∀ q w w', p ≤ q → w.Twin G q w' → ∃ l, q ≤ l ∧ (g w).Twin G l w') :
    Aside G p (MonadState.modifyGet (fun w => ((), g w)) : Action Unit) := by
  intro q w w' hq hw r v hr
  cases hr
  exact h q w w' hq hw

theorem tell {y : Happening} (hy : y.shown G = false) : Aside G p (Action.tell y) :=
  modify fun q _ _ _ hw => ⟨q, le_rfl, hw.tellLeft hy⟩

theorem ite {c : Prop} [Decidable c] {y : Action α} (hx : Aside G p x) (hy : Aside G p y) :
    Aside G p (if c then x else y) := by
  split
  · exact hx
  · exact hy

theorem usingModel {m : Ref .model} (hm : p.pair m m) (hx : Aside G p x) :
    Aside G p (Action.usingModel m x) := by
  intro q w w' hq hw r v h
  obtain ⟨⟨r₁, v₁⟩, h₁, he⟩ := Option.map_eq_some_iff.1 h
  cases he
  obtain ⟨l, hl, hv⟩ := hx q _ _ hq (hw.useModel (hq.pair hm)) _ _ h₁
  have hrel : (w'.useModel m).releaseModel m = w' := by
    simp [World.useModel, World.releaseModel]
  exact ⟨l, hl, hrel ▸ hv.releaseModel m⟩

theorem faultOf {x : Action Unit} (hx : Aside G p x) : Aside G p x.faultOf := by
  intro q w w' hq hw r v h
  rw [faultOf_apply, Option.bind_eq_some_iff] at h
  obtain ⟨⟨r₁, v₁⟩, h₁, he⟩ := h
  obtain ⟨l, hl, hv⟩ := hx q w w' hq hw _ _ h₁
  cases r₁ <;> cases he <;> exact ⟨l, hl, hv⟩

theorem thenParallel {x : Action Unit} {f : Option Fault → Action α} (hx : Aside G p x)
    (hf : ∀ q, p ≤ q → ∀ fault, Parallel G q (f fault) x' R) :
    Parallel G p (x.faultOf >>= f) x' R := by
  intro q w w' hq hw r v h
  obtain ⟨g, hg, rfl⟩ | ⟨a, w₁, ha, h⟩ := bind_eq_some h
  · rw [faultOf_apply, Option.bind_eq_some_iff] at hg
    obtain ⟨⟨r₁, v₁⟩, h₁, he⟩ := hg
    cases r₁ <;> cases he
  · obtain ⟨l, hl, hw₁⟩ := hx.faultOf q w w' hq hw _ _ ha
    obtain ⟨k, r', v', h', hk, hv, hr⟩ := hf l (hq.trans hl) a l w₁ w' le_rfl hw₁ r v h
    exact ⟨k, r', v', h', hl.trans hk, hv, hr⟩

end Aside

end

end Action

end ViewBinding
