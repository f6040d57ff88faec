import ViewBinding.Proofs.Guests.Likeness
import ViewBinding.Proofs.Guests.Parallel

/-! Readings that go parallel in two runs, and readings for guests, which the second run has none
of. -/

namespace ViewBinding

variable {α β γ δ : Type} {G : List String} {p q : Pairing} {w w' : World}

structure Evaluation.Twin (p : Pairing) (e e' : Evaluation) : Prop where
  subscriber : Option.Rel p.same e.subscriber e'.subscriber
  registrations : e.registrations = e'.registrations

theorem Evaluation.Twin.mono {e e' : Evaluation} (hq : p ≤ q) (h : e.Twin p e') : e.Twin q e' :=
  ⟨optionRel_mono (fun _ _ => Pairing.same_mono hq) h.subscriber, h.registrations⟩

theorem Value.Twin.owner {v v' : Value} (h : v.Twin p v') (f : Path) (segment : String) :
    EndsAlike p.pair (f.owner v segment) (f.owner v' segment) := by
  cases h with
  | object ho => exact ho
  | _ => exact rfl

theorem Frame.Twin.findModel {heeds : Prop} {f f' : Frame} (hf : f.Twin p f')
    (hw : w.SameData heeds p w') (name : Option String) :
    EndsAlike (fun m m' => m = m' ∧ p.pair m m) (f.findModel w name) (f'.findModel w' name) := by
  have found (name : String) : EndsAlike (fun m m' => m = m' ∧ p.pair m m)
      (Frame.findModel.found w name) (Frame.findModel.found w' name) := by
    have hn := hw.named name
    rw [Frame.findModel.found, Frame.findModel.found]
    generalize w.names.models.held[name]? = a at hn ⊢
    generalize w'.names.models.held[name]? = b at hn ⊢
    cases hn with
    | none => exact rfl
    | some hm =>
      obtain rfl := hw.fits.model hm
      exact ⟨rfl, hm⟩
  cases name with
  | some name => exact found name
  | none =>
    rw [Frame.findModel, Frame.findModel, ← hf.model]
    cases hm : f.model with
    | none => exact found "main"
    | some m => exact ⟨rfl, hf.made m hm⟩

theorem World.Twin.register (h : w.Twin G p w') {e e' : Evaluation} (he : e.Twin p e')
    {source source' : Source} (hs : source.Twin p source') :
    ((Mark.read source).leave (e, w)).2.Twin G p ((Mark.read source').leave (e', w')).2 ∧
      ((Mark.read source).leave (e, w)).1.Twin p ((Mark.read source').leave (e', w')).1 := by
  obtain ⟨s, n⟩ := e
  obtain ⟨s', n'⟩ := e'
  obtain rfl : n = n' := he.registrations
  cases he.subscriber with
  | none => exact ⟨h, ⟨.none, rfl⟩⟩
  | some hsame =>
    simp only [Mark.leave]
    have hadd := (h.registry hs).add? h.fits.oneToOne (fun hg => h.stranger_not_same hg hsame) hsame
    generalize (w.registry source).add? _ = a at hadd ⊢
    generalize (w'.registry source').add? _ = b at hadd ⊢
    cases hadd with
    | none => exact ⟨h, ⟨.some hsame, rfl⟩⟩
    | some hr => exact ⟨h.setRegistry hs hr, ⟨.some hsame, rfl⟩⟩

def Likeness.guests (G : List String) : Likeness where
  heeds := True
  world := World.Twin G
  evaluation := Evaluation.Twin
  sameData := World.Twin.sameData
  addCell := World.Twin.addCell
  addObject h hs := h.addObject
    ⟨fun key => optionRel_mono (fun _ _ => Slot.Cells.twin) (hs key), fun _ => .empty⟩
  addArray us vs h := h.addArray us vs
  computed _ h := h.tell (.some rfl)
  nobody := ⟨.none, rfl⟩
  mono := Evaluation.Twin.mono
  register h he hs := h.register he hs
  heeded _ he := ⟨optionRel_isSome he.subscriber, he.registrations⟩

variable {L : Likeness}

namespace Reading

def Parallel (L : Likeness) (p : Pairing) (x : Reading α) (x' : Reading β)
    (R : Pairing → α → β → Prop) : Prop :=
  ∀ q w w' e e', p ≤ q → L.world q w w' → L.evaluation q e e' →
    ∀ r e₁ v, x e w = some ((r, e₁), v) →
      ∃ l r' e₁' v', x' e' w' = some ((r', e₁'), v') ∧ q ≤ l ∧ L.world l v v' ∧
        L.evaluation l e₁ e₁' ∧ EndsAlike (R l) r r'

/-- Whether a reading changes nothing that two runs have in common, if it is for nobody or for a
guest. -/
def Aside (G : List String) (x : Reading α) : Prop :=
  ∀ p w w' e, w.Twin G p w' → (∀ s, e.subscriber = some s → p.stranger s) →
    ∀ r e₁ v, x e w = some ((r, e₁), v) → v.Twin G p w' ∧ e₁.subscriber = e.subscriber

section

variable {x : Reading α} {x' : Reading β} {R : Pairing → α → β → Prop} {S : Pairing → γ → δ → Prop}

namespace Parallel

theorem mono (hx : Parallel L p x x' R) (hq : p ≤ q) : Parallel L q x x' R :=
  fun l w w' e e' hl => hx l w w' e e' (hq.trans hl)

theorem pure {a : α} {b : β} (h : ∀ q, p ≤ q → R q a b) :
    Parallel L p (Pure.pure a) (Pure.pure b) R := by
  intro q w w' e e' hq hw he r e₁ v hr
  cases hr
  exact ⟨q, .ok b, e', w', rfl, le_rfl, hw, he, h q hq⟩

theorem pureAt {a : α} {b : β} (h : ∀ q w w', p ≤ q → L.world q w w' → R q a b) :
    Parallel L p (Pure.pure a) (Pure.pure b) R := by
  intro q w w' e e' hq hw he r e₁ v hr
  cases hr
  exact ⟨q, .ok b, e', w', rfl, le_rfl, hw, he, h q w w' hq hw⟩

theorem throw (f : Fault) :
    Parallel L p (MonadExcept.throw f : Reading α) (MonadExcept.throw f : Reading β) R := by
  intro q w w' e e' hq hw he r e₁ v hr
  cases hr
  exact ⟨q, .error f, e', w', rfl, le_rfl, hw, he, rfl⟩

theorem ofExcept {r : Except Fault α} {r' : Except Fault β}
    (h : ∀ q, p ≤ q → EndsAlike (R q) r r') :
    Parallel L p (MonadExcept.ofExcept r) (MonadExcept.ofExcept r') R := by
  cases r with
  | error f =>
    cases r' with
    | error g => exact (show f = g from h p le_rfl) ▸ throw f
    | ok b => exact (h p le_rfl).elim
  | ok a =>
    cases r' with
    | error g => exact (h p le_rfl).elim
    | ok b => exact pure h

theorem bind {f : α → Reading γ} {f' : β → Reading δ} (hx : Parallel L p x x' R)
    (hf : ∀ q, p ≤ q → ∀ a b, R q a b → Parallel L q (f a) (f' b) S) :
    Parallel L p (x >>= f) (x' >>= f') S := by
  intro q w w' e e' hq hw he r e₂ v h
  rw [bind_apply] at h
  split at h
  · cases h
  · cases h
    obtain ⟨l, r', e₁', v', h', hl, hv, he₁, hr⟩ := hx q w w' e e' hq hw he _ _ _ ‹_›
    cases r' with
    | ok b => cases hr
    | error g' => exact ⟨l, .error g', e₁', v', by rw [bind_apply, h'], hl, hv, he₁, hr⟩
  · obtain ⟨l, r', e₁', v', h', hl, hv, he₁, hr⟩ := hx q w w' e e' hq hw he _ _ _ ‹_›
    cases r' with
    | error g' => cases hr
    | ok b =>
      obtain ⟨k, r'', e₂', v'', h'', hk, hv', he₂, hr'⟩ :=
        hf l (hq.trans hl) _ b hr l _ v' _ e₁' le_rfl hv he₁ _ _ _ h
      refine ⟨k, r'', e₂', v'', ?_, hl.trans hk, hv', he₂, hr'⟩
      rw [bind_apply, h']
      exact h''

theorem getWorld {f : World → Reading α} {f' : World → Reading β}
    (h : ∀ q w w', p ≤ q → L.world q w w' → Parallel L q (f w) (f' w') R) :
    Parallel L p (getThe World >>= f) (getThe World >>= f') R :=
  fun q w w' e e' hq hw => h q w w' hq hw q w w' e e' le_rfl hw

theorem getEvaluation {f : Evaluation → Reading α} {f' : Evaluation → Reading β}
    (h : ∀ q e e', p ≤ q → L.evaluation q e e' → Parallel L q (f e) (f' e') R) :
    Parallel L p (getThe Evaluation >>= f) (getThe Evaluation >>= f') R :=
  fun q w w' e e' hq hw he => h q e e' hq he q w w' e e' le_rfl hw he

theorem modifyGet {g : World → α × World} {g' : World → β × World}
    (h : ∀ q w w', p ≤ q → L.world q w w' →
      ∃ l, q ≤ l ∧ L.world l (g w).2 (g' w').2 ∧ R l (g w).1 (g' w').1) :
    Parallel L p (modifyGetThe World g : Reading α) (modifyGetThe World g' : Reading β) R := by
  intro q w w' e e' hq hw he r e₁ v hr
  cases hr
  obtain ⟨l, hl, hv, hR⟩ := h q w w' hq hw
  exact ⟨l, .ok (g' w').1, e', (g' w').2, rfl, hl, hv, L.mono hl he, hR⟩

theorem ite {c c' : Prop} [Decidable c] [Decidable c'] {y : Reading α} {y' : Reading β}
    (hc : c ↔ c') (hx : Parallel L p x x' R) (hy : Parallel L p y y' R) :
    Parallel L p (if c then x else y) (if c' then x' else y') R := by
  by_cases h : c
  · rw [if_pos h, if_pos (hc.1 h)]
    exact hx
  · rw [if_neg h, if_neg fun h' => h (hc.2 h')]
    exact hy

theorem mapM {as : List γ} {f : γ → Reading α} {f' : γ → Reading β}
    (hR : ∀ q l, q ≤ l → ∀ a b, R q a b → R l a b)
    (hf : ∀ a ∈ as, Parallel L p (f a) (f' a) R) :
    Parallel L p (as.mapM f) (as.mapM f') fun q => List.Forall₂ (R q) := by
  induction as with
  | nil => exact pure fun _ _ => .nil
  | cons a as ih =>
    rw [List.mapM_cons, List.mapM_cons]
    refine bind (hf a List.mem_cons_self) fun q hq b b' hb => ?_
    refine bind ((ih fun c hc => hf c (List.mem_cons_of_mem a hc)).mono hq)
      fun l hl bs bs' hbs => ?_
    exact pure fun k hk => .cons (hR q k (hl.trans hk) _ _ hb) (hbs.imp (hR l k hk))

theorem outcome (hx : Parallel L p x x' R) :
    Parallel L p (Script.outcome x) (Script.outcome x') fun q => EndsAlike (R q) := by
  intro q w w' e e' hq hw he r e₁ v h
  rw [outcome_apply, Option.map_eq_some_iff] at h
  obtain ⟨⟨⟨r₀, e₀⟩, w₀⟩, hr, heq⟩ := h
  cases heq
  obtain ⟨l, r', e₁', v', h', hl, hv, he₁, hR⟩ := hx q w w' e e' hq hw he _ _ _ hr
  exact ⟨l, .ok r', e₁', v', by rw [outcome_apply, h']; rfl, hl, hv, he₁, hR⟩

theorem evaluate (hx : Parallel (.guests G) p x x' R) {s s' : Option Subscriber}
    (hs : Option.Rel p.same s s') :
    Action.Parallel G p (x.evaluate s) (x'.evaluate s') fun q a b =>
      EndsAlike (R q) a.1 b.1 ∧ a.2 = b.2 := by
  intro q w w' hq hw r v h
  obtain ⟨⟨⟨r₀, e₀⟩, w₀⟩, hr, heq⟩ := Option.map_eq_some_iff.1 h
  cases heq
  have he : Evaluation.Twin q { subscriber := s } { subscriber := s' } :=
    ⟨optionRel_mono (fun _ _ => Pairing.same_mono hq) hs, rfl⟩
  obtain ⟨l, r', e₁', v', h', hl, hv, he₁, hR⟩ := hx q w w' _ _ hq hw he _ _ _ hr
  exact ⟨l, .ok (r', e₁'.registrations), v', Option.map_eq_some_iff.2 ⟨_, h', rfl⟩, hl, hv, hR,
    he₁.registrations⟩

theorem once (hx : Parallel (.guests G) p x x' R) (hR : ∀ q l, q ≤ l → ∀ a b, R q a b → R l a b) :
    Action.Parallel G p x.once x'.once R :=
  .bind (hx.evaluate .none) fun _ _ _ _ h => .ofExcept fun _ hl => h.1.mono (hR _ _ hl)

theorem track (hx : Parallel (.guests G) p x x' R) (hR : ∀ q l, q ≤ l → ∀ a b, R q a b → R l a b)
    {s s' : Subscriber} (hs : p.same s s') : Action.Parallel G p (x.track s) (x'.track s') R :=
  .bind (hx.evaluate (.some hs)) fun _ _ _ _ h => .ofExcept fun _ hl => h.1.mono (hR _ _ hl)

theorem ofOnce (hx : Parallel L p x x' R) :
    Parallel L p (Reading.ofAction x.once) (Reading.ofAction x'.once) R := by
  intro q w w' e e' hq hw he r e₁ v h
  obtain ⟨⟨r₀, w₀⟩, hr, heq⟩ := Option.map_eq_some_iff.1 h
  cases heq
  rw [once_eq_map, Option.map_eq_some_iff] at hr
  obtain ⟨⟨⟨r₁, e₁⟩, w₁⟩, hr, heq⟩ := hr
  cases heq
  obtain ⟨l, r', e₁', v', h', hl, hv, -, hR⟩ := hx q w w' _ _ hq hw L.nobody _ _ _ hr
  refine ⟨l, r', e', v', Option.map_eq_some_iff.2 ⟨(r', v'), ?_, rfl⟩, hl, hv, L.mono hl he, hR⟩
  rw [once_eq_map, h']
  rfl

end Parallel

namespace Aside

theorem pure (a : α) : Aside G (Pure.pure a : Reading α) := by
  intro p w w' e hw _ r e₁ v h
  cases h
  exact ⟨hw, rfl⟩

theorem throw (f : Fault) : Aside G (MonadExcept.throw f : Reading α) := by
  intro p w w' e hw _ r e₁ v h
  cases h
  exact ⟨hw, rfl⟩

theorem ofExcept (r : Except Fault α) : Aside G (MonadExcept.ofExcept r : Reading α) := by
  cases r with
  | error f => exact throw f
  | ok a => exact pure a

theorem bind {f : α → Reading γ} (hx : Aside G x) (hf : ∀ a, Aside G (f a)) :
    Aside G (x >>= f) := by
  intro p w w' e hw he r e₂ v h
  rw [bind_apply] at h
  split at h
  · cases h
  · cases h
    exact hx p w w' e hw he _ _ _ ‹_›
  · obtain ⟨hv, hs⟩ := hx p w w' e hw he _ _ _ ‹_›
    obtain ⟨hv', hs'⟩ := hf _ p _ w' _ hv (fun s h => he s (hs ▸ h)) _ _ _ h
    exact ⟨hv', hs'.trans hs⟩

theorem getWorld {f : World → Reading α} (h : ∀ w, Aside G (f w)) :
    Aside G (getThe World >>= f) := fun p w w' e hw he => h w p w w' e hw he

theorem getEvaluation {f : Evaluation → Reading α} (h : ∀ e, Aside G (f e)) :
    Aside G (getThe Evaluation >>= f) := fun p w w' e hw he => h e p w w' e hw he

theorem modifyGet {g : World → α × World}
    (h : ∀ p w w', World.Twin G p w w' → (g w).2.Twin G p w') :
    Aside G (modifyGetThe World g : Reading α) := by
  intro p w w' e hw _ r e₁ v hr
  cases hr
  exact ⟨h p w w' hw, rfl⟩

theorem ite {c : Prop} [Decidable c] {y : Reading α} (hx : Aside G x) (hy : Aside G y) :
    Aside G (if c then x else y) := by
  split
  · exact hx
  · exact hy

theorem evaluate (hx : Aside G x) {s : Option Subscriber}
    (hs : ∀ t, s = some t → p.stranger t) : Action.Aside G p (x.evaluate s) := by
  intro q w w' hq hw r v h
  obtain ⟨⟨⟨r₀, e₀⟩, w₀⟩, hr, heq⟩ := Option.map_eq_some_iff.1 h
  cases heq
  exact ⟨q, le_rfl, (hx q w w' _ hw (fun t ht => Pairing.stranger_mono hq (hs t ht)) _ _ _ hr).1⟩

theorem once (hx : Aside G x) : Action.Aside G p x.once :=
  .bind (hx.evaluate nofun) fun _ _ _ => .ofExcept _

theorem ofAction {x : Action α}
    (hx : ∀ p w w', World.Twin G p w w' → ∀ r v, x w = some (r, v) → v.Twin G p w') :
    Aside G (Reading.ofAction x) := by
  intro p w w' e hw _ r e₁ v h
  obtain ⟨⟨r₀, w₀⟩, hr, heq⟩ := Option.map_eq_some_iff.1 h
  cases heq
  exact ⟨hx p w w' hw _ _ hr, rfl⟩

theorem ofOnce (hx : Aside G x) : Aside G (Reading.ofAction x.once) := by
  refine ofAction fun p w w' hw r v h => ?_
  have hev {r v} (h : x.evaluate none w = some (r, v)) : v.Twin G p w' := by
    obtain ⟨⟨⟨r₀, e₀⟩, w₀⟩, hr, heq⟩ := Option.map_eq_some_iff.1 h
    cases heq
    exact (hx p w w' _ hw (fun _ hs => by cases hs) _ _ _ hr).1
  obtain ⟨g, hg, rfl⟩ | ⟨a, w₁, ha, h⟩ := Action.bind_eq_some h
  · exact hev hg
  · obtain ⟨⟨r₁⟩, n⟩ := a <;> cases h <;> exact hev ha

theorem track (hx : Aside G x) {s : Subscriber} (hs : p.stranger s) :
    Action.Aside G p (x.track s) :=
  .bind (hx.evaluate fun t ht => by cases ht; exact hs) fun _ _ _ => .ofExcept _

end Aside

end

/-! Reading data. -/

theorem Parallel.register {source source' : Source} (hs : source.Twin p source') :
    Parallel L p (register source) (register source') fun _ _ _ => True := by
  intro q w w' e e' hq hw he r e₁ v h
  rw [register_apply] at h
  cases h
  obtain ⟨hv, he₁⟩ := L.register hw he (hs.mono hq)
  exact ⟨q, .ok (), _, _, register_apply .., le_rfl, hv, he₁, trivial⟩

theorem Parallel.computed (c : Computed) :
    Parallel L p (ofAction (Action.tell (.computed c))) (ofAction (Action.tell (.computed c)))
      fun _ _ _ => True := by
  intro q w w' e e' hq hw he r e₁ v h
  cases h
  exact ⟨q, .ok (), e', w'.tell (.computed c), rfl, le_rfl, L.computed c hw, he, trivial⟩

theorem Aside.register (source : Source) : Aside G (register source) := by
  intro p w w' e hw he r e₁ v h
  obtain ⟨s, n⟩ := e
  rw [register_apply] at h
  cases h
  cases s with
  | none => exact ⟨hw, rfl⟩
  | some s =>
    simp only [Mark.leave]
    cases hr : (w.registry source).add? s with
    | none => exact ⟨hw, rfl⟩
    | some registry => exact ⟨hw.setRegistryLeft (he s rfl) hr, rfl⟩

theorem Parallel.cell {c c' : Ref .cell} (hc : p.pair c c') :
    Parallel L p (Cell.read c) (Cell.read c') Value.Twin := by
  have hs : Source.Twin p (.cell c) (.cell c') := hc
  exact .bind (.register hs) fun _ hq _ _ _ => .getWorld fun _ _ _ hl hw =>
    .pure fun _ hk => ((L.sameData hw).cells _ _ (hl.pair (hq.pair hc))).mono hk

theorem Aside.cell (c : Ref .cell) : Aside G (Cell.read c) :=
  .bind (.register _) fun _ => .getWorld fun _ => .pure _

section

variable {compute compute' : Computed → Reading Value}

def ComputesParallel (L : Likeness) (p : Pairing) (compute compute' : Computed → Reading Value) :
    Prop :=
  ∀ c : Computed, L.heeds ∨ c.body.Heedless → Parallel L p (compute c) (compute' c) Value.Twin

theorem ComputesParallel.mono (hc : ComputesParallel L p compute compute') (hq : p ≤ q) :
    ComputesParallel L q compute compute' := fun c hh => (hc c hh).mono hq

section

variable (hc : ComputesParallel L p compute compute')

include hc

theorem Parallel.object {o o' : Ref .object} (ho : p.pair o o') (key : String) :
    Parallel L p (Object.read compute o key) (Object.read compute' o' key) Value.Twin := by
  refine .getWorld fun q w w' hq hw => ?_
  have hslot := (L.sameData hw).slot? (hq.pair ho) key
  generalize w.slot? o key = a at hslot ⊢
  generalize w'.slot? o' key = b at hslot ⊢
  cases hslot with
  | none =>
    have hs : Source.Twin q (.waiting o key) (.waiting o' key) := ⟨hq.pair ho, rfl⟩
    exact .bind (.register hs) fun _ _ _ _ _ => .pure fun _ _ => .null
  | @some a b hs =>
    cases a <;> cases b <;> first | exact False.elim hs | skip
    · exact .cell hs
    · obtain ⟨rfl, hh⟩ := hs
      exact (hc _ hh).mono hq

theorem Parallel.follow (f : Path) (segments : List String) {v v' : Value} (hv : v.Twin p v') :
    Parallel L p (f.follow compute segments v) (f.follow compute' segments v') Value.Twin := by
  induction segments generalizing p v v' with
  | nil => exact .pure fun _ hq => hv.mono hq
  | cons segment rest ih =>
    refine .bind (.ofExcept fun _ hq => (hv.mono hq).owner f segment) fun q hq o o' ho => ?_
    have hobj := Parallel.object (hc.mono hq) ho segment
    exact .bind hobj fun l hl u u' hu => ih (hc.mono (hq.trans hl)) hu

theorem Parallel.model {m : Ref .model} (hm : p.pair m m) (path : String) :
    Parallel L p (ViewModel.read compute m path) (ViewModel.read compute' m path) Value.Twin := by
  refine .bind (R := fun _ => Eq) (.ofExcept fun _ _ => ?_) fun q hq f f' hf => ?_
  · cases Path.parse path <;> rfl
  · cases hf
    refine .getWorld fun l w w' hl hw => ?_
    have hroot := (L.sameData hw).models m m ((hq.trans hl).pair hm)
    exact Parallel.follow (hc.mono (hq.trans hl)) f f.segments (.object hroot)

theorem Parallel.frame {f f' : Frame} (hf : f.Twin p f') (name : Option String) (path : String) :
    Parallel L p (f.read compute name path) (f'.read compute' name path) Value.Twin := by
  refine .getWorld fun q w w' hq hw => ?_
  refine .bind (R := fun _ m m' => m = m' ∧ q.pair m m)
    (.ofExcept fun _ _ => (hf.mono hq).findModel (L.sameData hw) name) fun l hl m m' hm => ?_
  obtain rfl := hm.1
  exact Parallel.model (hc.mono (hq.trans hl)) (hl.pair hm.2) path

end

section

variable (hc : ∀ c, Aside G (compute c))

include hc

theorem Aside.object (o : Ref .object) (key : String) : Aside G (Object.read compute o key) := by
  refine .getWorld fun w => ?_
  cases w.slot? o key with
  | none => exact .bind (.register _) fun _ => .pure _
  | some slot =>
    cases slot with
    | cell c => exact .cell c
    | computed c => exact hc c

theorem Aside.follow (f : Path) (segments : List String) (v : Value) :
    Aside G (f.follow compute segments v) := by
  induction segments generalizing v with
  | nil => exact .pure _
  | cons segment rest ih =>
    exact .bind (.ofExcept _) fun o => .bind (.object hc o segment) fun u => ih u

theorem Aside.model (m : Ref .model) (path : String) : Aside G (ViewModel.read compute m path) :=
  .bind (.ofExcept _) fun f => .getWorld fun _ => .follow hc f _ _

theorem Aside.frame (f : Frame) (name : Option String) (path : String) :
    Aside G (f.read compute name path) :=
  .getWorld fun _ => .bind (.ofExcept _) fun m => .model hc m path

end

end

end Reading

end ViewBinding
