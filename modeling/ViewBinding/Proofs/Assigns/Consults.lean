import ViewBinding.Proofs.Goes
import ViewBinding.Proofs.Look.Within

/-! Reading for nobody makes new data at most, whatever expressions are worked out on the way. -/

namespace ViewBinding

variable {w w' : World}

theorem World.Grown.closed (h : w.Grown w') (hw : w.Closed) : w'.Closed where
  cell o key c hs := by
    obtain hlt | hle := Nat.lt_or_ge o.index w.objects.size
    · rw [World.slot?, h.object o hlt] at hs
      exact Nat.lt_of_lt_of_le (hw.cell o key c hs) h.cells
    · exact h.newSlot o key _ hle hs
  computed o key p hs := by
    obtain hlt | hle := Nat.lt_or_ge o.index w.objects.size
    · rw [World.slot?, h.object o hlt] at hs
      exact Nat.lt_of_lt_of_le (hw.computed o key p hs) h.models
    · exact (h.newSlot o key _ hle hs).1
  value c := by
    obtain hlt | hle := Nat.lt_or_ge c.index w.cells.size
    · rw [h.cell c hlt]
      exact (hw.value c).mono h.objects
    · exact (h.newCell c hle).1
  root m hm := by
    obtain hlt | hle := Nat.lt_or_ge m.index w.models.size
    · rw [h.model m hlt]
      exact Nat.lt_of_lt_of_le (hw.root m hlt) h.objects
    · exact h.newRoot m hle hm
  named m hm := Nat.lt_of_lt_of_le (hw.named m (h.names ▸ hm)) h.models
  saved name v hv := (hw.saved name v (h.names ▸ hv)).mono h.objects
  sound source := by
    obtain e | ⟨-, e⟩ := h.registry source <;> rw [e]
    · exact hw.sound source
    · exact .empty

def World.Houses (w : World) (m : Ref .model) : Prop := w.Closed ∧ m.index < w.models.size

theorem World.Grown.houses (h : w.Grown w') {m : Ref .model} (hw : w.Houses m) : w'.Houses m :=
  ⟨h.closed hw.1, Nat.lt_of_lt_of_le hw.2 h.models⟩

namespace Reading

variable {α β : Type} {G : Prop}

/-- Whether a reading for nobody leaves its evaluation alone and makes new data at most, with a
result for which `Q` holds if it succeeds, as long as `G`. -/
def Consults (G : Prop) (x : Reading α) (w : World) (Q : α → World → Prop) : Prop :=
  ∀ e r e' w', e.subscriber = none → x e w = some ((r, e'), w') →
    e' = e ∧ w.Grown w' ∧ (G → ∀ a, r = .ok a → Q a w')

namespace Consults

variable {Q : α → World → Prop} {R : β → World → Prop}

theorem pure {a : α} (h : G → Q a w) : (Pure.pure a : Reading α).Consults G w Q := by
  rintro e r e' w' - hr
  cases hr
  exact ⟨rfl, .refl w, fun hG a ha => by cases ha; exact h hG⟩

theorem throw (f : Fault) : (MonadExcept.throw f : Reading α).Consults G w Q := by
  rintro e r e' w' - hr
  cases hr
  exact ⟨rfl, .refl w, fun _ _ ha => nomatch ha⟩

theorem ofExcept {r : Except Fault α} (h : G → ∀ a, r = .ok a → Q a w) :
    (MonadExcept.ofExcept r : Reading α).Consults G w Q := by
  cases r with
  | error f => exact throw f
  | ok a => exact pure fun hG => h hG a rfl

theorem getWorld {f : World → Reading α} (h : (f w).Consults G w Q) :
    (getThe World >>= f).Consults G w Q := h

theorem getEvaluation {f : Evaluation → Reading α} (h : ∀ e, (f e).Consults G w Q) :
    (getThe Evaluation >>= f).Consults G w Q := fun e r e' w' he hr => h e e r e' w' he hr

theorem modifyGet {f : World → α × World} (h : w.Grown (f w).2) (hq : G → Q (f w).1 (f w).2) :
    (modifyGetThe World f : Reading α).Consults G w Q := by
  rintro e r e' w' - hr
  cases hr
  exact ⟨rfl, h, fun hG a ha => by cases ha; exact hq hG⟩

theorem bind {x : Reading α} {f : α → Reading β} (hx : x.Consults G w Q)
    (hf : ∀ a w', w.Grown w' → (f a).Consults (G ∧ Q a w') w' R) :
    (x >>= f).Consults G w R := by
  intro e r e' w' he h
  rw [bind_apply] at h
  split at h
  · cases h
  · cases h
    obtain ⟨rfl, hg, -⟩ := hx _ _ _ _ he ‹_›
    exact ⟨rfl, hg, fun _ _ hb => nomatch hb⟩
  · obtain ⟨rfl, hg, hq⟩ := hx _ _ _ _ he ‹_›
    obtain ⟨rfl, hg', hr⟩ := hf _ _ hg _ _ _ _ he h
    exact ⟨rfl, hg.trans hg', fun hG => hr ⟨hG, hq hG _ rfl⟩⟩

theorem register (source : Source) :
    (Reading.register source).Consults G w fun _ _ => True := by
  rintro ⟨s?, k⟩ r e' w' he h
  obtain rfl : s? = none := he
  cases h
  exact ⟨rfl, .refl w, fun _ _ _ => trivial⟩

theorem once {x : Reading α} (hx : x.Consults G w Q) : (ofAction x.once).Consults G w Q := by
  rintro e r e' w' - h
  obtain ⟨⟨r', w₁⟩, hr, he⟩ := Option.map_eq_some_iff.1 h
  cases he
  rw [once_eq_map, Option.map_eq_some_iff] at hr
  obtain ⟨⟨⟨r', e'⟩, w₁⟩, hr, he⟩ := hr
  cases he
  exact ⟨rfl, (hx _ _ _ _ rfl hr).2⟩

theorem weaken {x : Reading α} {R : α → World → Prop} (hx : x.Consults False w Q) :
    x.Consults False w R := by
  intro e r e' w' he h
  obtain ⟨he', hg, -⟩ := hx e r e' w' he h
  exact ⟨he', hg, False.elim⟩

theorem operands {x y : Reading Value} {g : Value → Value → Value} {Q : Value → World → Prop}
    {R : Value → World → Prop} (hg : ∀ u v, (g u v).object? = none) (hx : x.Consults G w Q)
    (hy : ∀ w', w.Grown w' → y.Consults G w' R) :
    (do let u ← x; let v ← y; return g u v : Reading Value).Consults G w
      fun v w' => v.Within w'.objects.size :=
  bind hx fun _ w' hgrown => bind (fun e r e' w'' he h => (hy w' hgrown e r e' w'' he h).imp_right
    fun h => h.imp_right fun hq hG => hq hG.1) fun u _ _ => pure fun _ =>
      Value.within_of_object? (hg _ u)

end Consults

end Reading

section

open Reading.Consults

variable {G : Prop}

theorem Cell.read_consults {c : Ref .cell} (hG : G → w.Closed) :
    (Cell.read c).Consults G w fun v w' => v.Within w'.objects.size := by
  rintro ⟨s?, k⟩ r e' w' he h
  obtain rfl : s? = none := he
  cases h
  exact ⟨rfl, .refl w, fun h v hv => by cases hv; exact (hG h).value c⟩

variable {compute : Computed → Reading Value}

def Consulting (compute : Computed → Reading Value) : Prop :=
  ∀ (G : Prop) (p : Computed) (w : World), (G → w.Houses p.model) →
    (compute p).Consults G w fun v w' => v.Within w'.objects.size

theorem Object.read_consults (hc : Consulting compute) {o : Ref .object} (hG : G → w.Closed)
    (key : String) : (Object.read compute o key).Consults G w
      fun v w' => v.Within w'.objects.size := by
  refine getWorld ?_
  cases hs : w.slot? o key with
  | none =>
    exact bind (register (.waiting o key)) fun _ _ _ => pure fun _ => Value.within_of_object? rfl
  | some slot =>
    cases slot with
    | cell c => exact Cell.read_consults hG
    | computed p => exact hc G p w fun h => ⟨hG h, (hG h).computed o key p hs⟩

theorem Path.follow_consults (hc : Consulting compute) (p : Path) (segments : List String)
    {v : Value} (hG : G → w.Closed ∧ v.Within w.objects.size) :
    (p.follow compute segments v).Consults G w fun v w' => v.Within w'.objects.size := by
  induction segments generalizing w v G with
  | nil => exact pure fun h => (hG h).2
  | cons segment rest ih =>
    exact bind (Q := fun _ _ => True) (ofExcept fun _ _ _ => trivial) fun o w₁ hg =>
      bind (Object.read_consults hc (fun h => hg.closed (hG h.1).1) segment) fun u w₂ hg' =>
        ih fun h => ⟨hg'.closed (hg.closed (hG h.1.1).1), h.2⟩

theorem ViewModel.read_consults (hc : Consulting compute) {m : Ref .model}
    (hG : G → w.Houses m) (path : String) :
    (ViewModel.read compute m path).Consults G w fun v w' => v.Within w'.objects.size :=
  bind (Q := fun _ w' => w'.Houses m) (ofExcept fun h _ _ => hG h)
    fun p w₁ _ => getWorld <| Path.follow_consults hc p p.segments fun h =>
      ⟨h.2.1, fun o ho => by
        obtain rfl := Option.some.inj ho
        exact h.2.1.root m h.2.2⟩

theorem World.Houses.findModel {m m' : Ref .model} (hw : w.Houses m) {name : Option String}
    (h : Frame.findModel { model := m } w name = .ok m') : w.Houses m' := by
  refine ⟨hw.1, ?_⟩
  cases name with
  | none => cases h; exact hw.2
  | some name =>
    cases hn : w.names.models.held[name]? with
    | none =>
      simp only [Frame.findModel, Frame.findModel.found, hn] at h
      cases h
    | some m'' =>
      simp only [Frame.findModel, Frame.findModel.found, hn] at h
      cases h
      exact hw.1.named _ ((Holder.holds_iff _ _).2 ⟨name, hn⟩)

theorem Frame.read_consults (hc : Consulting compute) {m : Ref .model}
    (hG : G → w.Houses m) (model : Option String) (path : String) :
    (Frame.read compute { model := m } model path).Consults G w
      fun v w' => v.Within w'.objects.size :=
  getWorld <| bind (Q := fun m' w' => w'.Houses m') (ofExcept fun h _ hm => (hG h).findModel hm)
    fun _ _ _ => ViewModel.read_consults hc (fun h => h.2) path

mutual

/-- Working out an expression for nobody makes new data at most, and ends with a value that was
made. -/
theorem Expr.eval_consults (hc : Consulting compute) {m : Ref .model} :
    ∀ (x : Expr) {G : Prop} {w : World}, (G → w.Houses m) →
      (x.eval compute { model := m }).Consults G w fun v w' => v.Within w'.objects.size
  | .data d, _, w, _ => modifyGet (World.observe_grown d w).1 fun _ => (World.observe_grown d w).2
  | .number _, _, _, _ => pure fun _ => Value.within_of_object? rfl
  | .get model path, _, _, hG => Frame.read_consults hc hG model path
  | .peek model path, _, _, hG => once (Frame.read_consults hc hG model path)
  | .property object key, _, _, hG =>
    bind (eval_consults hc object hG) fun u w₁ hg =>
      bind (eval_consults hc key fun h => hg.houses (hG h.1)) fun k w₂ hg' => by
        cases u.object? with
        | none => exact throw _
        | some o =>
          exact Object.read_consults hc (fun h => (hg'.houses (hg.houses (hG h.1.1))).1) k.text
  | .root model, _, w, hG => by
    refine getWorld (bind (Q := fun m' w' => (w.models.get m').data.index < w'.objects.size)
      (ofExcept fun h m' hm' => ?_) fun m' w' _ => pure fun h o ho => ?_)
    · exact (hG h).1.root m' ((hG h).findModel hm').2
    · obtain rfl := Option.some.inj ho
      exact h.2
  | .saved name, _, w, hG => by
    refine getWorld ?_
    cases h : w.names.values[name]? with
    | none => exact throw _
    | some v => exact pure fun hg => (hG hg).1.saved name v h
  | .array items, _, _, hG =>
    bind (evalAll_consults hc items hG) fun vs w' _ =>
      modifyGet (World.Grown.addArray w' vs) fun _ => Value.within_of_object? rfl
  | .concat parts, _, _, hG =>
    bind (evalAll_consults hc parts hG) fun _ _ _ => pure fun _ => Value.within_of_object? rfl
  | .add a b, _, _, hG =>
    operands (fun _ _ => rfl) (eval_consults hc a hG) fun _ hg =>
      eval_consults hc b fun h => hg.houses (hG h)
  | .mul a b, _, _, hG =>
    operands (fun _ _ => rfl) (eval_consults hc a hG) fun _ hg =>
      eval_consults hc b fun h => hg.houses (hG h)
  | .less a b, _, _, hG =>
    operands (fun _ _ => rfl) (eval_consults hc a hG) fun _ hg =>
      eval_consults hc b fun h => hg.houses (hG h)
  | .same a b, _, _, hG =>
    operands (fun _ _ => rfl) (eval_consults hc a hG) fun _ hg =>
      eval_consults hc b fun h => hg.houses (hG h)
  | .cond test yes no, _, _, hG =>
    bind (eval_consults hc test hG) fun v w' hg => by
      cases v.isTrue with
      | true => exact eval_consults hc yes fun h => hg.houses (hG h.1)
      | false => exact eval_consults hc no fun h => hg.houses (hG h.1)
  | .sort e, _, _, hG =>
    bind (eval_consults hc e hG) fun _ _ _ => pure fun _ => Value.within_of_object? rfl
  | .fail _, _, _, _ => throw _
  | .tracking, _, _, _ => getEvaluation fun _ => pure fun _ => Value.within_of_object? rfl
  | .registrations, _, _, _ => getEvaluation fun _ => pure fun _ => Value.within_of_object? rfl
  | .argument which, _, _, _ => pure fun _ => Value.within_of_object? (by cases which <;> rfl)

theorem Expr.evalAll_consults (hc : Consulting compute) {m : Ref .model} :
    ∀ (xs : List Expr) {G : Prop} {w : World}, (G → w.Houses m) →
      (Expr.evalAll compute { model := m } xs).Consults G w fun _ _ => True
  | [], _, _, _ => pure fun _ => trivial
  | x :: xs, _, _, hG =>
    bind (eval_consults hc x hG) fun _ _ hg =>
      bind (evalAll_consults hc xs fun h => hg.houses (hG h.1)) fun _ _ _ => pure fun _ => trivial

end

end

theorem World.Grown.note (w : World) (es : Array Happening) : w.Grown { w with trace := es } :=
  { World.Grown.refl w with newSlot := (World.Grown.refl w).newSlot }

theorem Engine.consulting (n : Nat) : Consulting (Engine.ofFuel n).compute := by
  induction n with
  | zero =>
    intro G p w hG e r e' w' he h
    cases h
  | succ n ih =>
    intro G p w hG e r e' w' he h
    rw [show (Engine.ofFuel (n + 1)).compute p = p.eval (Engine.ofFuel n).compute from rfl,
      Computed.eval, Reading.getWorld_bind] at h
    by_cases hm : w.modelAlive p.model
    · have h' : p.body.eval (Engine.ofFuel n).compute { model := p.model } e
          (w.tell (.computed p)) = some ((r, e'), w') := by
        rwa [if_pos hm] at h
      have hg := World.Grown.note w (w.tell (.computed p)).trace
      obtain ⟨rfl, hg', hq⟩ :=
        Expr.eval_consults ih p.body (fun h => hg.houses (hG h)) _ _ _ _ he h'
      exact ⟨rfl, hg.trans hg', hq⟩
    · have h' : some ((Except.error Fault.detached, e), w) = some ((r, e'), w') := by
        rwa [if_neg hm] at h
      cases h'
      exact ⟨rfl, .refl w, fun _ _ hv => by cases hv⟩

end ViewBinding
