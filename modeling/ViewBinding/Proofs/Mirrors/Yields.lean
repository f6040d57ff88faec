import ViewBinding.Proofs.Course.Readings
import ViewBinding.Proofs.Mirrors.Arrays

/-! Readings find and make only arrays that are known by then. -/

namespace ViewBinding

variable {T T' : Arrays} {w w' : World} {α β : Type}

namespace Reading

/-- Whether all arrays are known after a reading, for whomever it reads, with a result for which `Q`
holds if it succeeds. -/
def Yields (T : Arrays) (w : World) (x : Reading α) (Q : α → Arrays → Prop) : Prop :=
  ∀ e r e' w', x e w = some ((r, e'), w') →
    ∃ T', T <+: T' ∧ w'.Knows T' ∧ ∀ a, r = .ok a → Q a T'

namespace Yields

variable {Q : α → Arrays → Prop} {R : β → Arrays → Prop} {x : Reading α}

theorem pure (hw : w.Knows T) {a : α} (h : Q a T) : Yields T w (Pure.pure a) Q := by
  intro e r e' w' hr
  cases hr
  exact ⟨T, List.prefix_refl T, hw, fun b hb => by cases hb; exact h⟩

theorem throw (hw : w.Knows T) (f : Fault) : Yields T w (MonadExcept.throw f) Q := by
  intro e r e' w' hr
  cases hr
  exact ⟨T, List.prefix_refl T, hw, fun b hb => nomatch hb⟩

theorem ofExcept (hw : w.Knows T) {r : Except Fault α} (h : ∀ a, r = .ok a → Q a T) :
    Yields T w (MonadExcept.ofExcept r) Q := by
  cases r with
  | error f => exact throw hw f
  | ok a => exact pure hw (h a rfl)

theorem getWorld {f : World → Reading α} (h : Yields T w (f w) Q) :
    Yields T w (getThe World >>= f) Q := h

theorem getEvaluation {f : Evaluation → Reading α} (h : ∀ e, Yields T w (f e) Q) :
    Yields T w (getThe Evaluation >>= f) Q := fun e r e' w' hr => h e e r e' w' hr

theorem bind {f : α → Reading β} (hx : Yields T w x Q)
    (hf : ∀ a T' w', T <+: T' → w'.Knows T' → Q a T' → Yields T' w' (f a) R) :
    Yields T w (x >>= f) R := by
  intro e r e' w' h
  rw [bind_apply] at h
  split at h
  · cases h
  · cases h
    obtain ⟨T', hT, hw, -⟩ := hx _ _ _ _ ‹_›
    exact ⟨T', hT, hw, fun b hb => nomatch hb⟩
  · obtain ⟨T₁, hT₁, hw₁, hq⟩ := hx _ _ _ _ ‹_›
    obtain ⟨T₂, hT₂, hw₂, hr⟩ := hf _ T₁ _ hT₁ hw₁ (hq _ rfl) _ _ _ _ h
    exact ⟨T₂, hT₁.trans hT₂, hw₂, hr⟩

theorem ofAction {x : Action α} (h : ∀ r w', x w = some (r, w') →
    ∃ T', T <+: T' ∧ w'.Knows T' ∧ ∀ a, r = .ok a → Q a T') :
    Yields T w (Reading.ofAction x) Q := by
  intro e r e' w' hr
  obtain ⟨⟨r', w₁⟩, hr, he⟩ := Option.map_eq_some_iff.1 hr
  cases he
  exact h _ _ hr

theorem once (hx : Yields T w x Q) {r : Except Fault α} (h : x.once w = some (r, w')) :
    ∃ T', T <+: T' ∧ w'.Knows T' ∧ ∀ a, r = .ok a → Q a T' := by
  obtain ⟨g, he, rfl⟩ | ⟨⟨r', k⟩, w₁, he, h⟩ := Action.bind_eq_some h
  · obtain ⟨p, hp, he⟩ := Option.map_eq_some_iff.1 he
    cases he
  · obtain ⟨⟨⟨r₁, e⟩, w₂⟩, hp, he⟩ := Option.map_eq_some_iff.1 he
    cases he
    cases r' <;> cases h <;> exact hx _ _ _ _ hp

theorem register (hw : w.Knows T) (source : Source) :
    Yields T w (Reading.register source) fun _ _ => True := by
  intro e r e' w' h
  rw [register_apply] at h
  cases h
  refine ⟨T, List.prefix_refl T, ?_, fun _ _ => trivial⟩
  rcases e with ⟨_ | s, k⟩
  · exact hw
  · simp only [Mark.leave]
    split
    · exact hw
    · exact hw.setRegistry source _

theorem mapM {l : List β} {f : β → Reading α} (hw : w.Knows T)
    (hf : ∀ b ∈ l, ∀ T' w', T <+: T' → w'.Knows T' → Yields T' w' (f b) fun _ _ => True) :
    Yields T w (l.mapM f) fun _ _ => True := by
  induction l generalizing T w with
  | nil => exact pure hw trivial
  | cons b l ih =>
    rw [List.mapM_cons]
    refine bind (hf b List.mem_cons_self T w (List.prefix_refl T) hw) fun _ T₁ w₁ hT₁ hw₁ _ =>
      bind (ih hw₁ fun c hc T₂ w₂ hT₂ => ?_) fun _ T₂ w₂ hT₂ hw₂ _ => pure hw₂ trivial
    exact hf c (List.mem_cons_of_mem b hc) T₂ w₂ (hT₁.trans hT₂)

theorem outcome (hx : Yields T w x Q) :
    Yields T w (Script.outcome x) fun _ _ => True := by
  intro e r e' w' h
  rw [outcome_apply, Option.map_eq_some_iff] at h
  obtain ⟨⟨⟨r', e₁⟩, w₁⟩, hr, he⟩ := h
  cases he
  obtain ⟨T', hT, hw, -⟩ := hx _ _ _ _ hr
  exact ⟨T', hT, hw, fun _ _ => trivial⟩

end Yields

end Reading

abbrev Value.KnownIn (v : Value) (T : Arrays) : Prop := v.Known T

open Reading.Yields

theorem Cell.read_yields (hw : w.Knows T) (c : Ref .cell) :
    Reading.Yields T w (Cell.read c) Value.KnownIn :=
  bind (register hw (.cell c)) fun _ _ _ _ hw' _ => getWorld (pure hw' (hw'.cell c))

def Frame.Known (T : Arrays) (f : Frame) : Prop :=
  ∀ c, f.change = some c → c.new.Known T ∧ c.old.Known T

theorem Frame.Known.mono {f : Frame} (h : f.Known T) (hT : T <+: T') : f.Known T' :=
  fun c hc => (h c hc).imp (·.mono hT) (·.mono hT)

theorem Frame.known_of_change {f : Frame} (h : f.change = none) : f.Known T := fun c hc => by
  rw [h] at hc
  cases hc

theorem Frame.Known.argument {f : Frame} (h : f.Known T) (which : Argument) :
    (f.argument which).Known T := by
  cases which with
  | new =>
    cases hc : f.change with
    | none => simpa [Frame.argument, hc] using Value.known_null
    | some c => simpa [Frame.argument, hc] using (h c hc).1
  | old =>
    cases hc : f.change with
    | none => simpa [Frame.argument, hc] using Value.known_null
    | some c => simpa [Frame.argument, hc] using (h c hc).2
  | kind => cases hc : f.event <;> simp [Frame.argument, hc, Value.Known]
  | value => cases hc : f.event.bind Event.value <;> simp [Frame.argument, hc, Value.Known]

theorem Reading.Yields.operands {x y : Reading Value} {g : Value → Value → Value}
    (hg : ∀ u v T, (g u v).Known T) (hx : Reading.Yields T w x Value.KnownIn)
    (hy : ∀ T' w', T <+: T' → w'.Knows T' → Reading.Yields T' w' y Value.KnownIn) :
    Reading.Yields T w (do let u ← x; let v ← y; return g u v) Value.KnownIn :=
  bind hx fun u T' w' hT hw' _ => bind (hy T' w' hT hw') fun v _ _ _ hw'' _ =>
    pure hw'' (hg u v _)

section

variable {compute : Computed → Reading Value}
  (hc : ∀ p T w, w.Knows T → Reading.Yields T w (compute p) Value.KnownIn)
include hc

theorem Object.read_yields (hw : w.Knows T) (o : Ref .object) (key : String) :
    Reading.Yields T w (Object.read compute o key) Value.KnownIn := by
  refine getWorld ?_
  split
  · exact Cell.read_yields hw _
  · exact hc _ T w hw
  · exact bind (register hw _) fun _ _ _ _ hw' _ => pure hw' Value.known_null

theorem Path.follow_yields (hw : w.Knows T) (p : Path) (segments : List String) {v : Value}
    (hv : v.Known T) : Reading.Yields T w (p.follow compute segments v) Value.KnownIn := by
  induction segments generalizing T w v with
  | nil => exact pure hw hv
  | cons segment rest ih =>
    exact bind (Q := fun _ _ => True) (ofExcept hw fun _ _ => trivial) fun o T' w' _ hw' _ =>
      bind (Object.read_yields hc hw' o segment) fun v _ _ _ hw'' hv => ih hw'' hv

theorem ViewModel.read_yields (hw : w.Knows T) (m : Ref .model) (path : String) :
    Reading.Yields T w (ViewModel.read compute m path) Value.KnownIn :=
  bind (Q := fun _ _ => True) (ofExcept hw fun _ _ => trivial) fun p _ _ _ hw' _ =>
    getWorld (Path.follow_yields hc hw' p _ (Value.known_object _))

variable {f : Frame}

theorem Frame.read_yields (hw : w.Knows T) (model : Option String) (path : String) :
    Reading.Yields T w (f.read compute model path) Value.KnownIn :=
  getWorld <| bind (Q := fun _ _ => True) (ofExcept hw fun _ _ => trivial) fun m _ _ _ hw' _ =>
    ViewModel.read_yields hc hw' m path

omit hc

mutual

theorem Expr.eval_yields
    (hc : ∀ p T w, w.Knows T → Reading.Yields T w (compute p) Value.KnownIn) :
    ∀ (x : Expr) {T : Arrays} {w : World}, w.Knows T → f.Known T →
      Reading.Yields T w (x.eval compute f) Value.KnownIn
  | .data d, _, w, hw, _ => by
    intro e r e' w' h
    cases h
    obtain ⟨T', hT, hw', hv⟩ := hw.observe d
    exact ⟨T', hT, hw', fun v he => by cases he; exact hv⟩
  | .number _, _, _, hw, _ => pure hw (Value.known_number _)
  | .get model path, _, _, hw, _ => Frame.read_yields hc hw model path
  | .peek model path, _, _, hw, _ => ofAction fun _ _ => once (Frame.read_yields hc hw model path)
  | .property object key, _, _, hw, hf =>
    bind (Expr.eval_yields hc object hw hf) fun v _ _ hT hw₁ _ =>
      bind (Expr.eval_yields hc key hw₁ (hf.mono hT)) fun k _ _ _ hw₂ _ => by
        split
        · exact Object.read_yields hc hw₂ _ _
        · exact throw hw₂ _
  | .root model, _, _, hw, _ =>
    getWorld <| bind (Q := fun _ _ => True) (ofExcept hw fun _ _ => trivial) fun _ _ _ _ hw' _ =>
      pure hw' (Value.known_object _)
  | .saved name, _, w, hw, _ => by
    refine getWorld ?_
    split
    · exact pure hw (hw.saved name _ ‹_›)
    · exact throw hw _
  | .array items, _, _, hw, hf =>
    bind (Expr.evalAll_yields hc items hw hf) fun vs T' w' _ hw' _ => by
      intro e r e' w'' h
      cases h
      obtain ⟨hw'', hv⟩ := hw'.addArray vs
      exact ⟨_, List.prefix_append .., hw'', fun v he => by cases he; exact hv⟩
  | .concat parts, _, _, hw, hf =>
    bind (Expr.evalAll_yields hc parts hw hf) fun _ _ _ _ hw' _ =>
      pure hw' (Value.known_string _)
  | .add a b, _, _, hw, hf =>
    operands (fun _ _ _ => Value.known_number _) (Expr.eval_yields hc a hw hf) fun _ _ hT hw' =>
      Expr.eval_yields hc b hw' (hf.mono hT)
  | .mul a b, _, _, hw, hf =>
    operands (fun _ _ _ => Value.known_number _) (Expr.eval_yields hc a hw hf) fun _ _ hT hw' =>
      Expr.eval_yields hc b hw' (hf.mono hT)
  | .less a b, _, _, hw, hf =>
    operands (fun _ _ _ => Value.known_bool _) (Expr.eval_yields hc a hw hf) fun _ _ hT hw' =>
      Expr.eval_yields hc b hw' (hf.mono hT)
  | .same a b, _, _, hw, hf =>
    operands (fun _ _ _ => Value.known_bool _) (Expr.eval_yields hc a hw hf) fun _ _ hT hw' =>
      Expr.eval_yields hc b hw' (hf.mono hT)
  | .cond test yes no, _, _, hw, hf =>
    bind (Expr.eval_yields hc test hw hf) fun v _ _ hT hw' _ => by
      split
      · exact Expr.eval_yields hc yes hw' (hf.mono hT)
      · exact Expr.eval_yields hc no hw' (hf.mono hT)
  | .sort x, _, _, hw, hf =>
    bind (Expr.eval_yields hc x hw hf) fun _ _ _ _ hw' _ => pure hw' (Value.known_string _)
  | .fail _, _, _, hw, _ => throw hw _
  | .tracking, _, _, hw, _ => getEvaluation fun _ => pure hw (Value.known_bool _)
  | .registrations, _, _, hw, _ => getEvaluation fun _ => pure hw (Value.known_number _)
  | .argument which, _, _, hw, hf => pure hw (hf.argument which)

theorem Expr.evalAll_yields
    (hc : ∀ p T w, w.Knows T → Reading.Yields T w (compute p) Value.KnownIn) :
    ∀ (xs : List Expr) {T : Arrays} {w : World}, w.Knows T → f.Known T →
      Reading.Yields T w (Expr.evalAll compute f xs) fun _ _ => True
  | [], _, _, hw, _ => pure hw trivial
  | x :: xs, _, _, hw, hf =>
    bind (Expr.eval_yields hc x hw hf) fun _ _ _ hT hw' _ =>
      bind (Expr.evalAll_yields hc xs hw' (hf.mono hT)) fun _ _ _ _ hw'' _ => pure hw'' trivial

end

include hc

theorem Computed.eval_yields (hw : w.Knows T) (p : Computed) :
    Reading.Yields T w (p.eval compute) Value.KnownIn := by
  refine getWorld ?_
  split
  · have he : (w.tell (.computed p)).Knows T :=
      hw.of_same rfl (fun _ => rfl) (fun _ => rfl) rfl
    refine bind (Q := fun _ _ => True) (ofAction fun r w' h => ?_) fun _ _ _ _ hw' _ =>
      Expr.eval_yields hc p.body hw' (Frame.known_of_change rfl)
    cases h
    exact ⟨T, List.prefix_refl T, he, fun _ _ => trivial⟩
  · exact throw hw _

end

theorem Engine.compute_yields (n : Nat) (p : Computed) (T : Arrays) (w : World) (hw : w.Knows T) :
    Reading.Yields T w ((Engine.ofFuel n).compute p) Value.KnownIn := by
  induction n generalizing p T w with
  | zero => exact fun _ _ _ _ h => nomatch h
  | succ n ih => exact Computed.eval_yields ih hw p

end ViewBinding
