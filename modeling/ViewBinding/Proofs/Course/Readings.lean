import ViewBinding.Proofs.Course.Proceeds

/-! Readings do nothing but glance, whatever expressions are worked out on the way. -/

namespace ViewBinding

open Reading.Proceeds

theorem Reading.Proceeds.register_then {α : Type} {x : Reading α} (hx : x.Proceeds)
    {source : Source} {e e' : Evaluation} {w w' : World} {r : Except Fault α} (ho : w.Open source)
    (h : (Reading.register source >>= fun _ => x) e w = some ((r, e'), w')) :
    ∃ hs, w.Glances hs w' := by
  have hr : ∃ w₁ e₁, Reading.register source e w = some ((.ok (), e₁), w₁) ∧
      ∃ hs, w.Glances hs w₁ := by
    refine ⟨_, _, Reading.register_apply source e w, ?_⟩
    rcases e with ⟨_ | s, k⟩
    · exact ⟨[], .nil w⟩
    · cases ha : (w.registry source).add? s with
      | none =>
        have he : ((Mark.read source).leave (⟨some s, k⟩, w)).2 = w := by
          simp only [Mark.leave, ha]
        rw [he]
        exact ⟨[], .nil w⟩
      | some registry =>
        have he : ((Mark.read source).leave (⟨some s, k⟩, w)).2 =
            w.setRegistry source registry := by
          simp only [Mark.leave, ha]
        rw [he]
        exact ⟨[], .single (.register ha ho)⟩
  obtain ⟨w₁, e₁, hr, hs, hg⟩ := hr
  rw [Reading.bind_apply, hr] at h
  obtain ⟨hs', hg'⟩ := hx _ _ _ _ _ h
  exact ⟨hs ++ hs', hg.trans hg'⟩

theorem Cell.read_proceeds (c : Ref .cell) : (Cell.read c).Proceeds := by
  intro e w r e' w' h
  have ho : w.Open (.cell c) := trivial
  exact register_then (getWorld fun w => pure (w.cells.get c).value) ho h

section

variable {compute : Computed → Reading Value} (hc : ∀ p, (compute p).Proceeds)
include hc

theorem Object.read_proceeds (o : Ref .object) (key : String) :
    (Object.read compute o key).Proceeds := by
  intro e w r e' w' h
  rw [Object.read, Reading.getWorld_bind] at h
  cases hs : w.slot? o key with
  | none =>
    have ho : w.Open (.waiting o key) := hs
    simp only [hs] at h
    exact register_then (pure Value.null) ho h
  | some slot =>
    simp only [hs] at h
    cases slot with
    | cell c => exact Cell.read_proceeds c _ _ _ _ _ h
    | computed p => exact hc p _ _ _ _ _ h

theorem Path.follow_proceeds (p : Path) (segments : List String) (v : Value) :
    (p.follow compute segments v).Proceeds := by
  induction segments generalizing v with
  | nil => exact pure v
  | cons segment rest ih =>
    exact bind (ofExcept _) fun o => bind (Object.read_proceeds hc o segment) ih

theorem ViewModel.read_proceeds (m : Ref .model) (path : String) :
    (ViewModel.read compute m path).Proceeds :=
  bind (ofExcept _) fun p => getWorld fun _ => Path.follow_proceeds hc p _ _

variable (f : Frame)

theorem Frame.read_proceeds (model : Option String) (path : String) :
    (f.read compute model path).Proceeds :=
  getWorld fun _ => bind (ofExcept _) fun m => ViewModel.read_proceeds hc m path

omit hc

mutual

theorem Expr.eval_proceeds (hc : ∀ p, (compute p).Proceeds) :
    ∀ x : Expr, (x.eval compute f).Proceeds
  | .data d => modifyGet fun w => .observe w d
  | .number _ => pure _
  | .get model path => Frame.read_proceeds hc f model path
  | .peek model path => ofGlances (once (Frame.read_proceeds hc f model path))
  | .property object key =>
    bind (Expr.eval_proceeds hc object) fun v => bind (Expr.eval_proceeds hc key) fun k => by
      split
      · exact Object.read_proceeds hc _ _
      · exact throw _
  | .root _ => getWorld fun _ => bind (ofExcept _) fun _ => pure _
  | .saved _ => getWorld fun _ => by
      split
      · exact pure _
      · exact throw _
  | .array items => bind (Expr.evalAll_proceeds hc items) fun vs => modifyGet fun w => .array w vs
  | .concat parts => bind (Expr.evalAll_proceeds hc parts) fun _ => pure _
  | .add a b =>
    bind (Expr.eval_proceeds hc a) fun _ => bind (Expr.eval_proceeds hc b) fun _ => pure _
  | .mul a b =>
    bind (Expr.eval_proceeds hc a) fun _ => bind (Expr.eval_proceeds hc b) fun _ => pure _
  | .less a b =>
    bind (Expr.eval_proceeds hc a) fun _ => bind (Expr.eval_proceeds hc b) fun _ => pure _
  | .same a b =>
    bind (Expr.eval_proceeds hc a) fun _ => bind (Expr.eval_proceeds hc b) fun _ => pure _
  | .cond test yes no =>
    bind (Expr.eval_proceeds hc test) fun v => by
      split
      · exact Expr.eval_proceeds hc yes
      · exact Expr.eval_proceeds hc no
  | .sort x => bind (Expr.eval_proceeds hc x) fun _ => pure _
  | .fail _ => throw _
  | .tracking => getEvaluation fun _ => pure _
  | .registrations => getEvaluation fun _ => pure _
  | .argument _ => pure _

theorem Expr.evalAll_proceeds (hc : ∀ p, (compute p).Proceeds) :
    ∀ xs : List Expr, (Expr.evalAll compute f xs).Proceeds
  | [] => pure _
  | x :: xs =>
    bind (Expr.eval_proceeds hc x) fun _ => bind (Expr.evalAll_proceeds hc xs) fun _ => pure _

end

include hc

theorem Computed.eval_proceeds (p : Computed) : (p.eval compute).Proceeds := by
  intro e w r e' w' h
  rw [Computed.eval, Reading.getWorld_bind] at h
  by_cases hm : w.modelAlive p.model
  · have he : (Reading.ofAction (Action.tell (.computed p)) >>= fun _ =>
        p.body.eval compute { model := p.model }) e w = some ((r, e'), w') := by
      rwa [if_pos hm] at h
    have hg : w.Glance [.computed p] (w.tell (.computed p)) := .computed hm
    obtain ⟨hs, hg'⟩ := Expr.eval_proceeds { model := p.model } hc p.body e
      (w.tell (.computed p)) r e' w' he
    exact ⟨_, (World.Along.single hg).trans hg'⟩
  · have he : some ((Except.error Fault.detached, e), w) = some ((r, e'), w') := by
      rwa [if_neg hm] at h
    cases he
    exact ⟨[], .nil w⟩

end

theorem Engine.compute_proceeds (n : Nat) (p : Computed) :
    ((Engine.ofFuel n).compute p).Proceeds := by
  induction n generalizing p with
  | zero => exact fun _ _ _ _ _ h => nomatch h
  | succ n ih => exact Computed.eval_proceeds ih p

end ViewBinding
