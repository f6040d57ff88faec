import ViewBinding.Proofs.Moment

/-! Watchers are never stale: whenever no notification is in progress, what a watcher saw last is
what its path leads to. -/

namespace ViewBinding

variable {w w' : World} {f : Frame} {r : Ref .watcher}

theorem Look.unique {α : Type} {d : Sight} {l : Nat → Look α}
    (hl : ∀ {n k}, n ≤ k → Look.Lasts d d (l n) (l k)) {n n' : Nat}
    {a b : Except Fault α × List Mark} (ha : (l n).run = some a) (hb : (l n').run = some b) :
    a = b := by
  have most {n k : Nat} (hk : n ≤ k) {a : Except Fault α × List Mark} (h : (l n).run = some a) :
      (l k).run = some a := by
    obtain ⟨_, _, h', ⟨rfl, rfl⟩ | ⟨-, -, m, ha, hn⟩⟩ := hl hk _ _ h (.refl d _)
    · exact h'
    · exact absurd ha (Bool.eq_false_iff.1 hn)
  have e := (most (Nat.le_max_left n n') ha).symm.trans (most (Nat.le_max_right n n') hb)
  exact Option.some.inj e

theorem Reading.Sees.once_apply {x : Reading Value} {l : Sight → Look Value} (hx : x.Sees l)
    (hw : w.sight.Steady) : x.once w = (l w.sight).run.map fun (res, ms) =>
      (res, (Mark.leaveAll ms ({}, w)).2) := by
  show Option.bind (Option.map _ (x {} w)) _ = _
  rw [hx {} w hw, Look.leave]
  cases (l w.sight).run with
  | none => rfl
  | some p => obtain ⟨⟨⟩, ms⟩ := p <;> rfl

/-- What the path of a watcher leads to now, read for nobody. -/
def Watcher.peek (compute : Computed → Reading Value) (r : Ref .watcher) (w : World) :
    Option (Except Fault Value × World) :=
  let watcher := w.watchers.get r
  (watcher.path.resolve compute (w.models.get watcher.model).data).once w

theorem Watcher.peek_apply (hw : w.Valid) (n : Nat) (r : Ref .watcher) :
    Watcher.peek (Engine.ofFuel n).compute r w = (w.look n r).run.map fun (res, ms) =>
      (res, (Mark.leaveAll ms ({}, w)).2) :=
  (Reading.Sees.resolve (Reading.Sees.compute n) (w.watchers.get r).path _).once_apply
    hw.tracked.steady

namespace World

/-- Whether the path of a watcher leads to a value, read for nobody. -/
def Resolves (n : Nat) (w : World) (r : Ref .watcher) (v : Value) : Prop :=
  ∃ w', Watcher.peek (Engine.ofFuel n).compute r w = some (.ok v, w')

theorem resolves_iff (hw : w.Valid) {n : Nat} {v : Value} :
    w.Resolves n r v ↔ ∃ ms, (w.look n r).run = some (.ok v, ms) := by
  simp only [Resolves, Watcher.peek_apply hw, Option.map_eq_some_iff, Prod.exists, Prod.mk.injEq]
  constructor
  · rintro ⟨w', res, ms, hl, rfl, -⟩
    exact ⟨ms, hl⟩
  · rintro ⟨ms, hl⟩
    exact ⟨_, _, ms, hl, rfl, rfl⟩

/-- However deep computed properties may be nested, a path leads to one thing only. -/
theorem look_unique (hw : w.Valid) {n n' : Nat} {res res' : Except Fault Value} {ms ms' : List Mark}
    (h : (w.look n r).run = some (res, ms)) (h' : (w.look n' r).run = some (res', ms')) :
    res = res' :=
  congrArg Prod.fst (Look.unique (l := fun n => w.look n r)
    (fun hn => Path.look_lasts (.refl w.sight) hw.tracked hn _ _) h h')

/-- Who is settled has seen what its path leads to. -/
theorem Settled.agrees (hs : w.Settled r) (hw : w.Valid) {n : Nat} {v : Value}
    (h : w.Resolves n r v) : (w.watchers.get r).value.Agrees v := by
  obtain ⟨ms', hl'⟩ := (resolves_iff hw).1 h
  obtain ⟨res, ⟨k, ms, hl, -⟩, hv⟩ := hs
  exact hv v (look_unique hw hl hl')

theorem Quiet.agrees (hq : w.Quiet) (hr : w.alive (.watcher r))
    (hm : w.modelAlive (w.watchers.get r).model) {n : Nat} {v : Value} (hv : w.Resolves n r v) :
    (w.watchers.get r).value.Agrees v := by
  obtain hd | hs := hq.current r hr hm
  · exact absurd hd List.not_mem_nil
  · exact hs.agrees hq.valid hv

end World

/-- Whenever no notification is in progress, a watcher that is alive, and whose view-model is, saw
last what its path leads to now. -/
theorem Moment.value_agrees (h : Moment f w) (hr : w.alive (.watcher r))
    (hm : w.modelAlive (w.watchers.get r).model) {n : Nat} {v : Value} (hv : w.Resolves n r v) :
    (w.watchers.get r).value.Agrees v :=
  h.quiet.agrees hr hm hv

def replacement : List Step :=
  [.build none (some (.data (.object [("a", .object [("b", .string "1")])])))
      [("c", .get none "a.b")] [],
    .watcher none "u" "c" [],
    .write none "a" (.data (.object [("b", .string "2")]))]

theorem Moment.value_agrees_replacement : ∃ (w : World) (r : Ref .watcher) (v : Value),
    Moment {} w ∧ w.alive (.watcher r) ∧ w.modelAlive (w.watchers.get r).model ∧
      w.Resolves 4 r v ∧ (w.watchers.get r).value.Agrees v := by
  obtain ⟨w, h, hc⟩ := Moment.exists_of_run 4 [] replacement
    (fun w => w.alive (.watcher ⟨0⟩) && w.modelAlive (w.watchers.get ⟨0⟩).model &&
      (Watcher.peek (Engine.ofFuel 4).compute ⟨0⟩ w).any (·.1.isOk))
    (by simp [replacement, Step.AllPlain, Step.Plain, Step.PlainMethods, Expr.IsOwn,
      Expr.Tracked, Expr.Each, Expr.Inward])
    (by decide +kernel)
  rw [Bool.and_eq_true, Bool.and_eq_true, Option.any_eq_true] at hc
  obtain ⟨⟨hr, hm⟩, ⟨_ | v, w'⟩, hv, hok⟩ := hc
  · cases hok
  · exact ⟨w, ⟨0⟩, v, h, hr, hm, ⟨w', hv⟩, h.value_agrees hr hm ⟨w', hv⟩⟩

end ViewBinding
