import ViewBinding.Proofs.Valid

/-! Watchers that have seen what their paths lead to. A watcher that is registered with everything
its path reads stays settled until something of that is written, and then it is among those to
update. -/

namespace ViewBinding

theorem Float.beq_self_or_isNaN (x : Float) : (x == x) = true ∨ x.isNaN = true := by
  show x.toModel.unpack.beq x.toModel.unpack = true ∨ x.toModel.unpack.isNaN = true
  cases x.toModel.unpack with
  | infinity s => cases s <;> exact .inl rfl
  | notANumber => exact .inr rfl
  | zero s => cases s <;> exact .inl rfl
  | finite s m e h =>
    have he : compare e e = .eq := Std.ReflCmp.compare_self
    have hm : compare m m = .eq := Std.ReflCmp.compare_self
    have hself : (compare e e).then (compare m m) = .eq := by
      rw [he, hm]
      rfl
    left
    cases s with
    | positive =>
      show (some ((compare e e).then (compare m m)) == some Ordering.eq) = true
      rw [hself]
      rfl
    | negative =>
      show (some ((compare e e).then (compare m m)).swap == some Ordering.eq) = true
      rw [hself]
      rfl

namespace Value

/-- The same value, or not a number on both sides. -/
def Agrees (u v : Value) : Prop :=
  u.same v ∨ ∃ x y : Float, u = number x ∧ v = number y ∧ x.isNaN ∧ y.isNaN

theorem agrees_self (v : Value) : v.Agrees v := by
  cases v with
  | number x =>
    obtain h | h := Float.beq_self_or_isNaN x
    · exact .inl h
    · exact .inr ⟨x, x, rfl, rfl, h, h⟩
  | _ => exact .inl (by simp [same])

end Value

namespace World

variable {L P : List Subscriber} {w w' : World} {r : Ref .watcher}

def look (w : World) (n : Nat) (r : Ref .watcher) : Look Value :=
  let watcher := w.watchers.get r
  watcher.path.look w.sight (w.sight.compute n) (w.models.get watcher.model).data

/-- What the path of a watcher leads to is `res`, and the watcher is registered with all that is
read on the way. -/
def Tracks (w : World) (r : Ref .watcher) (res : Except Fault Value) : Prop :=
  ∃ n ms, (w.look n r).run = some (res, ms) ∧
    ∀ source, .read source ∈ ms → .watcher r ∈ (w.registry source).order

def Settled (w : World) (r : Ref .watcher) : Prop :=
  ∃ res, w.Tracks r res ∧ ∀ v, res = .ok v → (w.watchers.get r).value.Agrees v

/-- Everyone who is alive, belongs to a view-model that is alive, and is not due for an update, is
settled. -/
def Current (due : List Subscriber) (w : World) : Prop :=
  ∀ r, w.alive (.watcher r) → w.modelAlive (w.watchers.get r).model →
    .watcher r ∈ due ∨ w.Settled r

structure Shift (L : List Subscriber) (w w' : World) : Prop where
  slot : ∀ o key slot, w.slot? o key = some slot → w'.slot? o key = some slot
  cell : ∀ c, c.index < w.cells.size → (w'.cells.get c).value = (w.cells.get c).value ∨
    ∀ s ∈ (w.registry (.cell c)).order, w'.alive s → s ∈ L
  missing : ∀ o key, o.index < w.objects.size → w.slot? o key = none → w'.slot? o key = none ∨
    ∀ s ∈ (w.registry (.waiting o key)).order, w'.alive s → s ∈ L
  order : ∀ source, ∀ s ∈ (w.registry source).order, w'.alive s →
    s ∈ (w'.registry source).order ∨ s ∈ L
  model : ∀ r, r.index < w.watchers.size → (w'.watchers.get r).model = (w.watchers.get r).model
  path : ∀ r, r.index < w.watchers.size → (w'.watchers.get r).path = (w.watchers.get r).path
  value : ∀ r, r.index < w.watchers.size →
    (w'.watchers.get r).value = (w.watchers.get r).value ∨ .watcher r ∈ L
  root : ∀ m, m.index < w.models.size → (w'.models.get m).data = (w.models.get m).data
  modelAlive : ∀ m, w'.modelAlive m → w.modelAlive m ∨ w.models.size ≤ m.index

namespace Shift

theorem later (h : w.Shift L w') (hw : w.Valid) : w.sight.Later w'.sight where
  slot := h.slot
  root m hm := h.root m (hw.lt_of_modelAlive hm)
  alive o key p hp ha :=
    (h.modelAlive p.model ha).resolve_right (Nat.not_le.2 (hw.computed o key p hp).1)

theorem settled (h : w.Shift L w') (hw : w.Valid) (hr : r.index < w.watchers.size)
    (ha : w'.alive (.watcher r)) (hL : .watcher r ∉ L) (hs : w.Settled r) : w'.Settled r := by
  obtain ⟨res, ⟨n, ms, hl, ho⟩, hv⟩ := hs
  have hk : w.sight.Keeps w'.sight ms := by
    constructor
    · intro c hc
      refine (h.cell c (within_of_mem_order (ho _ hc))).resolve_right fun hd => hL ?_
      exact hd _ (ho _ hc) ha
    · intro o key hm hn
      refine (h.missing o key (within_of_mem_order (ho _ hm)) hn).resolve_right fun hd => hL ?_
      exact hd _ (ho _ hm) ha
  have hl' : Look.Lasts w.sight w'.sight (w.look n r) (w'.look n r) := by
    rw [look, look, h.model r hr, h.path r hr, h.root _ (hw.model r hr)]
    exact Path.look_lasts (h.later hw) hw.tracked (Nat.le_refl n) _ _
  have ho' (source : Source) (hs : .read source ∈ ms) : .watcher r ∈ (w'.registry source).order :=
    (h.order source _ (ho source hs) ha).resolve_right hL
  obtain ⟨res', ms', hr', ⟨rfl, rfl⟩ | ⟨rfl, hs, -⟩⟩ := hl' res ms hl hk
  · refine ⟨_, ⟨n, _, hr', ho'⟩, fun v hr'' => ?_⟩
    rw [(h.value r hr).resolve_right hL]
    exact hv v hr''
  · exact ⟨_, ⟨n, _, hr', fun source hm => ho' source (hs hm)⟩, fun v hv => nomatch hv⟩

/-- After a change everyone is settled but those who are due for an update because of it or were
before, if those who come alive are settled. -/
theorem current (h : w.Shift L w') (hw : w.Valid)
    (ha : ∀ r, w'.alive (.watcher r) → w.alive (.watcher r) ∨ w'.Settled r) (hc : w.Current P) :
    w'.Current (L ++ P) := by
  intro r hr hm
  rw [List.mem_append]
  by_cases hL : .watcher r ∈ L
  · exact .inl (.inl hL)
  obtain hr' | hs := ha r hr
  · have hlt := hw.lt_of_alive hr'
    have hm' := h.modelAlive _ hm
    rw [h.model r hlt] at hm'
    obtain hP | hs := hc r hr' (hm'.resolve_right (Nat.not_le.2 (hw.model r hlt)))
    · exact .inl (.inr hP)
    · exact .inr (h.settled hw hlt hr hL hs)
  · exact .inr hs

end Shift

theorem Current.drop {s : Subscriber} (h : w.Current (s :: P))
    (hs : ∀ r, s = .watcher r → w.modelAlive (w.watchers.get r).model → w.Settled r) :
    w.Current P := by
  intro r hr hm
  obtain hP | h := h r hr hm
  · obtain rfl | hP := List.mem_cons.1 hP
    · exact .inr (hs r rfl hm)
    · exact .inl hP
  · exact .inr h

end World

end ViewBinding
