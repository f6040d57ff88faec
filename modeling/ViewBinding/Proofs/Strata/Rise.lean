import ViewBinding.Proofs.Strata.Turns

/-! Stratified writes come to an end. A write is followed by the turns of those who read what it
changed, and all that they write is of a higher rank, so writes are nested no deeper than there are
ranks. -/

namespace ViewBinding.Deed

variable {rank : Source → Nat} {bound : Nat} {start x y : Deed × World} {s : Subscriber}

section Own

variable {w : World} {v : Value}

theorem Own.of_set {m : Ref .model} {path : String} (h : Own (.set m path v, w) y) :
    ∃ p, Path.parse path = .ok p ∧ y = (.assign p (w.models.get m).data v, w) := by
  obtain ⟨n, h⟩ := h
  simp only [parts] at h
  split at h
  · exact ⟨_, ‹_›, List.mem_singleton.1 h⟩
  · exact absurd h List.not_mem_nil

theorem Own.of_assign {p : Path} {root : Ref .object} (h : Own (.assign p root v, w) y) :
    ∃ n parent o w', (p.follow (Engine.ofFuel n).compute p.parents (.object root)).once w =
      some (.ok parent, w') ∧ p.owner parent p.last = .ok o ∧ y = (.property o p.last v, w') := by
  obtain ⟨n, h⟩ := h
  simp only [parts, Action.after] at h
  split at h
  · split at h
    · exact ⟨n, _, _, _, ‹_›, ‹_›, List.mem_singleton.1 h⟩
    · exact absurd h List.not_mem_nil
  · exact absurd h List.not_mem_nil

theorem Own.of_property {o : Ref .object} {key : String} (h : Own (.property o key v, w) y) :
    (∃ c, w.slot? o key = some (.cell c) ∧ y = (.store c v, w)) ∨
      w.slot? o key = none ∧ y = (.insert o key v, w) := by
  obtain ⟨n, h⟩ := h
  simp only [parts] at h
  split at h
  · exact .inl ⟨_, ‹_›, List.mem_singleton.1 h⟩
  · exact absurd h List.not_mem_nil
  · exact .inr ⟨‹_›, List.mem_singleton.1 h⟩

theorem Own.of_turns {rest : List Subscriber} (h : Own (.turns (s :: rest), w) y) :
    y = (.turn s, w) ∨
      ∃ n p, s.update (Engine.ofFuel n) w = some p ∧ y = (.turns rest, World.afterTurn s p) := by
  obtain ⟨n, h⟩ := h
  rcases List.mem_cons.1 h with rfl | h
  · exact .inl rfl
  · cases hu : s.update (Engine.ofFuel n) w with
    | none =>
      simp only [hu] at h
      exact absurd h List.not_mem_nil
    | some p =>
      simp only [hu] at h
      exact .inr ⟨n, p, hu, List.mem_singleton.1 h⟩

theorem mem_fanOut_store {c : Ref .cell} (h : y ∈ fanOut w (.store c v)) :
    y = (.turns (w.due (.cell c)), w.turns (.cell c) v) := by
  by_cases hc : w.changes (.cell c) v
  · simp only [fanOut, hc, if_true] at h
    exact List.mem_singleton.1 h
  · simp only [fanOut, hc] at h
    exact absurd h List.not_mem_nil

end Own

theorem DoneBy.reaches (h : DoneBy start s x) : Reaches start x := by
  obtain ⟨w, hw, h⟩ := h
  exact hw.trans (h.lift id fun _ _ => .inl)

theorem DoneBy.own (hx : DoneBy start s x) (h : Own x y) : DoneBy start s y := by
  obtain ⟨w, hw, hx⟩ := hx
  exact ⟨w, hw, hx.tail h⟩

namespace Stratified

variable (h : Stratified rank bound start)
include h

/-- A deed of a callback comes to an end if all that it starts itself does, and all that follows
if it is itself a write. -/
theorem returns_of_parts (hx : DoneBy start s x) (ho : ∀ y, Own x y → Returns y)
    (hf : ∀ y ∈ x.1.fanOut x.2, Returns y) : Returns x := by
  obtain ⟨d, w⟩ := x
  have hw : w.Total := h.total _ hx.reaches
  cases d with
  | session steps => exact session_returns ho
  | script f steps => exact script_returns ho
  | step f step =>
    exact Step.run_returns hw step (h.modest s f step w hx) (h.shown s f step w hx) ho
  | call m name event => exact call_returns ho
  | dispatch n event => exact .get (ho (.listen event _, w) ⟨0, List.mem_singleton_self _⟩)
  | listen event listeners => exact listen_returns ho
  | respond event response => exact respond_returns ho
  | set m path v => exact set_returns ho
  | assign p root v => exact assign_returns hw ho
  | property o key v => exact property_returns ho
  | insert o key v => exact insert_returns hf
  | store c v => exact store_returns hf
  | turns ss => exact turns_returns ho
  | turn s => exact turn_returns hw ho
  | perform r m change callback => exact perform_returns hw ho

/-- The callback of a subscriber comes to an end if all writes above a rank do and the subscriber
has joined a source of that rank. -/
theorem returns_of_above {source : Source} (hs : Joins start s source)
    (hr : ∀ x target, Reaches start x → x.1.target? = some target → rank source < rank target →
      Returns x) (hx : Acc (fun y x => Own x y) x) (hd : DoneBy start s x) : Returns x := by
  induction hx with
  | intro x _ ih =>
    have ho (y : Deed × World) (hy : Own x y) : Returns y := ih y hy (hd.own hy)
    cases ht : x.1.target? with
    | some target =>
      exact hr x target hd.reaches ht (h.upward s x.1 x.2 source target hd ht hs)
    | none =>
      refine h.returns_of_parts hd ho fun y hy => ?_
      obtain ⟨d, w⟩ := x
      cases d <;> first | exact absurd hy List.not_mem_nil | cases ht

omit h in
theorem turns_return {ss : List Subscriber} {w : World} (hx : Reaches start (.turns ss, w))
    (hs : ∀ s ∈ ss, ∀ w, Reaches start (.turn s, w) → Returns (.turn s, w)) :
    Returns (.turns ss, w) := by
  induction ss generalizing w with
  | nil => exact ⟨(.ok (0 : Nat), w), 0, fun _ _ => rfl⟩
  | cons s rest ih =>
    refine turns_returns fun y hy => ?_
    have hy' := hx.tail (.inl hy)
    rcases hy.of_turns with rfl | ⟨n, p, -, rfl⟩
    · exact hs s List.mem_cons_self w hy'
    · exact ih hy' fun s hs' => hs s (List.mem_cons_of_mem _ hs')

/-- Writes of the last ranks come to an end, by induction on how many ranks these are. -/
theorem returns_of_rank (n : Nat) {target : Source} (hx : Reaches start x)
    (ht : x.1.target? = some target) (hn : bound < rank target + n) : Returns x := by
  induction n generalizing x target with
  | zero => exact absurd (h.bounded target) (by omega)
  | succ n ih =>
    -- Whoever is due has joined the target, so what is written next is of a higher rank.
    have hdue (s : Subscriber) (hs : s ∈ x.2.due target) (w : World)
        (hw : Reaches start (.turn s, w)) : Returns (.turn s, w) := by
      refine h.returns_of_above ⟨x, hx, (List.mem_filter.1 hs).1⟩ (fun y target' hy ht' hlt => ?_)
        (h.finite s w hw) ⟨w, hw, .refl⟩
      exact ih hy ht' (by omega)
    obtain ⟨d, w⟩ := x
    cases d with
    | insert o key v =>
      cases ht
      refine insert_returns fun y hy => ?_
      have hy' := hx.tail (.inr hy)
      obtain rfl := List.mem_singleton.1 hy
      exact turns_return hy' hdue
    | store c v =>
      cases ht
      refine store_returns fun y hy => ?_
      have hy' := hx.tail (.inr hy)
      obtain rfl := mem_fanOut_store hy
      exact turns_return hy' hdue
    | _ => cases ht

theorem target_returns {target : Source} (hx : Reaches start x) (ht : x.1.target? = some target) :
    Returns x := h.returns_of_rank (bound + 1) hx ht (by omega)

theorem property_return {o : Ref .object} {key : String} {v : Value} {w : World}
    (hx : Reaches start (.property o key v, w)) : Returns (.property o key v, w) := by
  refine property_returns fun y hy => ?_
  have hy' := hx.tail (.inl hy)
  rcases hy.of_property with ⟨c, -, rfl⟩ | ⟨-, rfl⟩
  · exact h.target_returns hy' rfl
  · exact h.target_returns hy' rfl

theorem assign_return {p : Path} {root : Ref .object} {v : Value} {w : World}
    (hx : Reaches start (.assign p root v, w)) : Returns (.assign p root v, w) := by
  refine assign_returns (h.total _ hx) fun y hy => ?_
  have hy' := hx.tail (.inl hy)
  obtain ⟨n, parent, o, w', -, -, rfl⟩ := hy.of_assign
  exact h.property_return hy'

theorem set_return {m : Ref .model} {path : String} {v : Value} {w : World}
    (hx : Reaches start (.set m path v, w)) : Returns (.set m path v, w) := by
  refine set_returns fun y hy => ?_
  have hy' := hx.tail (.inl hy)
  obtain ⟨p, -, rfl⟩ := hy.of_set
  exact h.assign_return hy'

/-- Wherever a stratified run gets to, every write there comes to an end: to a path of a view-model,
to a property of an object, and to a cell. -/
theorem writes_return {w : World} :
    (∀ m path v, Reaches start (.set m path v, w) →
      Action.Returns (fun e => ViewModel.write e.compute (Subscriber.update e) m path v) w) ∧
    (∀ o key v, Reaches start (.property o key v, w) →
      Action.Returns (fun e => Object.write (Subscriber.update e) o key v) w) ∧
    ∀ c v, Reaches start (.store c v, w) →
      Action.Returns (fun e => Cell.write (Subscriber.update e) c v) w :=
  ⟨fun _ _ _ => h.set_return, fun _ _ _ => h.property_return,
    fun _ _ hx => h.target_returns hx rfl⟩

end Stratified

end ViewBinding.Deed
