import Mathlib.Tactic.Common
import Std.Data.DTreeMap.Internal.WF.Lemmas
import ViewBinding.Proofs.Look.Reading

/-! Stores, holders, registries and sources: what each operation keeps, and that a registry is found
where it was put. -/

namespace ViewBinding

namespace Store

variable {k : Kind} {α : Type} [Inhabited α]

theorem get_add (s : Store k α) (a : α) (r : Ref k) :
    (s.add a).get r = if r = s.fresh then a else s.get r := by
  rw [get, get?_add]
  split <;> rfl

theorem get_add_of_lt (s : Store k α) (a : α) {r : Ref k} (h : r.index < s.size) :
    (s.add a).get r = s.get r := by
  rw [get_add, if_neg]
  rintro rfl
  exact Nat.lt_irrefl _ h

theorem get_of_size_le (s : Store k α) {r : Ref k} (h : s.size ≤ r.index) : s.get r = default := by
  have hr : s.get? r = none := Array.getElem?_eq_none h
  rw [get, hr, Option.getD_none]

theorem get_add_eq {β : Type} (s : Store k α) {a : α} (f : α → β) (h : f a = f default)
    (r : Ref k) : f ((s.add a).get r) = f (s.get r) := by
  rw [get_add]
  split
  · rename_i hr
    subst hr
    rw [h, s.get_of_size_le (r := s.fresh) (Nat.le_refl _)]
  · rfl

theorem get_modify_of_ne (s : Store k α) {r r' : Ref k} (f : α → α) (h : r ≠ r') :
    (s.modify r f).get r' = s.get r' := by
  rw [get, get?_modify, if_neg h]
  rfl

theorem get_modify_self (s : Store k α) {r : Ref k} (f : α → α) (h : r.index < s.size) :
    (s.modify r f).get r = f (s.get r) := by
  rw [get_modify s r r f h, if_pos rfl]

theorem get_modify_cases (s : Store k α) (r r' : Ref k) (f : α → α) :
    (s.modify r f).get r' = s.get r' ∨
      r = r' ∧ r.index < s.size ∧ (s.modify r f).get r' = f (s.get r') := by
  by_cases e : r = r'
  · subst e
    by_cases h : r.index < s.size
    · exact .inr ⟨rfl, h, s.get_modify_self f h⟩
    · have hr := Nat.le_of_not_lt h
      rw [get_of_size_le s hr, get_of_size_le _ (by rwa [size_modify])]
      exact .inl rfl
  · exact .inl (s.get_modify_of_ne f e)

end Store

theorem Holder.holds_iff {k : Kind} (h : Holder k) (r : Ref k) :
    h.holds r ↔ ∃ name : String, h.held[name]? = some r := by
  have hv : h.held.values = h.held.toList.map Prod.snd := by
    obtain ⟨t⟩ := h.held
    induction t using Std.ExtDTreeMap.inductionOn with | _ t =>
    show Std.DTreeMap.Internal.Impl.values t.inner =
      (Std.DTreeMap.Internal.Impl.Const.toList t.inner).map Prod.snd
    rw [Std.DTreeMap.Internal.Impl.values_eq_map_snd,
      Std.DTreeMap.Internal.Impl.Const.toList_eq_toListModel_map, List.map_map]
    rfl
  simp [holds, hv, Std.ExtTreeMap.mem_toList_iff_getElem?_eq_some]

theorem Holder.holds_bind {k : Kind} (h : Holder k) (name : String) {r r' : Ref k}
    (hr : (h.bind name r).holds r') : r' = r ∨ h.holds r' := by
  obtain ⟨name', hn⟩ := ((h.bind name r).holds_iff r').1 hr
  rw [bind, Std.ExtTreeMap.getElem?_insert] at hn
  split at hn
  · exact .inl (Option.some.inj hn).symm
  · exact .inr ((h.holds_iff r').2 ⟨name', hn⟩)

theorem Holder.holds_drop {k : Kind} (h : Holder k) (name : String) {r : Ref k}
    (hr : (h.drop name).holds r) : h.holds r := by
  obtain ⟨name', hn⟩ := ((h.drop name).holds_iff r).1 hr
  rw [drop, Std.ExtTreeMap.getElem?_erase] at hn
  split at hn
  · cases hn
  · exact (h.holds_iff r).2 ⟨name', hn⟩

/-- The order and the members of a registry are the same subscribers. -/
structure Registry.Sound (r : Registry) : Prop where
  members : ∀ s, s ∈ r.order ↔ s ∈ r.members
  nodup : r.order.Nodup

namespace Registry

theorem Sound.empty : Sound {} := ⟨by simp, .nil⟩

theorem Sound.add? {r r' : Registry} {s : Subscriber} (hr : r.Sound) (h : r.add? s = some r') :
    r'.Sound := by
  have hs : s ∉ r.order := by
    intro hs
    rw [hr.members, ← r.add?_eq_none_iff s, h] at hs
    cases hs
  refine ⟨fun t => ?_, ?_⟩
  · rw [order_add? h, mem_members_add? h, List.mem_append, List.mem_singleton, hr.members, or_comm]
  · rw [order_add? h]
    simpa [List.nodup_append, hr.nodup] using fun t ht (e : t = s) => hs (e ▸ ht)

theorem mem_foldl_erase (dead : List Subscriber)
    (members : Std.ExtTreeSet Subscriber Subscriber.order)
    (s : Subscriber) : s ∈ dead.foldl (·.erase ·) members ↔ s ∈ members ∧ s ∉ dead := by
  induction dead generalizing members with
  | nil => simp
  | cons t dead ih =>
    rw [List.foldl_cons, ih, Std.ExtTreeSet.mem_erase]
    have ht : Subscriber.order t s ≠ .eq ↔ s ≠ t := by
      rw [ne_eq, Std.LawfulEqCmp.compare_eq_iff_eq, eq_comm]
    rw [ht, List.mem_cons, not_or]
    tauto

theorem Sound.prune {r : Registry} (hr : r.Sound) (alive : Subscriber → Bool) :
    (r.prune alive).Sound := by
  refine ⟨fun s => ?_, hr.nodup.filter _⟩
  rw [Registry.prune, mem_foldl_erase, ← hr.members]
  simp only [live, List.mem_filter]
  cases alive s <;> simp

end Registry

def Source.Within (w : World) : Source → Prop
  | .cell c => c.index < w.cells.size
  | .waiting o _ => o.index < w.objects.size
  | .registry r => r.index < w.registries.size

namespace World

variable {w : World}

theorem registry_of_not_within {source : Source} (h : ¬source.Within w) :
    w.registry source = {} := by
  cases source with
  | cell c => exact congrArg Cell.registry (w.cells.get_of_size_le (Nat.le_of_not_lt h))
  | waiting o key =>
    have ho := w.objects.get_of_size_le (Nat.le_of_not_lt h)
    rw [registry, ho]
    rfl
  | registry r => exact w.registries.get_of_size_le (Nat.le_of_not_lt h)

theorem registry_addCell (w : World) (v : Value) (source : Source) :
    (w.addCell v).2.registry source = w.registry source := by
  cases source with
  | cell c => exact w.cells.get_add_eq (a := { value := v }) Cell.registry rfl c
  | _ => rfl

theorem registry_addObject (w : World) (slots : Keyed Slot) (source : Source) :
    (w.addObject { slots }).2.registry source = w.registry source := by
  cases source with
  | waiting o key =>
    exact w.objects.get_add_eq (a := { slots }) (fun object => (object.waiting[key]?).getD {}) rfl o
  | _ => rfl

theorem within_of_mem_order {source : Source} {s : Subscriber} (h : s ∈ (w.registry source).order) :
    source.Within w := by
  by_contra hs
  rw [registry_of_not_within hs] at h
  exact List.not_mem_nil h

theorem registry_setRegistry_self {source : Source} (h : source.Within w) (r : Registry) :
    (w.setRegistry source r).registry source = r := by
  cases source with
  | cell c => simp only [registry, setRegistry, w.cells.get_modify_self _ h]
  | waiting o key => simp [registry, setRegistry, w.objects.get_modify_self _ h]
  | registry => simp only [registry, setRegistry, w.registries.get_modify_self _ h]

theorem registry_setRegistry_of_ne {source source' : Source} (h : source ≠ source') (r : Registry) :
    (w.setRegistry source r).registry source' = w.registry source' := by
  cases source with
  | cell c =>
    cases source' with
    | cell c' =>
      simp only [registry, setRegistry, w.cells.get_modify_of_ne _ fun e => h (congrArg _ e)]
    | _ => rfl
  | waiting o key =>
    cases source' with
    | waiting o' key' =>
      simp only [registry, setRegistry]
      obtain e | ⟨rfl, -, e⟩ := w.objects.get_modify_cases o o' fun object =>
        { object with waiting := object.waiting.insert key r }
      · rw [e]
      · have hk : key ≠ key' := fun e => h (e ▸ rfl)
        rw [e, Std.ExtTreeMap.getElem?_insert, if_neg]
        simpa using hk
    | _ => rfl
  | registry q =>
    cases source' with
    | registry q' =>
      simp only [registry, setRegistry, w.registries.get_modify_of_ne _ fun e => h (congrArg _ e)]
    | _ => rfl

theorem registry_setRegistry_cases (source source' : Source) (r : Registry) :
    (w.setRegistry source r).registry source' = w.registry source' ∨
      source = source' ∧ source.Within w ∧ (w.setRegistry source r).registry source' = r := by
  by_cases h : source = source'
  · subst h
    by_cases hs : source.Within w
    · exact .inr ⟨rfl, hs, registry_setRegistry_self hs r⟩
    · left
      have hs' : ¬source.Within (w.setRegistry source r) := by
        cases source <;> simpa [Source.Within, setRegistry, Store.size_modify] using hs
      rw [registry_of_not_within hs, registry_of_not_within hs']
  · exact .inl (registry_setRegistry_of_ne h r)

end World

end ViewBinding
