import Mathlib.Data.Fintype.Pigeonhole
import ViewBinding.Data.Description
import ViewBinding.Data.Export
import ViewBinding.Proofs.Guests.Births

/-! Whatever is told of an object by going through its data, as deep as there are objects, is the
same of an object that two runs have in common, even if one of them has more objects. -/

namespace ViewBinding

variable {α β : Type} {G : List String} {p q : Pairing} {w w' : World}

/-! Tables. -/

theorem keys_eq_of_rel {R : α → β → Prop} {t : Keyed α} {t' : Keyed β}
    (h : ∀ key : String, Option.Rel R t[key]? t'[key]?) : t.keys = t'.keys := by
  have hmem (key : String) : key ∈ t.keys ↔ key ∈ t'.keys := by
    rw [Std.ExtTreeMap.mem_keys, Std.ExtTreeMap.mem_keys,
      Std.ExtTreeMap.mem_iff_isSome_getElem?, Std.ExtTreeMap.mem_iff_isSome_getElem?,
      optionRel_isSome (h key)]
  refine List.Perm.eq_of_pairwise (fun a b _ _ hab hba => ?_) t.ordered_keys t'.ordered_keys
    ((List.perm_ext_iff_of_nodup t.nodup_keys t'.nodup_keys).2 hmem)
  exact absurd hba (Std.OrientedCmp.not_lt_of_lt hab)

theorem forall₂_toList {R : α → β → Prop} {t : Keyed α} {t' : Keyed β}
    (h : ∀ key : String, Option.Rel R t[key]? t'[key]?) :
    List.Forall₂ (fun a b => a.1 = b.1 ∧ R a.2 b.2) t.toList t'.toList := by
  have hkeys : t.toList.map Prod.fst = t'.toList.map Prod.fst := by
    rw [Std.ExtTreeMap.map_fst_toList_eq_keys, Std.ExtTreeMap.map_fst_toList_eq_keys,
      keys_eq_of_rel h]
  refine List.forall₂_iff_get.2 ⟨by simpa using congrArg List.length hkeys, fun i hi hi' => ?_⟩
  have hfst : (t.toList.get ⟨i, hi⟩).1 = (t'.toList.get ⟨i, hi'⟩).1 := by
    have hget := List.getElem_of_eq hkeys ((List.length_map _).symm ▸ hi)
    rwa [List.getElem_map, List.getElem_map] at hget
  have ha : (t.toList.get ⟨i, hi⟩) ∈ t.toList := List.get_mem ..
  have hb : (t'.toList.get ⟨i, hi'⟩) ∈ t'.toList := List.get_mem ..
  generalize t.toList.get ⟨i, hi⟩ = a at hfst ha ⊢
  generalize t'.toList.get ⟨i, hi'⟩ = b at hfst hb ⊢
  obtain ⟨key, a⟩ := a
  obtain ⟨key', b⟩ := b
  obtain rfl : key = key' := hfst
  have hrel := h key
  rw [Std.ExtTreeMap.mem_toList_iff_getElem?_eq_some.1 ha,
    Std.ExtTreeMap.mem_toList_iff_getElem?_eq_some.1 hb] at hrel
  cases hrel with
  | some hr => exact ⟨rfl, hr⟩

theorem mapM_of_forall₂ {γ : Type} {f : α → Option γ} {g : β → Option γ} {as : List α}
    {bs : List β} (h : List.Forall₂ (fun a b => ∀ c, f a = some c → g b = some c) as bs)
    {cs : List γ} (hf : as.mapM f = some cs) : bs.mapM g = some cs := by
  induction h generalizing cs with
  | nil => exact hf
  | cons hab _ ih =>
    simp only [List.mapM_cons, Option.bind_eq_bind, Option.bind_eq_some_iff] at hf ⊢
    obtain ⟨c, hc, cs', hcs, he⟩ := hf
    exact ⟨c, hab c hc, cs', ih hcs, he⟩

/-! Going deeper. -/

def Repeats {k : Kind} (r : Ref k → Ref k → Prop) (f f' : Ref k → Option α) : Prop :=
  ∀ a b, r a b → ∀ x, f a = some x → f' b = some x

structure Agree {k : Kind} (r : Ref k → Ref k → Prop) (f f' : Nat → Ref k → Option α) : Prop where
  zero : ∀ a, f 0 a = none
  zero' : ∀ b, f' 0 b = none
  step : ∀ d d', Repeats r (f d) (f' d') → Repeats r (f (d + 1)) (f' (d' + 1))
  back : ∀ d d', Repeats (flip r) (f' d') (f d) → Repeats (flip r) (f' (d' + 1)) (f (d + 1))

namespace Agree

variable {k : Kind} {r : Ref k → Ref k → Prop} {f f' : Nat → Ref k → Option α}

theorem symm (h : Agree r f f') : Agree (flip r) f' f :=
  ⟨h.zero', h.zero, fun d d' => h.back d' d, fun d d' => h.step d' d⟩

theorem repeats (h : Agree r f f') {d d' : Nat} (hd : d ≤ d') : Repeats r (f d) (f' d') := by
  induction d generalizing d' with
  | zero => exact fun a _ _ x hx => by simp [h.zero a] at hx
  | succ d ih =>
    cases d' with
    | zero => exact absurd hd (Nat.not_succ_le_zero d)
    | succ d' => exact h.step d d' (ih (Nat.le_of_succ_le_succ hd))

theorem settled (h : Agree r f f') {d : Nat} (hd : Repeats r (f (d + 1)) (f' d)) (e : Nat) :
    Repeats r (f e) (f' d) := by
  induction e with
  | zero => exact h.repeats (Nat.zero_le d)
  | succ e ih =>
    intro a b hr x hx
    exact hd a b hr x (h.symm.repeats le_rfl b a hr x (h.step e d ih a b hr x hx))

/-- There is such a level, at the latest when there are no counterparts left: at each level before
it another one is reached for the first time. -/
theorem exists_settled (h : Agree r f f') {n : Nat} (hn : ∀ a b, r a b → b.index < n) :
    ∃ d ≤ n, Repeats r (f (d + 1)) (f' d) := by
  by_contra hno
  have hfirst (i : Fin (n + 1)) :
      ∃ a b, r a b ∧ ∃ x, f (i + 1) a = some x ∧ f' i b ≠ some x := by
    by_contra hi
    exact hno ⟨i, Nat.le_of_lt_succ i.2, fun a b hr x hx => by
      by_contra hb
      exact hi ⟨a, b, hr, x, hx, hb⟩⟩
  choose a b hr x hx hb using hfirst
  have hlate {i j : Fin (n + 1)} (hij : i < j) (e : b i = b j) : False := by
    have hi : f' (i + 1) (b i) = some (x i) := h.repeats le_rfl _ _ (hr i) _ (hx i)
    have hai : f (j : Nat) (a j) = some (x i) :=
      h.symm.repeats hij _ _ (hr j) _ (e ▸ hi)
    have haj : f (j + 1) (a j) = some (x i) := by
      have hbj : f' (j : Nat) (b j) = some (x i) := h.repeats le_rfl _ _ (hr j) _ hai
      exact h.symm.repeats (Nat.le_succ _) _ _ (hr j) _ hbj
    have hxij : x i = x j := Option.some.inj (haj.symm.trans (hx j))
    exact hb j (hxij ▸ h.repeats le_rfl _ _ (hr j) _ hai)
  obtain ⟨i, j, hne, hij⟩ := Fintype.exists_ne_map_eq_of_card_lt
    (fun i => (⟨(b i).index, hn _ _ (hr i)⟩ : Fin n)) (by simp)
  have e : b i = b j := congrArg Ref.mk (Fin.mk.inj hij)
  obtain hlt | hlt := lt_or_gt_of_ne hne
  · exact hlate hlt e
  · exact hlate hlt e.symm

/-- All that is told of a thing, at whatever level, is told of its counterpart with as many levels
as there are counterparts. -/
theorem within (h : Agree r f f') {n : Nat} (hn : ∀ a b, r a b → b.index < n) (d : Nat) :
    Repeats r (f d) (f' n) := by
  obtain ⟨e, he, hsettled⟩ := h.exists_settled hn
  intro a b hr x hx
  have hb := h.settled hsettled d a b hr x hx
  exact h.repeats he a b hr x (h.symm.repeats le_rfl b a hr x hb)

end Agree

/-! Data. -/

/-- Whether the data of two worlds is the same, as far as they have it in common. -/
structure World.SameGraph (p : Pairing) (w w' : World) : Prop where
  slots : ∀ o o', p.pair o o' → Slot.Twins p (w.objects.get o).slots (w'.objects.get o').slots
  value : ∀ c c', p.pair c c' → (w.cells.get c).value.Twin p (w'.cells.get c').value

theorem World.Twin.graph (h : w.Twin G p w') : w.SameGraph p w' :=
  ⟨fun o o' ho => (h.objects o o' ho).slots, fun _ _ => h.value⟩

namespace World.SameGraph

theorem flip (h : w.SameGraph p w') : w'.SameGraph p.flip w where
  slots o' o ho key := by
    have hs := h.slots o o' ho key
    generalize (w.objects.get o).slots[key]? = a at hs ⊢
    generalize (w'.objects.get o').slots[key]? = b at hs ⊢
    cases hs with
    | none => exact .none
    | some hs => exact .some hs.flip
  value c' c hc := (h.value c c' hc).flip

end World.SameGraph

mutual

theorem Value.Twin.describeWith {f f' : Ref .object → Option String} (hf : Repeats p.pair f f') :
    ∀ {u v : Value}, u.Twin p v → ∀ {x}, u.describeWith f = some x → v.describeWith f' = some x
  | _, _, .null, _, h | _, _, .bool _, _, h | _, _, .number _, _, h | _, _, .string _, _, h => h
  | _, _, .object ho, _, h => hf _ _ ho _ h
  | _, _, .array _ hs, _, h => by
    obtain ⟨ds, hds, rfl⟩ := Option.map_eq_some_iff.1 h
    exact Option.map_eq_some_iff.2 ⟨ds, Value.Twins.describeItemsWith hf hs hds, rfl⟩

theorem Value.Twins.describeItemsWith {f f' : Ref .object → Option String}
    (hf : Repeats p.pair f f') :
    ∀ {us vs : List Value}, Value.Twins p us vs → ∀ {xs}, Value.describeItemsWith f us = some xs →
      Value.describeItemsWith f' vs = some xs
  | _, _, .nil, _, h => h
  | _, _, .cons hv hs, _, h => by
    obtain ⟨d, hd, h⟩ := Option.bind_eq_some_iff.1 h
    obtain ⟨ds, hds, he⟩ := Option.bind_eq_some_iff.1 h
    exact Option.bind_eq_some_iff.2 ⟨d, Value.Twin.describeWith hf hv hd,
      Option.bind_eq_some_iff.2 ⟨ds, Value.Twins.describeItemsWith hf hs hds, he⟩⟩

end

mutual

theorem Value.Twin.exportWith {f f' : Ref .object → Option Document} (hf : Repeats p.pair f f') :
    ∀ {u v : Value}, u.Twin p v → ∀ {x}, u.exportWith f = some x → v.exportWith f' = some x
  | _, _, .null, _, h | _, _, .bool _, _, h | _, _, .number _, _, h | _, _, .string _, _, h => h
  | _, _, .object ho, _, h => hf _ _ ho _ h
  | _, _, .array _ hs, _, h => by
    obtain ⟨ds, hds, rfl⟩ := Option.map_eq_some_iff.1 h
    exact Option.map_eq_some_iff.2 ⟨ds, Value.Twins.exportItemsWith hf hs hds, rfl⟩

theorem Value.Twins.exportItemsWith {f f' : Ref .object → Option Document}
    (hf : Repeats p.pair f f') :
    ∀ {us vs : List Value}, Value.Twins p us vs → ∀ {xs}, Value.exportItemsWith f us = some xs →
      Value.exportItemsWith f' vs = some xs
  | _, _, .nil, _, h => h
  | _, _, .cons hv hs, _, h => by
    obtain ⟨d, hd, h⟩ := Option.bind_eq_some_iff.1 h
    obtain ⟨ds, hds, he⟩ := Option.bind_eq_some_iff.1 h
    exact Option.bind_eq_some_iff.2 ⟨d, Value.Twin.exportWith hf hv hd,
      Option.bind_eq_some_iff.2 ⟨ds, Value.Twins.exportItemsWith hf hs hds, he⟩⟩

end

namespace World.SameGraph

theorem describe_step (h : w.SameGraph p w') (d d' : Nat)
    (hf : Repeats p.pair (w.describeWithin d) (w'.describeWithin d')) :
    Repeats p.pair (w.describeWithin (d + 1)) (w'.describeWithin (d' + 1)) := by
  intro o o' ho x hx
  obtain ⟨ds, hds, rfl⟩ := Option.map_eq_some_iff.1 hx
  refine Option.map_eq_some_iff.2 ⟨ds, mapM_of_forall₂ ?_ hds, rfl⟩
  refine (forall₂_toList (h.slots o o' ho)).imp ?_
  rintro ⟨key, slot⟩ ⟨_, slot'⟩ ⟨rfl, hs⟩ y hy
  cases slot <;> cases slot' <;> first | exact False.elim hs | skip
  · obtain ⟨z, hz, rfl⟩ := Option.map_eq_some_iff.1 hy
    exact Option.map_eq_some_iff.2 ⟨z, (h.value _ _ hs).describeWith hf hz, rfl⟩
  · exact hy

theorem fields (h : w.SameGraph p w') {o o' : Ref .object} (ho : p.pair o o') :
    List.Forall₂ (fun a b => a.1 = b.1 ∧ a.2.Twin p b.2) (w.fields o) (w'.fields o') := by
  refine List.rel_filterMap ?_ (forall₂_toList (h.slots o o' ho))
  rintro ⟨key, slot⟩ ⟨_, slot'⟩ ⟨rfl, hs⟩
  cases slot <;> cases slot' <;> first | exact False.elim hs | skip
  · exact .some ⟨rfl, h.value _ _ hs⟩
  · exact .none

theorem export_step (h : w.SameGraph p w') (d d' : Nat)
    (hf : Repeats p.pair (w.exportWithin d) (w'.exportWithin d')) :
    Repeats p.pair (w.exportWithin (d + 1)) (w'.exportWithin (d' + 1)) := by
  intro o o' ho x hx
  obtain ⟨ds, hds, rfl⟩ := Option.map_eq_some_iff.1 hx
  refine Option.map_eq_some_iff.2 ⟨ds, mapM_of_forall₂ ?_ hds, rfl⟩
  refine (h.fields ho).imp ?_
  rintro ⟨key, v⟩ ⟨_, v'⟩ ⟨rfl, hv⟩ y hy
  obtain ⟨z, hz, rfl⟩ := Option.map_eq_some_iff.1 hy
  exact Option.map_eq_some_iff.2 ⟨z, Value.Twin.exportWith hf hv hz, rfl⟩

theorem describe_agree (h : w.SameGraph p w') :
    Agree p.pair w.describeWithin w'.describeWithin :=
  ⟨fun _ => rfl, fun _ => rfl, h.describe_step, fun d d' => h.flip.describe_step d' d⟩

theorem export_agree (h : w.SameGraph p w') : Agree p.pair w.exportWithin w'.exportWithin :=
  ⟨fun _ => rfl, fun _ => rfl, h.export_step, fun d d' => h.flip.export_step d' d⟩

end World.SameGraph

namespace World.Twin

variable {u v : Value}

theorem describe? (h : w.Twin G p w') (hv : u.Twin p v) {x : String}
    (hx : w.describe? u = some x) : w'.describe? v = some x :=
  hv.describeWith (h.graph.describe_agree.within (fun _ _ ho => (h.object_made ho).2) _) hx

theorem export? (h : w.Twin G p w') {o o' : Ref .object} (ho : p.pair o o') {d : Document}
    (hd : w.export? o = some d) : w'.export? o' = some d :=
  h.graph.export_agree.within (fun _ _ ho => (h.object_made ho).2) _ o o' ho d hd

theorem exportValue? (h : w.Twin G p w') (hv : u.Twin p v) {d : Document}
    (hd : w.exportValue? u = some d) : w'.exportValue? v = some d :=
  hv.exportWith (fun _ _ ho _ => h.export? ho) hd

theorem describeWatcher? (h : w.Twin G p w') {r r' : Ref .watcher} (hr : p.pair r r') {x : String}
    (hx : w.describeWatcher? r = some x) : w'.describeWatcher? r' = some x := by
  have hw := h.watchers r r' hr
  obtain ⟨value, hvalue, rfl⟩ := Option.map_eq_some_iff.1 hx
  exact Option.map_eq_some_iff.2 ⟨value, h.describe? hw.value hvalue, by rw [hw.path]⟩

theorem describeModel? (h : w.Twin G p w') {m : Ref .model} (hm : p.pair m m) {x : String}
    (hx : w.describeModel? m = some x) : w'.describeModel? m = some x := by
  have hmodel := h.models m m hm
  have hkeys : (w.models.get m).methods.keys = (w'.models.get m).methods.keys :=
    keys_eq_of_rel (R := fun _ _ => True) fun name => by
      rw [hmodel.methods name]
      cases (w.models.get m).methods[name]? with
      | none => exact .none
      | some steps => exact .some trivial
  obtain ⟨data, hdata, rfl⟩ := Option.map_eq_some_iff.1 hx
  exact Option.map_eq_some_iff.2 ⟨data, h.describe? (.object hmodel.data) hdata, by rw [hkeys]⟩

end World.Twin

end ViewBinding
