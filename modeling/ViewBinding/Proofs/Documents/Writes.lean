import ViewBinding.Proofs.Course.Updates
import ViewBinding.Proofs.Documents.Observed

/-! One write of a property is one write in the document that the data holds. All else leaves the
data alone unless it writes or defines computed properties. -/

namespace ViewBinding.World

variable {P : Step → Prop} {w w' : World} {hs : List Happening} {d d' : Document} {v : Value}
  {S S' N T : Set Location} {o : Ref .object} {key : String} {c : Ref .cell}
  {fields : List (String × Document)}

theorem Holds.same {u : Value} (h : w.Holds v d S) (h' : w.Holds u d' N) (hN : Disjoint S N) :
    v.same u = d.same d' := by
  cases h with
  | array ha _ =>
    cases h' with
    | array ha' _ => exact beq_false_of_ne fun e => Set.disjoint_left.1 hN (e ▸ ha) ha'
    | _ => rfl
  | object _ _ ho =>
    cases h' with
    | object _ _ ho' => exact beq_false_of_ne fun e => Set.disjoint_left.1 hN (e ▸ ho) ho'
    | _ => rfl
  | _ => cases h' <;> rfl

/-- An object with a property in another cell, or with another value in its cell, holds the document
with that field. -/
theorem Holds.put (h : w.Holds (.object o) (.object fields) S)
    (hw : w.Leaves w' (S \ {.object o, .cell c}))
    (hself : w'.slot? o key = some (.cell c))
    (hother : ∀ key' ≠ key, w'.slot? o key' = w.slot? o key')
    (hcell : w.slot? o key = some (.cell c) ∨ .cell c ∉ S)
    (hv : w'.Holds (w'.cells.get c).value d N) (hc : .cell c ∉ N) (hN : Disjoint S N) :
    w'.Holds (.object o) (.object (fields ++ [(key, d)])) (S ∪ insert (.cell c) N) := by
  cases h with
  | @object _ T _ _ l ho hm hT hn hf hfields =>
    have hplace {key' : String} {d' : Document} (hk : Document.field? fields key' = some d') :
        l.place key' ⊆ S := (hf.sub key' d' hk).trans hT
    -- The cell is that of the field itself, if it was there before.
    have hapart {key' : String} {d' : Document} (hne : key' ≠ key)
        (hk : Document.field? fields key' = some d') : .cell c ∉ l.place key' := by
      rcases hcell with hs | hnew
      · cases hk₀ : Document.field? fields key with
        | none => exact nomatch hs.symm.trans (hf.missing key hk₀)
        | some d₀ =>
          obtain rfl : c = l.cell key := by
            have he := hs.symm.trans (hf.cell key d₀ hk₀)
            cases he
            rfl
          exact Set.disjoint_left.1 (hf.apart key key' d₀ d' hk₀ hk hne.symm)
            (Set.mem_insert _ _)
      · exact fun hc => hnew (hplace hk hc)
    have hput : (l.put key c N).Fits (w'.slot? o) (fields ++ [(key, d)])
        (T ∪ insert (.cell c) N) := by
      refine hf.put d hc Set.subset_union_right Set.subset_union_left ?_ hself hother
      intro key' d' hne hk
      rw [Set.disjoint_left]
      rintro x (rfl | hx)
      · exact hapart hne hk
      · exact fun hx' => Set.disjoint_left.1 hN (hplace hk hx') hx
    refine .object _ (Nat.lt_of_lt_of_le ho hw.objects) (.inl hm)
      (Set.union_subset_union_left _ hT) ?_ hput (holds_put ?_ hv)
    · rintro (ho | ho | ho)
      · exact hn ho
      · cases ho
      · exact Set.disjoint_left.1 hN hm ho
    · intro key' d' hne hk
      apply (hfields key' d' hk).frame_cell
      refine hw.mono fun x hx => ⟨hplace hk hx, ?_⟩
      rintro (rfl | rfl)
      · exact hn (hf.sub key' d' hk hx)
      · exact hapart hne hk hx

theorem store_leaves (w : World) (c : Ref .cell) (v : Value) (hS : .cell c ∉ S) :
    w.Leaves (w.store c v) S where
  objects := Nat.le_refl _
  cells := Nat.le_of_eq (Store.size_modify ..).symm
  arrays := Nat.le_refl _
  same l hl := by
    cases l with
    | object o => exact fun key => rfl
    | cell c' =>
      rcases w.store_cases c c' v with e | ⟨rfl, -⟩
      · exact congrArg Cell.value e
      · exact absurd hl hS
    | array a => trivial

theorem value_store (hc : c.index < w.cells.size) (v : Value) :
    ((w.store c v).cells.get c).value = v := by
  rw [store, Store.get_modify_self _ _ hc]

theorem Holds.store (h : w.Holds (.object o) (.object fields) S)
    (hs : w.slot? o key = some (.cell c)) (hc : c.index < w.cells.size) (hv : w.Holds v d N)
    (hcN : .cell c ∉ N) (hN : Disjoint S N) :
    (w.store c v).Holds (.object o) (.object (fields ++ [(key, d)])) (S ∪ insert (.cell c) N) := by
  have hw : w.Leaves (w.store c v) (S \ {.object o, .cell c}) :=
    store_leaves w c v fun hc => hc.2 (.inr rfl)
  have hnew : (w.store c v).Holds ((w.store c v).cells.get c).value d N := by
    rw [value_store hc]
    exact hv.frame (store_leaves w c v hcN)
  exact h.put hw hs (fun _ _ => rfl) (.inl hs) hnew hcN hN

abbrev inserted (w : World) (o : Ref .object) (key : String) (v : Value) : World :=
  ((w.insertCell o key v).takeWaiting o key).2

theorem slot?_inserted (o o' : Ref .object) (key key' : String) (v : Value) :
    (w.inserted o key v).slot? o' key' = (w.insertCell o key v).slot? o' key' :=
  World.slot?_modify_waiting _ o (fun object => object.waiting.erase key) o' key'

theorem size_inserted (w : World) (o : Ref .object) (key : String) (v : Value) :
    (w.inserted o key v).objects.size = w.objects.size ∧
      (w.inserted o key v).cells.size = w.cells.size + 1 := by
  refine ⟨?_, Store.size_add ..⟩
  have he := Store.size_modify (w.insertCell o key v).objects o fun object =>
    { object with waiting := object.waiting.erase key }
  exact he.trans (Store.size_modify ..)

theorem inserted_leaves (o : Ref .object) (key : String) (v : Value) (hS : ∀ l ∈ S, l.Within w)
    (ho : .object o ∉ S) : w.Leaves (w.inserted o key v) S := by
  obtain ⟨hobjects, hcells⟩ := size_inserted w o key v
  refine ⟨Nat.le_of_eq hobjects.symm, hcells ▸ Nat.le_succ _, Nat.le_refl _, fun l hl => ?_⟩
  cases l with
  | object o' =>
    intro key'
    rw [slot?_inserted]
    rcases w.slot?_insertCell_cases o key v o' key' with e | ⟨rfl, -⟩
    · exact e
    · exact absurd hl ho
  | cell c' =>
    rcases w.get_insertCell_cases o key v c' with e | ⟨rfl, -⟩
    · exact congrArg Cell.value e
    · exact absurd (hS _ hl) (Nat.lt_irrefl _)
  | array a => trivial

theorem Holds.inserted (h : w.Holds (.object o) (.object fields) S) (key : String)
    (hS : ∀ l ∈ S, l.Within w) (hv : w.Holds v d N) (hNw : ∀ l ∈ N, l.Within w)
    (ho : .object o ∉ N) (hN : Disjoint S N) :
    (w.inserted o key v).Holds (.object o) (.object (fields ++ [(key, d)]))
      (S ∪ insert (.cell w.cells.fresh) N) := by
  have hnew {X : Set Location} (hX : ∀ l ∈ X, l.Within w) : .cell w.cells.fresh ∉ X :=
    fun hc => Nat.lt_irrefl _ (hX _ hc)
  have hw : w.Leaves (w.inserted o key v) (S \ {.object o, .cell w.cells.fresh}) :=
    inserted_leaves o key v (fun l hl => hS l hl.1) fun ho => ho.2 (.inl rfl)
  have hsize : o.index < w.objects.size := by
    cases h
    assumption
  have hself : (w.inserted o key v).slot? o key = some (.cell w.cells.fresh) := by
    rw [slot?_inserted]
    exact slot?_setSlot_self hsize key _
  have hother (key' : String) (hne : key' ≠ key) :
      (w.inserted o key v).slot? o key' = w.slot? o key' := by
    rw [slot?_inserted]
    exact (w.slot?_insertCell_cases o key v o key').resolve_right fun ⟨_, hk, _⟩ => hne hk.symm
  have hvalue : ((w.inserted o key v).cells.get w.cells.fresh).value = v :=
    value_fresh_cell w v
  refine h.put hw hself hother (.inr (hnew hS)) ?_ (hnew hNw) hN
  rw [hvalue]
  exact hv.frame (inserted_leaves o key v hNw ho)

theorem setRegistry_leaves (w : World) (source : Source) (registry : Registry)
    (S : Set Location) : w.Leaves (w.setRegistry source registry) S := by
  constructor
  · cases source with
    | waiting => exact Nat.le_of_eq (Store.size_modify ..).symm
    | _ => exact Nat.le_refl _
  · cases source with
    | cell => exact Nat.le_of_eq (Store.size_modify ..).symm
    | _ => exact Nat.le_refl _
  · cases source <;> exact Nat.le_refl _
  · intro l _
    have hsight := w.sight_setRegistry source registry
    cases l with
    | object o => exact fun key => congrFun (congrFun (congrArg Sight.slot? hsight) o) key
    | cell c => exact congrFun (congrArg Sight.value hsight) c
    | array a => trivial

theorem Glance.leaves (h : w.Glance hs w') (hS : ∀ l ∈ S, l.Within w) : w.Leaves w' S := by
  cases h with
  | register => exact setRegistry_leaves w _ _ S
  | observe d => exact observe_leaves d w hS
  | array => exact .of_eq rfl rfl (Nat.le_succ _)
  | computed => exact .of_eq rfl rfl (Nat.le_refl _)

theorem Glances.leaves (h : w.Glances hs w') (hS : ∀ l ∈ S, l.Within w) : w.Leaves w' S := by
  induction h with
  | nil => exact .refl w S
  | snoc _ hglance ih => exact ih.trans (Glance.leaves hglance fun l hl => ih.within (hS l hl))

theorem Makes.leaves {watcher : Watcher} {n : Nat} (h : w.Makes watcher n hs v w')
    (hS : ∀ l ∈ S, l.Within w) : w.Leaves w' S := by
  cases h with
  | intro h _ =>
    have hadd : w.Leaves (w.addWatcher watcher) S := .of_eq rfl rfl (Nat.le_refl _)
    have hlook := Glances.leaves h fun l hl => hadd.within (hS l hl)
    exact (hadd.trans hlook).trans (.of_eq rfl rfl (Nat.le_refl _))

theorem startCallback_data (w : World) (r : Ref .watcher) (m : Ref .model) (change : Change)
    (callback : Callback) : (w.startCallback r m change callback).objects = w.objects ∧
      (w.startCallback r m change callback).cells = w.cells ∧
        (w.startCallback r m change callback).nextArray = w.nextArray := by
  cases callback <;> exact ⟨rfl, rfl, rfl⟩

theorem Move.leaves (hP : ¬Writable P) (hd : ¬Definable P) (h : w.Move P hs w')
    (hS : ∀ l ∈ S, l.Within w) : w.Leaves w' S := by
  cases h with
  | glance h => exact h.leaves hS
  | watch _ h => exact (h.leaves hS).trans (.of_eq rfl rfl (Nat.le_refl _))
  | hold _ _ h => exact (h.leaves hS).trans (.of_eq rfl rfl (Nat.le_refl _))
  | @call w₀ _ r _ new =>
    obtain ⟨ho, hc, ha⟩ := startCallback_data (w.remember r new) r (w.watchers.get r).model
      { new, old := (w.watchers.get r).value } (w.watchers.get r).callback
    exact .of_eq ho hc (Nat.le_of_eq (congrArg Ref.index ha.symm))
  | store hp => exact absurd hp hP
  | insert _ hp => exact absurd hp hP
  | define _ _ hp => exact absurd hp hd
  | prune => exact setRegistry_leaves w _ _ S
  | addCell => exact addCell_leaves w _ hS
  | _ => exact .of_eq rfl rfl (Nat.le_refl _)

theorem Course.leaves (hP : ¬Writable P) (hd : ¬Definable P) (h : w.Course P hs w')
    (hS : ∀ l ∈ S, l.Within w) : w.Leaves w' S := by
  induction h with
  | nil => exact .refl w S
  | snoc _ hmove ih => exact ih.trans (Move.leaves hP hd hmove fun l hl => ih.within (hS l hl))

theorem Move.root (h : w.Move P hs w') {m : Ref .model} (hm : m.index < w.models.size) :
    m.index < w'.models.size ∧ (w'.models.get m).data = (w.models.get m).data := by
  have same (h : w'.models = w.models) :
      m.index < w'.models.size ∧ (w'.models.get m).data = (w.models.get m).data := by
    rw [h]
    exact ⟨hm, rfl⟩
  have added (model : ViewModel) : m.index < (w.models.add model).size ∧
      ((w.models.add model).get m).data = (w.models.get m).data := by
    rw [Store.size_add, Store.get_add_of_lt _ _ hm]
    exact ⟨Nat.lt_succ_of_lt hm, rfl⟩
  cases h with
  | glance h => exact same h.sameFrame.models
  | @watch _ _ watcher _ _ _ _ h =>
    have hmodels := h.frame.2.1
    rw [keepWatcher, hmodels]
    refine ⟨Nat.lt_of_lt_of_eq hm (Store.size_modify ..).symm, ?_⟩
    rcases w.models.get_modify_cases watcher.model m fun model =>
      { model with watchers := model.watchers ++ [w.watchers.fresh] } with e | ⟨-, -, e⟩ <;> rw [e]
  | hold _ _ h => exact same h.frame.2.1
  | @call w₀ _ r _ new =>
    refine same ?_
    cases (w.watchers.get r).callback <;> rfl
  | prune => exact same (SameFrame.setRegistry w _ _).models
  | build => exact added _
  | mount => exact added _
  | _ => exact same rfl

theorem Course.root (h : w.Course P hs w') {m : Ref .model} (hm : m.index < w.models.size) :
    m.index < w'.models.size ∧ (w'.models.get m).data = (w.models.get m).data := by
  induction h with
  | nil => exact ⟨hm, rfl⟩
  | snoc _ hmove ih =>
    obtain ⟨hm', hroot⟩ := Move.root hmove ih.1
    exact ⟨hm', hroot.trans ih.2⟩

end ViewBinding.World
