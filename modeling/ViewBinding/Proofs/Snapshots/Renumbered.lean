import ViewBinding.Proofs.Documents.Spec
import ViewBinding.Proofs.Snapshots.Integers

/-! The snapshot of a document differs from it in numbers only, and it is its own snapshot. -/

namespace ViewBinding.Document

mutual

/-- Whether two documents differ in their numbers only, of which the second has what those of the
first are exported as. Objects have the same fields; of two fields with one name the later counts.
-/
inductive Renumbered : Document → Document → Prop
  | null : Renumbered .null .null
  | bool (b : Bool) : Renumbered (.bool b) (.bool b)
  | number (n : Numeral) : Renumbered (.number n) (ofFloat n.toFloat)
  | string (s : String) : Renumbered (.string s) (.string s)
  | array {ds ds' : List Document} : RenumberedAll ds ds' → Renumbered (.array ds) (.array ds')
  | object {fields fields' : List (String × Document)} (new : String → Document) :
      (∀ key, field? fields' key = (field? fields key).map fun _ => new key) →
      (∀ key d, field? fields key = some d → Renumbered d (new key)) →
      Renumbered (.object fields) (.object fields')

inductive RenumberedAll : List Document → List Document → Prop
  | nil : RenumberedAll [] []
  | cons {d d' : Document} {ds ds' : List Document} :
      Renumbered d d' → RenumberedAll ds ds' → RenumberedAll (d :: ds) (d' :: ds')

end

theorem mem_of_field? {fields : List (String × Document)} {key : String} {d : Document}
    (h : field? fields key = some d) : (key, d) ∈ fields := by
  induction fields with
  | nil => cases h
  | cons field rest ih =>
    obtain ⟨name, d'⟩ := field
    rw [field?, Option.or_eq_some_iff] at h
    rcases h with h | ⟨-, h⟩
    · exact List.mem_cons_of_mem _ (ih h)
    · split at h
      · rename_i hname
        cases h
        rw [hname]
        exact List.mem_cons_self
      · cases h

/-- What holds of an array if it holds of its items, and of an object if it holds of the fields that
count, holds of every document. -/
@[elab_as_elim]
theorem byParts {P : Document → Prop} (null : P .null) (bool : ∀ b, P (.bool b))
    (number : ∀ n, P (.number n)) (string : ∀ s, P (.string s))
    (array : ∀ ds, (∀ d ∈ ds, P d) → P (.array ds))
    (object : ∀ fields, (∀ key d, field? fields key = some d → P d) → P (.object fields))
    (d : Document) : P d :=
  @Document.rec P (fun ds => ∀ d ∈ ds, P d) (fun fields => ∀ p ∈ fields, P p.2) (fun p => P p.2)
    null bool number string array
    (fun fields h => object fields fun key _ hk => h (key, _) (mem_of_field? hk))
    (fun _ h => absurd h List.not_mem_nil) (fun _ _ hd hds => List.forall_mem_cons.2 ⟨hd, hds⟩)
    (fun _ h => absurd h List.not_mem_nil) (fun _ _ hp hps => List.forall_mem_cons.2 ⟨hp, hps⟩)
    (fun _ _ hd => hd) d

theorem field?_of_mem {fields : List (String × Document)} {key : String} {d : Document}
    (hd : fields.Pairwise fun a b => a.1 ≠ b.1) (h : (key, d) ∈ fields) :
    field? fields key = some d := by
  induction fields with
  | nil => cases h
  | cons field rest ih =>
    obtain ⟨hne, hd⟩ := List.pairwise_cons.1 hd
    rcases List.mem_cons.1 h with rfl | h
    · -- No later field has the same name.
      have hrest : field? rest key = none := by
        rw [Option.eq_none_iff_forall_ne_some]
        intro d' hd'
        exact hne _ (mem_of_field? hd') rfl
      rw [field?, hrest, if_pos rfl, Option.none_or]
    · rw [field?, ih hd h, Option.some_or]

theorem field?_toList (table : Keyed Document) (key : String) :
    field? table.toList key = table[key]? := by
  have hd : table.toList.Pairwise fun a b => a.1 ≠ b.1 := by
    refine table.distinct_keys_toList.imp fun h e => h ?_
    rw [e]
    exact Std.ReflCmp.compare_self
  cases h : table[key]? with
  | some d => exact field?_of_mem hd (Std.ExtTreeMap.mem_toList_iff_getElem?_eq_some.2 h)
  | none =>
    rw [Option.eq_none_iff_forall_ne_some]
    intro d hd'
    have hmem := Std.ExtTreeMap.mem_toList_iff_getElem?_eq_some.1 (mem_of_field? hd')
    cases h.symm.trans hmem

theorem field?_snapshot (fields : List (String × Document)) (key : String) :
    field? (snapshotFields fields ∅).toList key = (field? fields key).map snapshot := by
  rw [field?_toList, getElem?_snapshotFields, Std.ExtTreeMap.getElem?_empty, Option.or_none]

theorem renumberedAll_snapshots {ds : List Document} (h : ∀ d ∈ ds, Renumbered d d.snapshot) :
    RenumberedAll ds (snapshots ds) := by
  induction ds with
  | nil => exact .nil
  | cons d ds ih =>
    exact .cons (h d List.mem_cons_self) (ih fun d' hd' => h d' (List.mem_cons_of_mem _ hd'))

/-- A snapshot differs in numbers only. -/
theorem renumbered_snapshot (d : Document) : Renumbered d d.snapshot := by
  induction d using byParts with
  | null => exact .null
  | bool b => exact .bool b
  | number n => exact .number n
  | string s => exact .string s
  | array ds ih => exact .array (renumberedAll_snapshots ih)
  | object fields ih =>
    refine .object (fun key => ((field? fields key).getD .null).snapshot) (fun key => ?_)
      fun key d hk => ?_
    · rw [field?_snapshot]
      cases field? fields key <;> rfl
    · rw [hk]
      exact ih key d hk

theorem snapshotFields_toList {table : Keyed Document}
    (h : ∀ (key : String) (d : Document), table[key]? = some d → d.snapshot = d) :
    snapshotFields table.toList ∅ = table := by
  refine Std.ExtTreeMap.ext_getElem? fun key => ?_
  rw [getElem?_snapshotFields, field?_toList, Std.ExtTreeMap.getElem?_empty, Option.or_none]
  cases hk : table[key]? with
  | none => rfl
  | some d => rw [Option.map_some, h key d hk]

theorem snapshots_snapshots {ds : List Document} (h : ∀ d ∈ ds, d.snapshot.snapshot = d.snapshot) :
    snapshots (snapshots ds) = snapshots ds := by
  induction ds with
  | nil => rfl
  | cons d ds ih =>
    have hrest := ih fun d' hd' => h d' (List.mem_cons_of_mem _ hd')
    simp only [snapshots, h d List.mem_cons_self, hrest]

theorem snapshot_snapshot (d : Document) : d.snapshot.snapshot = d.snapshot := by
  induction d using byParts with
  | null => rfl
  | bool _ => rfl
  | string _ => rfl
  | number n =>
    rw [snapshot]
    rcases ofFloat_cases n.toFloat with ⟨n', hn⟩ | hn
    · rw [hn]
      exact ofFloat_exported hn
    · rw [hn]
      rfl
  | array ds ih => simp only [snapshot, snapshots_snapshots ih]
  | object fields ih =>
    have htable : ∀ (key : String) (d : Document), (snapshotFields fields ∅)[key]? = some d →
        d.snapshot = d := by
      intro key d hk
      rw [← field?_toList, field?_snapshot, Option.map_eq_some_iff] at hk
      obtain ⟨d', hd', rfl⟩ := hk
      exact ih key d' hd'
    simp only [snapshot, snapshotFields_toList htable]

end ViewBinding.Document
