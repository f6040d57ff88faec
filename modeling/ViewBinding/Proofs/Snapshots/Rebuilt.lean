import ViewBinding.Proofs.Documents.Doubles
import ViewBinding.Proofs.Snapshots.Unfolding

/-! View-models that are made again from their snapshots: every path reads the same in both. -/

namespace ViewBinding

open Relation

namespace World

variable {w w' : World} {m : Ref .model} {d : Document}

/-- Whether two reads find the same: one fault, or values of one sort that are exported alike. -/
def ReadsAlike (w : World) : Except Fault Value → Except Fault Value → Prop
  | .error f, .error g => f = g
  | .ok u, .ok v => u.sort = v.sort ∧ ∃ d, w.exportValue? u = some d ∧ w.exportValue? v = some d
  | _, _ => False

theorem Depicts.read (h : w.Depicts (.object (w.models.get m).data) d)
    (compute : Computed → Reading Value) (path : String) :
    ∃ r, (ViewModel.read compute m path).once w = some (r, w) ∧ w.Leads r (d.get path) := by
  rw [Document.get]
  cases hp : Path.parse path with
  | error f =>
    exact ⟨.error f, ViewModel.read_misspelt hp, .error f⟩
  | ok p =>
    have hroot : ∀ o, Value.object (w.models.get m).data = .object o →
        ∃ d, w.Depicts (.object o) d := by
      intro o he
      cases he
      exact ⟨d, h⟩
    refine ⟨_, ?_, h.follow p p.segments⟩
    rw [ViewModel.read_once hp]
    exact Reading.once_apply (w.plainOn_depicts.follow_nobody p p.segments hroot)

theorem Leads.readsAlike {r r' : Except Fault Value} {a : Except Fault Document}
    (h : w.Leads r a) (h' : w.Reflects r' a) : w.ReadsAlike r r' := by
  cases h with
  | error f =>
    cases r' with
    | error g => exact Eq.symm h'
    | ok v => exact False.elim h'
  | ok hd =>
    cases r' with
    | error g => exact False.elim h'
    | ok v =>
      obtain ⟨hsort, -, hexport⟩ := h'
      refine ⟨hd.sort.trans hsort.symm, _, hd.exportValue?, ?_⟩
      rw [hexport, hd.snapshot]

theorem exportValue?_observe (d : Document) (w : World) :
    (observe d w).2.exportValue? (observe d w).1 = some d.snapshot :=
  (observe_holds d w).exportValue?

theorem Depicts.grown {v : Value} (h : w.Depicts v d) (hg : w.Grown w') (model : ViewModel) :
    (w'.addModel model).Depicts v d := by
  have hmade : w'.Depicts v d :=
    h.frame hg.objects hg.object hg.cells fun c hc => congrArg Cell.value (hg.cell c hc)
  apply hmade.frame
  · exact Nat.le_refl _
  · exact fun _ _ => rfl
  · exact Nat.le_refl _
  · exact fun _ _ => rfl

/-- A document that is made differs in numbers only once it is exported, and once more it does not
change at all. Data without computed properties, with finite numbers and with no object inside
itself has a snapshot, and a view-model that is made from it has the same one; every path reads the
same in the old and in the new view-model, be it a fault or a value. -/
theorem snapshot_rebuilds :
    (∀ d w, ∃ d', (observe d w).2.exportValue? (observe d w).1 = some d' ∧ d.Renumbered d' ∧
      ∀ w', (observe d' w').2.exportValue? (observe d' w').1 = some d') ∧
    ∀ w m, m.index < w.models.size → w.PlainData (w.models.get m).data →
      ∃ d, w.export? (w.models.get m).data = some d ∧
        ∀ methods, ∃ m' w', ViewModel.create { data := (observe d w).1, methods }
            (observe d w).2 = some (.ok m', w') ∧
          w'.export? (w'.models.get m').data = some d ∧
          ∀ compute path, ∃ r r', (ViewModel.read compute m path).once w' = some (r, w') ∧
            (ViewModel.read compute m' path).once w' = some (r', w') ∧ w'.ReadsAlike r r' := by
  refine ⟨fun d w => ⟨d.snapshot, exportValue?_observe d w, d.renumbered_snapshot, fun w' => ?_⟩,
    fun w m hm hplain => ?_⟩
  · rw [exportValue?_observe, d.snapshot_snapshot]
  · obtain ⟨d, hd⟩ := hplain.depicts
    -- The data of a view-model is an object, so its snapshot has fields.
    obtain ⟨fields, rfl⟩ : ∃ fields, d = .object fields := by
      cases hd
      exact ⟨_, rfl⟩
    refine ⟨_, hd.exportValue?, fun methods => ?_⟩
    have hroot := observe_object fields w
    have hgrown := (observe_grown (.object fields) w).1
    let model : ViewModel := ⟨(observeFields fields ∅ w).2.objects.fresh,
      Setup.methodTable ⟨(observe (.object fields) w).1, [], methods⟩, []⟩
    have hbacks := backs_addModel fields w (show _ = Value.object model.data from hroot)
    refine ⟨_, (observe (.object fields) w).2.addModel model, create_plain hroot _, ?_,
      fun compute path => ?_⟩
    · obtain ⟨-, S, -, hholds⟩ := id hbacks
      have hexport := hholds.exportValue?
      rw [hd.snapshot] at hexport
      exact hexport
    · -- The old view-model has the data that it had.
      have hlt : m.index < (observe (.object fields) w).2.models.size :=
        Nat.lt_of_lt_of_le hm hgrown.models
      have hmodel : ((observe (.object fields) w).2.addModel model).models.get m =
          w.models.get m := (Store.get_add_of_lt _ _ hlt).trans (hgrown.model m hm)
      have hold := hd.grown hgrown model
      rw [← hmodel] at hold
      obtain ⟨r, hr, hleads⟩ := hold.read compute path
      obtain ⟨r', hr', hreflects⟩ := hbacks.read compute path
      exact ⟨r, r', hr, hr', hleads.readsAlike hreflects⟩

/-- Somebody who works at home, with minus zero and a whole number too large for an integer. -/
def shared : World where
  objects := ⟨#[{ slots := (∅ : Keyed Slot).insert "city" (.cell ⟨0⟩) },
    { slots := (((∅ : Keyed Slot).insert "home" (.cell ⟨1⟩)).insert "work" (.cell ⟨2⟩)).insert
        "sizes" (.cell ⟨3⟩) }]⟩
  cells := ⟨#[{ value := .string "Oslo" }, { value := .object ⟨0⟩ }, { value := .object ⟨0⟩ },
    { value := .array ⟨0⟩ [.number (Float.ofBits 0x8000000000000000),
        .array ⟨1⟩ [.object ⟨0⟩, .number (Float.ofBits 0x4340000000000000)]] }]⟩
  nextArray := ⟨2⟩
  models := ⟨#[{ data := ⟨1⟩ }]⟩

theorem slot?_shared_home {key : String} {slot : Slot} (h : shared.slot? ⟨0⟩ key = some slot) :
    slot = .cell ⟨0⟩ := by
  have hslots : shared.slot? ⟨0⟩ key = ((∅ : Keyed Slot).insert "city" (.cell ⟨0⟩))[key]? := rfl
  rw [hslots, Std.ExtTreeMap.getElem?_insert] at h
  split at h
  · exact (Option.some.inj h).symm
  · simp at h

theorem slot?_shared_root {key : String} {slot : Slot} (h : shared.slot? ⟨1⟩ key = some slot) :
    slot = .cell ⟨1⟩ ∨ slot = .cell ⟨2⟩ ∨ slot = .cell ⟨3⟩ := by
  have hslots : shared.slot? ⟨1⟩ key = ((((∅ : Keyed Slot).insert "home" (.cell ⟨1⟩)).insert
      "work" (.cell ⟨2⟩)).insert "sizes" (.cell ⟨3⟩))[key]? := rfl
  simp only [hslots, Std.ExtTreeMap.getElem?_insert] at h
  split at h
  · exact .inr (.inr (Option.some.inj h).symm)
  · split at h
    · exact .inr (.inl (Option.some.inj h).symm)
    · split at h
      · exact .inl (Option.some.inj h).symm
      · simp at h

theorem not_inside_home (o : Ref .object) : ¬shared.Inside ⟨0⟩ o := by
  rintro ⟨key, c, hk, ho⟩
  obtain rfl : c = ⟨0⟩ := Slot.cell.inj (slot?_shared_home hk)
  have hvalue : (shared.cells.get ⟨0⟩).value = .string "Oslo" := rfl
  rw [hvalue] at ho
  cases ho

theorem contains_sizes {u : Value} (h : (shared.cells.get ⟨3⟩).value.Contains u)
    (ha : u.sort ≠ .array) : u = .object ⟨0⟩ ∨ u = .number (Float.ofBits 0x8000000000000000) ∨
      u = .number (Float.ofBits 0x4340000000000000) := by
  have hvalue : (shared.cells.get ⟨3⟩).value =
    .array ⟨0⟩ [.number (Float.ofBits 0x8000000000000000),
      .array ⟨1⟩ [.object ⟨0⟩, .number (Float.ofBits 0x4340000000000000)]] := rfl
  rw [hvalue] at h
  cases h with
  | self => exact absurd rfl ha
  | item hmem h =>
    rcases List.mem_pair.1 hmem with rfl | rfl
    · cases h
      exact .inr (.inl rfl)
    · cases h with
      | self => exact absurd rfl ha
      | item hmem h =>
        rcases List.mem_pair.1 hmem with rfl | rfl
        · cases h
          exact .inl rfl
        · cases h
          exact .inr (.inr rfl)

theorem inside_root {o : Ref .object} (h : shared.Inside ⟨1⟩ o) : o = ⟨0⟩ := by
  obtain ⟨key, c, hk, ho⟩ := h
  have hone : (shared.cells.get ⟨1⟩).value = .object ⟨0⟩ := rfl
  have htwo : (shared.cells.get ⟨2⟩).value = .object ⟨0⟩ := rfl
  rcases slot?_shared_root hk with hc | hc | hc
  · rw [Slot.cell.inj hc, hone] at ho
    cases ho
    rfl
  · rw [Slot.cell.inj hc, htwo] at ho
    cases ho
    rfl
  · rw [Slot.cell.inj hc] at ho
    rcases contains_sizes ho (by simp [Value.sort]) with h | h | h
    · exact Value.object.inj h
    · cases h
    · cases h

theorem reach_shared {o : Ref .object} (h : ReflTransGen shared.Inside ⟨1⟩ o) :
    o = ⟨1⟩ ∨ o = ⟨0⟩ := by
  induction h with
  | refl => exact .inl rfl
  | tail _ hstep ih =>
    rcases ih with rfl | rfl
    · exact .inr (inside_root hstep)
    · exact absurd hstep (not_inside_home _)

theorem plainData_shared : shared.PlainData ⟨1⟩ where
  made o ho := by
    rcases reach_shared ho with rfl | rfl
    · refine ⟨by decide, fun key c hk => ?_⟩
      rcases slot?_shared_root hk with hc | hc | hc <;> cases hc <;> decide
    · refine ⟨by decide, fun key c hk => ?_⟩
      cases slot?_shared_home hk
      decide
  uncomputed o ho key p hk := by
    rcases reach_shared ho with rfl | rfl
    · rcases slot?_shared_root hk with hc | hc | hc <;> cases hc
    · cases slot?_shared_home hk
  finite o ho key c x hk hx := by
    have hvalues : (shared.cells.get ⟨0⟩).value = .string "Oslo" ∧
        (shared.cells.get ⟨1⟩).value = .object ⟨0⟩ ∧
        (shared.cells.get ⟨2⟩).value = .object ⟨0⟩ := ⟨rfl, rfl, rfl⟩
    obtain ⟨hzero, hone, htwo⟩ := hvalues
    rcases reach_shared ho with rfl | rfl
    · rcases slot?_shared_root hk with hc | hc | hc
      · rw [Slot.cell.inj hc, hone] at hx
        cases hx
      · rw [Slot.cell.inj hc, htwo] at hx
        cases hx
      · rw [Slot.cell.inj hc] at hx
        rcases contains_sizes hx (by simp [Value.sort]) with h | h | h
        · cases h
        · cases h
          rfl
        · cases h
          rfl
    · rw [Slot.cell.inj (slot?_shared_home hk), hzero] at hx
      cases hx
  acyclic o ho hcycle := by
    obtain ⟨o', hstep, hback⟩ := TransGen.head'_iff.1 hcycle
    rcases reach_shared ho with rfl | rfl
    · rw [inside_root hstep] at hback
      rcases hback.cases_head with h | ⟨_, hstep', -⟩
      · cases h
      · exact not_inside_home _ hstep'
    · exact not_inside_home _ hstep

theorem snapshot_rebuilds_shared : shared.PlainData ⟨1⟩ ∧ ∃ d,
    shared.export? (shared.models.get ⟨0⟩).data = some d ∧
      ∀ methods, ∃ m' w', ViewModel.create { data := (observe d shared).1, methods }
          (observe d shared).2 = some (.ok m', w') ∧
        w'.export? (w'.models.get m').data = some d ∧
        ∀ compute path, ∃ r r', (ViewModel.read compute ⟨0⟩ path).once w' = some (r, w') ∧
          (ViewModel.read compute m' path).once w' = some (r', w') ∧ w'.ReadsAlike r r' :=
  ⟨plainData_shared, snapshot_rebuilds.2 shared ⟨0⟩ (by decide) plainData_shared⟩

/-- What is shared is there twice, minus zero is the integer zero, and `2 ^ 53` stays what it is. -/
example : shared.export? ⟨1⟩ = some (.object [("home", .object [("city", .string "Oslo")]),
    ("sizes", .array [.number (.integer 0), .array [.object [("city", .string "Oslo")],
      .number (.real (Float.ofBits 0x4340000000000000))]]),
    ("work", .object [("city", .string "Oslo")])]) := by
  rfl

end World

end ViewBinding
