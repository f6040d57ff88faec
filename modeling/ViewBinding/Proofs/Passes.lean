import ViewBinding.Proofs.Current

/-! The changes that runs are made of, and what each keeps: a valid world stays valid, and everyone
stays settled but those who are due for an update. -/

namespace ViewBinding.World

variable {L P S T U : List Subscriber} {w w' w'' : World}

/-- From a valid world to a valid one, where the subscribers in `S` are due before and those in `T`
after, whoever else is due. -/
structure Passes (S T : List Subscriber) (w w' : World) : Prop where
  valid : w'.Valid
  objects : w.objects.size ≤ w'.objects.size
  watchers : w.watchers.size ≤ w'.watchers.size
  models : w.models.size ≤ w'.models.size
  current : ∀ P, w.Current (S ++ P) → w'.Current (T ++ P)

theorem Passes.trans (h : w.Passes S T w') (h' : w'.Passes T U w'') : w.Passes S U w'' where
  valid := h'.valid
  objects := Nat.le_trans h.objects h'.objects
  watchers := Nat.le_trans h.watchers h'.watchers
  models := Nat.le_trans h.models h'.models
  current P hc := h'.current P (h.current P hc)

theorem Passes.frame (h : w.Passes S T w') (U : List Subscriber) :
    w.Passes (S ++ U) (T ++ U) w' where
  valid := h.valid
  objects := h.objects
  watchers := h.watchers
  models := h.models
  current P hc := by
    rw [List.append_assoc] at hc ⊢
    exact h.current (U ++ P) hc

/-- What a finished action leads to: nobody is due because of it, and the same view-models are in
use. -/
structure Onward (w w' : World) : Prop extends Passes [] [] w w' where
  used : w'.modelsInUse = w.modelsInUse

theorem Onward.refl (hw : w.Valid) : w.Onward w :=
  ⟨⟨hw, Nat.le_refl _, Nat.le_refl _, Nat.le_refl _, fun _ h => h⟩, rfl⟩

theorem Onward.trans (h : w.Onward w') (h' : w'.Onward w'') : w.Onward w'' :=
  ⟨h.toPasses.trans h'.toPasses, h'.used.trans h.used⟩

theorem Shift.passes (h : w.Shift L w') (hw : w.Valid) (hw' : w'.Valid)
    (ho : w.objects.size ≤ w'.objects.size) (hr : w.watchers.size ≤ w'.watchers.size)
    (hm : w.models.size ≤ w'.models.size)
    (ha : ∀ r, w'.alive (.watcher r) → w.alive (.watcher r) ∨ w'.Settled r) : w.Passes [] L w' :=
  ⟨hw', ho, hr, hm, fun _ hc => h.current hw ha hc⟩

theorem Shift.of_data (ho : w'.objects = w.objects) (hc : w'.cells = w.cells)
    (hr : w'.registries = w.registries)
    (hv : ∀ r, r.index < w.watchers.size → w'.watchers.get r = w.watchers.get r)
    (hd : ∀ m, m.index < w.models.size → (w'.models.get m).data = (w.models.get m).data)
    (hm : ∀ m, w'.modelAlive m → w.modelAlive m ∨ w.models.size ≤ m.index) : w.Shift [] w' := by
  have hs : w'.slot? = w.slot? := by
    funext o key
    rw [slot?, slot?, ho]
  have hq : w'.registry = w.registry := by
    funext source
    cases source <;> simp only [registry, ho, hc, hr]
  exact
    { slot := fun o key slot h => by rwa [hs]
      cell := fun c _ => .inl (by rw [hc])
      missing := fun o key _ h => .inl (by rwa [hs])
      order := fun source s h _ => .inl (by rwa [hq])
      model := fun r h => by rw [hv r h]
      path := fun r h => by rw [hv r h]
      value := fun r h => .inl (by rw [hv r h])
      root := hd
      modelAlive := hm }

theorem alive_of {r : Ref .watcher} (h : w'.alive (.watcher r))
    (hu : .watcher r ∈ w'.subscribersInUse → .watcher r ∈ w.subscribersInUse)
    (hn : w'.names.watchers.holds r → w.names.watchers.holds r)
    (hm : (w'.watchers.get r).model = (w.watchers.get r).model)
    (ha : w'.modelAlive (w.watchers.get r).model → w.modelAlive (w.watchers.get r).model)
    (ho : r ∈ (w'.models.get (w.watchers.get r).model).watchers →
      r ∈ (w.models.get (w.watchers.get r).model).watchers) : w.alive (.watcher r) := by
  rw [alive_iff] at h ⊢
  rw [hm] at h
  exact h.imp hu (Or.imp hn (And.imp ha ho))

structure Relisted (w w' : World) : Prop where
  sight : w'.sight = w.sight
  objects : w'.objects.size = w.objects.size
  cells : w'.cells.size = w.cells.size
  registries : w'.registries.size = w.registries.size
  watchers : w'.watchers = w.watchers
  reactions : w'.reactions = w.reactions
  models : w'.models = w.models
  names : w'.names = w.names
  modelsInUse : w'.modelsInUse = w.modelsInUse
  subscribersInUse : w'.subscribersInUse = w.subscribersInUse
  sound : (∀ source, (w.registry source).Sound) → ∀ source, (w'.registry source).Sound

namespace Relisted

theorem refl (w : World) : w.Relisted w := ⟨rfl, rfl, rfl, rfl, rfl, rfl, rfl, rfl, rfl, rfl, id⟩

theorem trans (h : w.Relisted w') (h' : w'.Relisted w'') : w.Relisted w'' :=
  ⟨h'.sight.trans h.sight, h'.objects.trans h.objects, h'.cells.trans h.cells,
    h'.registries.trans h.registries, h'.watchers.trans h.watchers,
    h'.reactions.trans h.reactions, h'.models.trans h.models, h'.names.trans h.names,
    h'.modelsInUse.trans h.modelsInUse, h'.subscribersInUse.trans h.subscribersInUse,
    fun hs => h'.sound (h.sound hs)⟩

theorem slot? (h : w.Relisted w') : w'.slot? = w.slot? := congrArg Sight.slot? h.sight

theorem value (h : w.Relisted w') (c : Ref .cell) :
    (w'.cells.get c).value = (w.cells.get c).value :=
  congrFun (congrArg Sight.value h.sight) c

theorem alive (h : w.Relisted w') : w'.alive = w.alive := by
  funext s
  simp only [World.alive, World.modelAlive, h.watchers, h.models, h.names, h.modelsInUse,
    h.subscribersInUse]

theorem within (h : w.Relisted w') {source : Source} (hs : source.Within w) :
    source.Within w' := by
  cases source with
  | cell c => exact Nat.lt_of_lt_of_eq hs h.cells.symm
  | waiting o key => exact Nat.lt_of_lt_of_eq hs h.objects.symm
  | registry r => exact Nat.lt_of_lt_of_eq hs h.registries.symm

theorem valid (h : w.Relisted w') (hw : w.Valid) : w'.Valid where
  cell := by simpa only [h.slot?, h.cells] using hw.cell
  computed := by simpa only [h.slot?, h.models] using hw.computed
  value c := by simpa only [h.value, h.objects] using hw.value c
  root := by simpa only [h.models, h.objects] using hw.root
  methods := by simpa only [h.models] using hw.methods
  owned := by simpa only [h.models, h.watchers] using hw.owned
  model := by simpa only [h.watchers, h.models] using hw.model
  seen := by simpa only [h.watchers, h.objects] using hw.seen
  callback := by simpa only [h.watchers] using hw.callback
  reaction := by simpa only [h.reactions] using hw.reaction
  namedModel := by simpa only [h.names, h.models] using hw.namedModel
  usedModel := by simpa only [h.modelsInUse, h.models] using hw.usedModel
  namedWatcher := by simpa only [h.names, h.watchers] using hw.namedWatcher
  usedWatcher := by simpa only [h.subscribersInUse, h.watchers] using hw.usedWatcher
  saved := by simpa only [h.names, h.objects] using hw.saved
  sound := h.sound hw.sound

theorem shift (h : w.Relisted w') (ho : ∀ source, ∀ s ∈ (w.registry source).order, w.alive s →
    s ∈ (w'.registry source).order ∨ s ∈ L) : w.Shift L w' where
  slot := by simp only [h.slot?, imp_self, implies_true]
  cell c _ := .inl (h.value c)
  missing o key _ hn := .inl (by rwa [h.slot?])
  order source s hs ha := by
    rw [h.alive] at ha
    exact ho source s hs ha
  model r _ := by rw [h.watchers]
  path r _ := by rw [h.watchers]
  value r _ := .inl (by rw [h.watchers])
  root m _ := by rw [h.models]
  modelAlive m hm := by
    left
    rwa [World.modelAlive, h.names, h.modelsInUse] at hm

theorem passes (h : w.Relisted w') (hw : w.Valid) (ho : ∀ source, ∀ s ∈ (w.registry source).order,
    w.alive s → s ∈ (w'.registry source).order ∨ s ∈ L) : w.Passes [] L w' := by
  refine (h.shift ho).passes hw (h.valid hw) (Nat.le_of_eq h.objects.symm)
    (Nat.le_of_eq (congrArg Store.size h.watchers.symm))
    (Nat.le_of_eq (congrArg Store.size h.models.symm)) fun r hr => ?_
  rw [h.alive] at hr
  exact .inl hr

theorem setRegistry {source : Source} {registry : Registry}
    (h : (w.registry source).Sound → registry.Sound) :
    w.Relisted (w.setRegistry source registry) := by
  have hs (hs : ∀ source, (w.registry source).Sound) (source' : Source) :
      ((w.setRegistry source registry).registry source').Sound := by
    obtain e | ⟨rfl, -, e⟩ := registry_setRegistry_cases (w := w) source source' registry
    · rw [e]
      exact hs source'
    · rw [e]
      exact h (hs source)
  cases source
  all_goals
    refine ⟨sight_setRegistry .., ?_, ?_, ?_, rfl, rfl, rfl, rfl, rfl, rfl, hs⟩
    iterate 3 first | rfl | exact Store.size_modify ..

end Relisted

structure Noted (w w' : World) : Prop extends Relisted w w' where
  order : ∀ source, ∀ s ∈ (w.registry source).order, s ∈ (w'.registry source).order

namespace Noted

theorem refl (w : World) : w.Noted w := ⟨.refl w, fun _ _ h => h⟩

theorem trans (h : w.Noted w') (h' : w'.Noted w'') : w.Noted w'' :=
  ⟨h.toRelisted.trans h'.toRelisted, fun source s hs => h'.order source s (h.order source s hs)⟩

theorem onward (h : w.Noted w') (hw : w.Valid) : w.Onward w' :=
  ⟨h.passes hw fun source s hs _ => .inl (h.order source s hs), h.modelsInUse⟩

theorem view (w : World) (v : View) : w.Noted { w with view := v } :=
  ⟨{ Relisted.refl w with sight := rfl, sound := id }, fun _ _ h => h⟩

theorem knownNodes (w : World) (ns : Std.ExtTreeSet Nat) : w.Noted { w with knownNodes := ns } :=
  ⟨{ Relisted.refl w with sight := rfl, sound := id }, fun _ _ h => h⟩

theorem trace (w : World) (es : Array Happening) : w.Noted { w with trace := es } :=
  ⟨{ Relisted.refl w with sight := rfl, sound := id }, fun _ _ h => h⟩

theorem setRegistry {source : Source} {registry : Registry} {s : Subscriber}
    (h : (w.registry source).add? s = some registry) : w.Noted (w.setRegistry source registry) := by
  refine ⟨.setRegistry fun hs => hs.add? h, fun source' t ht => ?_⟩
  obtain e | ⟨rfl, -, e⟩ := registry_setRegistry_cases (w := w) source source' registry
  · rwa [e]
  · rw [e, Registry.order_add? h]
    exact List.mem_append_left _ ht

theorem leave (m : Mark) (p : Evaluation × World) : p.2.Noted (m.leave p).2 := by
  obtain ⟨e, w⟩ := p
  cases m with
  | computed name => exact trace w _
  | read source =>
    rw [Mark.leave]
    split
    · exact refl w
    · split
      · exact refl w
      · exact setRegistry ‹_›

theorem leaveAll (ms : List Mark) (p : Evaluation × World) : p.2.Noted (Mark.leaveAll ms p).2 := by
  induction ms generalizing p with
  | nil => exact refl p.2
  | cons m ms ih => exact (leave m p).trans (ih (m.leave p))

end Noted

end ViewBinding.World

namespace ViewBinding.Mark

theorem subscriber_leave (m : Mark) (p : Evaluation × World) :
    (m.leave p).1.subscriber = p.1.subscriber := by
  obtain ⟨e, w⟩ := p
  cases m with
  | computed name => rfl
  | read source =>
    rw [leave]
    split
    · rfl
    · split <;> rfl

theorem mem_order_leave {source : Source} {p : Evaluation × World} {s : Subscriber}
    (hp : ∀ source, (p.2.registry source).Sound) (he : p.1.subscriber = some s)
    (hs : source.Within p.2) : s ∈ (((Mark.read source).leave p).2.registry source).order := by
  obtain ⟨⟨s', n⟩, w⟩ := p
  obtain rfl : s' = some s := he
  simp only [leave]
  cases h : (w.registry source).add? s with
  | none => exact ((hp source).members s).2 ((Registry.add?_eq_none_iff ..).1 h)
  | some registry =>
    simp only [World.registry_setRegistry_self hs, Registry.order_add? h]
    exact List.mem_append_right _ (List.mem_singleton_self s)

theorem mem_order_leaveAll {ms : List Mark} {source : Source} {p : Evaluation × World}
    {s : Subscriber} (hp : ∀ source, (p.2.registry source).Sound) (he : p.1.subscriber = some s)
    (hs : source.Within p.2) (hm : .read source ∈ ms) :
    s ∈ ((leaveAll ms p).2.registry source).order := by
  induction ms generalizing p with
  | nil => cases hm
  | cons m ms ih =>
    have hn := World.Noted.leave m p
    obtain rfl | hm := List.mem_cons.1 hm
    · exact (World.Noted.leaveAll ms _).order source s (mem_order_leave hp he hs)
    · exact ih (hn.sound hp) ((subscriber_leave m p).trans he) (hn.within hs) hm

end ViewBinding.Mark
