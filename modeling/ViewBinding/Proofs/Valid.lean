import ViewBinding.Proofs.Look.Later
import ViewBinding.Proofs.Plain
import ViewBinding.Proofs.Sources

/-! What holds of every world that plain scripts lead to: nothing names what was never made,
registries are sound, and the scripts that are kept are plain. -/

namespace ViewBinding

/-- A value that is no object beyond the first `n`. -/
def Value.Within (n : Nat) (v : Value) : Prop := ∀ o, v.object? = some o → o.index < n

theorem Value.Within.mono {n n' : Nat} {v : Value} (h : v.Within n) (hn : n ≤ n') : v.Within n' :=
  fun o ho => Nat.lt_of_lt_of_le (h o ho) hn

/-- The data names only what was made, and its computed properties depend on nothing but what they
read. -/
structure World.Valid (w : World) : Prop where
  cell : ∀ o key c, w.slot? o key = some (.cell c) → c.index < w.cells.size
  computed : ∀ o key p, w.slot? o key = some (.computed p) →
    p.model.index < w.models.size ∧ p.body.Tracked
  value : ∀ c, (w.cells.get c).value.Within w.objects.size
  root : ∀ m, m.index < w.models.size → (w.models.get m).data.index < w.objects.size
  methods : ∀ m (name : String) steps, (w.models.get m).methods[name]? = some steps →
    Step.AllPlain steps
  owned : ∀ m, ∀ r ∈ (w.models.get m).watchers, r.index < w.watchers.size
  model : ∀ r, r.index < w.watchers.size → (w.watchers.get r).model.index < w.models.size
  seen : ∀ r, (w.watchers.get r).value.Within w.objects.size
  callback : ∀ r id steps, (w.watchers.get r).callback = .run id steps → Step.AllPlain steps
  reaction : ∀ r, Step.AllPlain (w.reactions.get r).steps
  namedModel : ∀ m, w.names.models.holds m → m.index < w.models.size
  usedModel : ∀ m ∈ w.modelsInUse, m.index < w.models.size
  namedWatcher : ∀ r, w.names.watchers.holds r → r.index < w.watchers.size
  usedWatcher : ∀ r, .watcher r ∈ w.subscribersInUse → r.index < w.watchers.size
  saved : ∀ (name : String) v, w.names.values[name]? = some v → v.Within w.objects.size
  sound : ∀ source, (w.registry source).Sound

namespace World

variable {w : World}

theorem modelAlive_iff (m : Ref .model) :
    w.modelAlive m ↔ w.names.models.holds m ∨ m ∈ w.modelsInUse := by
  simp [modelAlive]

theorem alive_of_mem_inUse {s : Subscriber} (h : s ∈ w.subscribersInUse) : w.alive s := by
  simp [alive, h]

theorem alive_iff (r : Ref .watcher) :
    w.alive (.watcher r) ↔ .watcher r ∈ w.subscribersInUse ∨ w.names.watchers.holds r ∨
      w.modelAlive (w.watchers.get r).model ∧
        r ∈ (w.models.get (w.watchers.get r).model).watchers := by
  simp [alive]

theorem alive_of_named {r : Ref .watcher} {name : String}
    (h : w.names.watchers.held[name]? = some r) : w.alive (.watcher r) :=
  (alive_iff r).2 (.inr (.inl ((Holder.holds_iff _ r).2 ⟨name, h⟩)))

namespace Valid

theorem lt_of_modelAlive (hw : w.Valid) {m : Ref .model} (h : w.modelAlive m) :
    m.index < w.models.size :=
  ((modelAlive_iff m).1 h).elim (hw.namedModel m) (hw.usedModel m)

theorem lt_of_alive (hw : w.Valid) {r : Ref .watcher} (h : w.alive (.watcher r)) :
    r.index < w.watchers.size := by
  obtain h | h | h := (alive_iff r).1 h
  · exact hw.usedWatcher r h
  · exact hw.namedWatcher r h
  · exact hw.owned _ r h.2

theorem tracked (hw : w.Valid) : w.sight.Tracked := by
  rintro p ⟨o, key, h⟩
  exact (hw.computed o key p h).2

end Valid

end World

end ViewBinding
