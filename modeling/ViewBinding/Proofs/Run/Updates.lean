import ViewBinding.Proofs.Run.Reads

/-! Notifications, writes and updates: everyone who is due for an update is settled after it. -/

namespace ViewBinding

variable {w w' : World} {n : Nat}

def Subscriber.Made (w : World) : Subscriber → Prop
  | .watcher r => r.index < w.watchers.size
  | .reaction _ => True

theorem Subscriber.Made.passes {S T : List Subscriber} {s : Subscriber} (h : s.Made w)
    (hp : w.Passes S T w') : s.Made w' := by
  cases s with
  | watcher r => exact Nat.lt_of_lt_of_le h hp.watchers
  | reaction r => trivial

theorem World.Valid.made_of_alive (hw : w.Valid) {s : Subscriber} (hs : w.alive s) : s.Made w := by
  cases s with
  | watcher r => exact hw.lt_of_alive hs
  | reaction r => trivial

def Settling (update : Subscriber → Action Unit) : Prop :=
  ∀ s w, w.Valid → s.Made w → ∀ r w', update s w = some (r, w') →
    w.Passes [s] [] w' ∧ w'.modelsInUse = w.modelsInUse

/-- The world after the turn of a subscriber: its failure is reported, and it is let go. -/
def World.afterTurn (s : Subscriber) : Except Fault Unit × World → World
  | (.ok (), w) => w.releaseSubscriber s
  | (.error f, w) =>
    (w.emit (.updateFailed f)).releaseSubscriber s

def failedWith (r : Except Fault Unit) (k : Nat) : Nat :=
  match r with
  | .ok () => k
  | .error _ => k + 1

section

variable {update : Subscriber → Action Unit}

theorem updateEach_nil (w : World) : updateEach update [] w = some (.ok 0, w) := rfl

theorem updateEach_cons (s : Subscriber) (rest : List Subscriber) (w : World) :
    updateEach update (s :: rest) w = (update s w).bind fun p =>
      (updateEach update rest (World.afterTurn s p)).map fun q =>
        (q.1.map (failedWith p.1), q.2) := by
  rw [updateEach, Action.bind_apply, Action.faultOf_apply]
  cases update s w with
  | none => rfl
  | some p =>
    obtain ⟨r, w₁⟩ := p
    cases r with
    | ok u =>
      show Option.bind (updateEach update rest (w₁.releaseSubscriber s)) _ = _
      rw [Option.bind_some, World.afterTurn]
      cases updateEach update rest (w₁.releaseSubscriber s) with
      | none => rfl
      | some q => obtain ⟨⟨⟩, _⟩ := q <;> rfl
    | error f =>
      show Option.bind (updateEach update rest (World.afterTurn s (.error f, w₁))) _ = _
      rw [Option.bind_some]
      cases updateEach update rest (World.afterTurn s (.error f, w₁)) with
      | none => rfl
      | some q => obtain ⟨⟨⟩, _⟩ := q <;> rfl

theorem onward_afterTurn (s : Subscriber) (r : Except Fault Unit) (hw : w.Valid) :
    w.Onward (World.afterTurn s (r, w)) := by
  cases r with
  | ok u => exact World.onward_releaseSubscriber hw s
  | error f =>
    have ho := (World.Noted.trace w (w.emit (.updateFailed f)).trace).onward hw
    exact ho.trans (World.onward_releaseSubscriber ho.valid s)

theorem updateEach_cons_eq_some {s : Subscriber} {rest : List Subscriber} {k : Except Fault Nat}
    (h : updateEach update (s :: rest) w = some (k, w')) : ∃ p k', update s w = some p ∧
      updateEach update rest (World.afterTurn s p) = some (k', w') ∧
      k = k'.map (failedWith p.1) := by
  rw [updateEach_cons, Option.bind_eq_some_iff] at h
  obtain ⟨p, hp, h⟩ := h
  obtain ⟨⟨k', w₁⟩, hk, he⟩ := Option.map_eq_some_iff.1 h
  cases he
  exact ⟨p, k', hp, hk, rfl⟩

/-- A turn settles the subscriber whose turn it is. -/
theorem Settling.turn (hu : Settling update) (hw : w.Valid) {s : Subscriber} (hs : s.Made w)
    {p : Except Fault Unit × World} (h : update s w = some p) :
    w.Passes [s] [] (World.afterTurn s p) ∧
      (World.afterTurn s p).modelsInUse = w.modelsInUse := by
  obtain ⟨hp, hm⟩ := hu s w hw hs p.1 p.2 h
  have ho := onward_afterTurn s p.1 hp.valid
  exact ⟨hp.trans ho.toPasses, ho.used.trans hm⟩

theorem updateEach_passes (hu : Settling update) {ss : List Subscriber} (hw : w.Valid)
    (hs : ∀ s ∈ ss, s.Made w) {r : Except Fault Nat} (h : updateEach update ss w = some (r, w')) :
    w.Passes ss [] w' ∧ w'.modelsInUse = w.modelsInUse := by
  induction ss generalizing w r with
  | nil =>
    rw [updateEach_nil] at h
    cases h
    exact ⟨(World.Onward.refl hw).toPasses, rfl⟩
  | cons s rest ih =>
    obtain ⟨p, k, hp, hk, -⟩ := updateEach_cons_eq_some h
    obtain ⟨hpass, hm⟩ := hu.turn hw (hs s List.mem_cons_self) hp
    obtain ⟨hrest, hm'⟩ := ih hpass.valid
      (fun t ht => (hs t (List.mem_cons_of_mem s ht)).passes hpass) hk
    exact ⟨(hpass.frame rest).trans hrest, hm'.trans hm⟩

theorem Registry.notify_passes (hu : Settling update) (hw : w.Valid) (registry : Registry)
    {r : Except Fault Nat} (h : registry.notify update w = some (r, w')) :
    w.Passes (registry.live w.alive) [] w' ∧ w'.modelsInUse = w.modelsInUse := by
  have h' : updateEach update (registry.live w.alive)
    (w.useSubscribers (registry.live w.alive)) = some (r, w') := h
  have ha (s : Subscriber) (hs : s ∈ registry.live w.alive) : w.alive s := (List.mem_filter.1 hs).2
  have ho := World.onward_useSubscribers hw _ ha
  obtain ⟨hp, hm⟩ := updateEach_passes hu ho.valid
    (fun s hs => (hw.made_of_alive (ha s hs)).passes ho.toPasses) h'
  exact ⟨(ho.toPasses.frame _).trans hp, hm.trans ho.used⟩

theorem Source.notify_eq (source : Source) (w : World) : source.notify update w =
    ((w.registry source).prune w.alive).notify update
      (w.setRegistry source ((w.registry source).prune w.alive)) := by
  rw [Source.notify, Action.get_bind, Action.modify_bind]

theorem Source.notify_passes (hu : Settling update) (hw : w.Valid) (source : Source)
    {r : Except Fault Nat} (h : source.notify update w = some (r, w')) :
    w.Passes ((w.registry source).live w.alive) [] w' ∧ w'.modelsInUse = w.modelsInUse := by
  have ho := World.onward_prune hw source
  rw [Source.notify_eq] at h
  obtain ⟨hp, hm⟩ := Registry.notify_passes hu ho.valid _ h
  have ha : (w.setRegistry source ((w.registry source).prune w.alive)).alive = w.alive :=
    World.Relisted.alive (.setRegistry fun hs => hs.prune w.alive)
  rw [ha, Registry.live_prune] at hp
  exact ⟨(ho.toPasses.frame _).trans hp, hm.trans ho.used⟩

def World.leaveBehind (key : Option String) (failed : Nat) (w : World) : World :=
  if 0 < failed then w.emit (.leftBehind failed key) else w

theorem World.onward_leaveBehind (hw : w.Valid) (key : Option String) (failed : Nat) :
    w.Onward (w.leaveBehind key failed) := by
  rw [leaveBehind]
  split
  · exact (Noted.trace w _).onward hw
  · exact .refl hw

theorem Cell.write_apply (c : Ref .cell) (v : Value) (w : World) :
    Cell.write update c v w =
      if (w.cells.get c).value.same v then some (.ok false, w)
      else (Source.notify update (.cell c) (w.store c v)).map fun p =>
        (p.1.map fun _ => true, (p.1.toOption.elim p.2 fun k => p.2.leaveBehind none k)) := by
  rw [Cell.write, Action.get_bind]
  split
  · rfl
  · rw [Action.modify_bind, Action.bind_apply, ← World.store]
    cases Source.notify update (.cell c) (w.store c v) with
    | none => rfl
    | some p =>
      obtain ⟨⟨⟩ | k, w'⟩ := p
      · rfl
      · simp only [World.leaveBehind, Except.toOption, Option.elim, Option.map_some]
        split <;> rfl

theorem Cell.write_goes (hu : Settling update) (hw : w.Valid) (c : Ref .cell) {v : Value}
    (hv : v.Within w.objects.size) : (Cell.write update c v).Goes w fun _ _ => True := by
  intro r w' h
  refine ⟨?_, fun _ _ => trivial⟩
  rw [Cell.write_apply] at h
  split at h
  · cases h
    exact .refl hw
  · obtain ⟨⟨k?, w₁⟩, hn, he⟩ := Option.map_eq_some_iff.1 h
    cases he
    have hp := World.passes_store hw hv (c := c) (L := (w.registry (.cell c)).live w.alive)
      fun s hs ha => List.mem_filter.2 ⟨hs, ha⟩
    obtain ⟨hq, hm⟩ := Source.notify_passes hu hp.valid (.cell c) hn
    rw [World.registry_store] at hq
    have ho : w.Onward w₁ := ⟨hp.trans hq, hm⟩
    cases k? with
    | error g => exact ho
    | ok k => exact ho.trans (World.onward_leaveBehind ho.valid none k)

theorem Object.insert_apply (o : Ref .object) (key : String) (v : Value) (w : World) :
    Object.insert update o key v w = ((w.registry (.waiting o key)).notify update
      ((w.insertCell o key v).takeWaiting o key).2).map fun p =>
        (p.1.map fun _ => (), (p.1.toOption.elim p.2 fun k => p.2.leaveBehind (some key) k)) := by
  have hr : (((w.insertCell o key v).objects.get o).waiting[key]?).getD {} =
      w.registry (.waiting o key) := w.registry_insertCell o key v (.waiting o key)
  rw [Object.insert, Action.modify_bind, Action.modifyGet_bind, ← hr]
  simp only [World.takeWaiting]
  cases ((w.insertCell o key v).objects.get o).waiting[key]? with
  | none => rfl
  | some registry =>
    simp only [Option.getD_some]
    rw [Action.bind_apply]
    cases registry.notify update _ with
    | none => rfl
    | some p =>
      obtain ⟨⟨⟩ | k, w'⟩ := p
      · rfl
      · simp only [World.leaveBehind, Except.toOption, Option.elim, Option.map_some]
        split <;> rfl

theorem Object.insert_goes (hu : Settling update) (hw : w.Valid) {o : Ref .object} {key : String}
    {v : Value} (hn : w.slot? o key = none) (hv : v.Within w.objects.size) :
    (Object.insert update o key v).Goes w fun _ _ => True := by
  intro r w' h
  refine ⟨?_, fun _ _ => trivial⟩
  rw [Object.insert_apply] at h
  obtain ⟨⟨k?, w₁⟩, h, he⟩ := Option.map_eq_some_iff.1 h
  cases he
  have hp := World.passes_insertCell hw hn hv (L := (w.registry (.waiting o key)).live w.alive)
    fun s hs ha => List.mem_filter.2 ⟨hs, ha⟩
  have hl := World.registry_insertCell w o key v (.waiting o key)
  have hp' := World.passes_takeWaiting hp.valid o key
    (L := (w.registry (.waiting o key)).live w.alive) fun s hs ha =>
      List.mem_filter.2 ⟨by rwa [hl] at hs, ha⟩
  obtain ⟨hq, hm⟩ := Registry.notify_passes hu hp'.valid _ ‹_›
  have ho : w.Onward w₁ := ⟨(hp.trans hp'.again).trans hq, hm⟩
  cases k? with
  | error g => exact ho
  | ok k => exact ho.trans (World.onward_leaveBehind ho.valid _ k)

section Slots

variable {o : Ref .object} {key : String}

theorem Object.write_cell {c : Ref .cell} (h : w.slot? o key = some (.cell c)) (v : Value) :
    Object.write update o key v w = Cell.write update c v w := by
  rw [Object.write, Action.get_bind, h]

theorem Object.write_computed {p : Computed} (h : w.slot? o key = some (.computed p)) (v : Value) :
    Object.write update o key v w = some (.error (.readOnly key), w) := by
  rw [Object.write, Action.get_bind, h]
  rfl

theorem Object.write_missing (h : w.slot? o key = none) (v : Value) :
    Object.write update o key v w =
      (Object.insert update o key v w).map fun p => (p.1.map fun _ => true, p.2) := by
  rw [Object.write, Action.get_bind, h]
  dsimp only
  rw [Action.bind_apply]
  cases Object.insert update o key v w with
  | none => rfl
  | some p => obtain ⟨⟨⟩, _⟩ := p <;> rfl

end Slots

theorem Object.write_goes (hu : Settling update) (hw : w.Valid) (o : Ref .object) (key : String)
    {v : Value} (hv : v.Within w.objects.size) :
    (Object.write update o key v).Goes w fun _ _ => True := by
  refine .get ?_
  split
  · exact Cell.write_goes hu hw _ hv
  · exact .throw hw _
  · exact .bind (Object.insert_goes hu hw ‹_› hv) fun _ w' ho _ => .pure ho.valid trivial

theorem Path.assign_goes (hu : Settling update) (hw : w.Valid) (p : Path) {root : Ref .object}
    (hr : root.index < w.objects.size) {v : Value} (hv : v.Within w.objects.size) :
    (p.assign (Engine.ofFuel n).compute update root v).Goes w fun _ _ => True := by
  refine .bind (Reading.Goes.once (Path.follow_goes hw p p.parents fun o ho => ?_))
    fun parent w' ho _ => .bind (Q := fun _ _ => True) (.ofExcept ho.valid fun _ _ => trivial)
      fun o w'' ho' _ => Object.write_goes hu ho'.valid o p.last
        (hv.mono (ho.trans ho').objects)
  obtain rfl := Option.some.inj ho
  exact hr

section Paths

variable {compute : Computed → Reading Value} {m : Ref .model} {path : String} {v : Value}

theorem ViewModel.write_apply {p : Path} (hp : Path.parse path = .ok p) :
    ViewModel.write compute update m path v w =
      p.assign compute update (w.models.get m).data v w := by
  rw [ViewModel.write, hp]
  rfl

theorem ViewModel.write_misspelt {g : Fault} (hp : Path.parse path = .error g) :
    ViewModel.write compute update m path v w = some (.error g, w) := by
  rw [ViewModel.write, hp]
  rfl

end Paths

end

end ViewBinding
