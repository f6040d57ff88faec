import ViewBinding.Proofs.Inert
import ViewBinding.Proofs.Moment
import ViewBinding.Proofs.Mount.Mounting
import ViewBinding.Proofs.Relics.Bindings
import ViewBinding.Proofs.Relics.Readings

/-! What is left behind by a mount that fails. Its view-model is gone, but the computed properties
that were defined for it stay where they are, and whoever comes upon one of them fails. Apart from
them all data is as it was, and reads and writes end as if nobody had tried to mount. -/

namespace ViewBinding

variable {w w' v : World} {data : Ref .object} {computed : List (String × Expr)}

section Reserve

variable {k : Kind} {α : Type} [Inhabited α]

/-- The store with so many identities given out, for nothing where they are new. -/
def Store.reserve (s : Store k α) (n : Nat) : Store k α :=
  ⟨s.entries ++ Array.replicate (n - s.size) default⟩

theorem Store.size_reserve {s : Store k α} {n : Nat} (h : s.size ≤ n) : (s.reserve n).size = n := by
  simp only [reserve, size, Array.size_append, Array.size_replicate] at h ⊢
  omega

theorem Store.get_reserve (s : Store k α) (n : Nat) (r : Ref k) :
    (s.reserve n).get r = s.get r := by
  simp only [get, get?, reserve, Array.getElem?_append, Array.getElem?_replicate]
  split
  · rfl
  · rename_i h
    rw [Array.getElem?_eq_none (Nat.le_of_not_lt h)]
    split <;> rfl

end Reserve

namespace World

/-- The world as it would be if nothing had been made in it, except that the identities that were
given out in another world are used up. -/
def reserve (w w' : World) : World :=
  { w with
    objects := w.objects.reserve w'.objects.size
    cells := w.cells.reserve w'.cells.size
    nextArray := w'.nextArray
    watchers := w.watchers.reserve w'.watchers.size
    models := w.models.reserve w'.models.size }

theorem slot?_reserve (w w' : World) (o : Ref .object) (key : String) :
    (w.reserve w').slot? o key = w.slot? o key := by
  rw [slot?, reserve, Store.get_reserve, slot?]

theorem registry_reserve (w w' : World) (source : Source) :
    (w.reserve w').registry source = w.registry source := by
  cases source <;> simp only [registry, reserve, Store.get_reserve]

theorem alive_reserve (w w' : World) : (w.reserve w').alive = w.alive := by
  funext s
  cases s with
  | watcher r =>
    have hwatcher : (w.reserve w').watchers.get r = w.watchers.get r := Store.get_reserve ..
    have hmodel (m : Ref .model) : (w.reserve w').models.get m = w.models.get m :=
      Store.get_reserve ..
    simp only [alive, hwatcher, hmodel]
    rfl
  | reaction r => rfl

/-- Whether everything that the data leads to was made, and everything that is in use, is named or
is kept. -/
structure Grounded (w : World) : Prop extends w.Closed where
  usedModel : ∀ m ∈ w.modelsInUse, m.index < w.models.size
  usedWatcher : ∀ r, .watcher r ∈ w.subscribersInUse → r.index < w.watchers.size
  namedWatcher : ∀ r, w.names.watchers.holds r → r.index < w.watchers.size
  kept : ∀ m, ∀ r ∈ (w.models.get m).watchers, r.index < w.watchers.size

theorem Valid.grounded (hw : w.Valid) : w.Grounded where
  toClosed := hw.closed
  usedModel := hw.usedModel
  usedWatcher := hw.usedWatcher
  namedWatcher := hw.namedWatcher
  kept := hw.owned

theorem Grounded.lt_of_modelAlive (hw : w.Grounded) {m : Ref .model} (h : w.modelAlive m) :
    m.index < w.models.size :=
  ((modelAlive_iff m).1 h).elim (hw.named m) (hw.usedModel m)

theorem Grounded.dead (hw : w.Grounded) {s : Subscriber} (hs : s.Between w w') :
    w.alive s = false := by
  cases s with
  | reaction r => exact hs.elim
  | watcher r =>
    refine Bool.eq_false_iff.2 fun halive => Nat.not_lt.2 hs.1 ?_
    obtain hr | hr | hr := (alive_iff r).1 halive
    · exact hw.usedWatcher r hr
    · exact hw.namedWatcher r hr
    · exact hw.kept _ r hr.2

/-- What a mount that fails leaves: everything as it was, but for the computed properties that were
defined on its own data, which belong to the view-model that is gone, and for watchers of that
view-model in registries, behind those who were there. -/
structure Relics (w : World) (data : Ref .object) (computed : List (String × Expr)) (w' : World) :
    Prop where
  objects : w.objects.size ≤ w'.objects.size
  cells : w.cells.size ≤ w'.cells.size
  registries : w'.registries.size = w.registries.size
  slot : ∀ o key, o.index < w.objects.size → (o = data → ∀ c ∈ computed, c.1 ≠ key) →
    w'.slot? o key = w.slot? o key
  relic : ∀ c ∈ computed, ∃ body, (c.1, body) ∈ computed ∧ w'.slot? data c.1 =
    some (.computed { name := c.1, body, model := w.models.fresh })
  gone : w'.Gone w.models.fresh
  value : ∀ c, c.index < w.cells.size → (w'.cells.get c).value = (w.cells.get c).value
  watcher : ∀ r, r.index < w.watchers.size → w'.watchers.get r = w.watchers.get r
  model : ∀ m, m.index < w.models.size → w'.models.get m = w.models.get m
  joined : ∀ source, ∃ more, (w'.registry source).order = (w.registry source).order ++ more ∧
    ∀ s ∈ more, s.Between w w'
  members : ∀ (source : Source) s, ¬s.Between w w' →
    (s ∈ (w'.registry source).members ↔ s ∈ (w.registry source).members)
  names : w'.names = w.names
  modelsInUse : w'.modelsInUse = w.modelsInUse
  subscribersInUse : w'.subscribersInUse = w.subscribersInUse

namespace Relics

variable (h : w.Relics data computed w')

include h

theorem modelAlive (m : Ref .model) : w'.modelAlive m = w.modelAlive m := by
  rw [World.modelAlive, h.names, h.modelsInUse]
  rfl

theorem alive (hw : w.Grounded) (s : Subscriber) : w'.alive s = w.alive s := by
  cases s with
  | reaction r =>
    rw [World.alive, h.names, h.subscribersInUse]
    rfl
  | watcher r =>
    rw [Bool.eq_iff_iff, alive_iff, alive_iff, h.names, h.subscribersInUse]
    refine or_congr_right (or_congr_right ?_)
    have hkept (m : Ref .model) (hm : w'.modelAlive m) :
        (w'.models.get m).watchers = (w.models.get m).watchers := by
      rw [h.model m (hw.lt_of_modelAlive (h.modelAlive m ▸ hm))]
    obtain hlt | hle := Nat.lt_or_ge r.index w.watchers.size
    · rw [h.watcher r hlt]
      refine (and_congr_right fun hm => ?_).trans (and_congr_left fun _ => ?_)
      · rw [hkept _ hm]
      · rw [h.modelAlive]
    -- No view-model that is alive keeps a watcher that was made since.
    · refine iff_of_false (fun hr => ?_) fun hr => Nat.not_lt.2 hle (hw.kept _ r hr.2)
      exact Nat.not_lt.2 hle (hw.kept _ r (hkept _ hr.1 ▸ hr.2))

theorem slot_or_relic (o : Ref .object) (key : String)
    (ho : ¬o.Between w.objects.size w'.objects.size) : w'.slot? o key = w.slot? o key ∨
      computed ≠ [] ∧ ∃ p, w'.slot? o key = some (.computed p) ∧ w.modelAlive p.model = false := by
  obtain hlt | hle := Nat.lt_or_ge o.index w.objects.size
  · by_cases hkey : o = data → ∀ c ∈ computed, c.1 ≠ key
    · exact .inl (h.slot o key hlt hkey)
    · simp only [Classical.not_imp, not_forall, not_not] at hkey
      obtain ⟨rfl, c, hc, rfl⟩ := hkey
      obtain ⟨body, -, hslot⟩ := h.relic c hc
      exact .inr ⟨List.ne_nil_of_mem hc, _, hslot,
        Bool.eq_false_iff.2 (h.modelAlive _ ▸ h.gone.dead)⟩
  · have hle' := Nat.le_of_not_lt fun hlt => ho ⟨hle, hlt⟩
    rw [slot?_of_size_le hle, slot?_of_size_le hle']
    exact .inl rfl

theorem asBefore (hw : w.Grounded) : w.Matches w' (computed ≠ []) w' (w.reserve w') where
  objects := by
    rw [reserve, Store.size_reserve h.objects]
    exact ⟨rfl, Nat.le_refl _⟩
  cells := by
    rw [reserve, Store.size_reserve h.cells]
    exact ⟨rfl, Nat.le_refl _⟩
  registries := h.registries
  nextArray := rfl
  names := ⟨h.names, rfl⟩
  modelsInUse := ⟨h.modelsInUse, rfl⟩
  root m hm := ⟨by rw [h.model m hm], by rw [reserve, Store.get_reserve]⟩
  slot o key ho := by
    rw [slot?_reserve]
    exact h.slot_or_relic o key ho
  value c hc := by
    rw [reserve, Store.get_reserve]
    obtain hlt | hle := Nat.lt_or_ge c.index w.cells.size
    · exact h.value c hlt
    · have hle' := Nat.le_of_not_lt fun hlt => hc ⟨hle, hlt⟩
      rw [w.cells.get_of_size_le hle, w'.cells.get_of_size_le hle']
  slotApart o key c _ hc := by
    rw [slot?_reserve] at hc
    exact Ref.not_between_of_lt (hw.cell o key c hc)
  valueApart c _ := by
    rw [reserve, Store.get_reserve]
    exact (hw.value c).apart
  members source s hs := by
    rw [registry_reserve]
    exact h.members source s hs
  order source := by
    obtain ⟨more, horder, hmore⟩ := h.joined source
    -- All who joined on the way were made by the mount.
    have hnone : more.filter (¬·.Between w w') = [] :=
      List.filter_eq_nil_iff.2 fun s hs => by simpa using hmore s hs
    rw [registry_reserve, horder, List.filter_append, hnone, List.append_nil]
  alive s := by
    rw [alive_reserve]
    exact ⟨h.alive hw s, hw.dead⟩

end Relics

/-- What a failed mount comes to for everybody else: it leaves nothing but relics, and what others
read and write afterwards ends as if nobody had tried to mount, or else comes upon a relic. -/
structure Aborted (w : World) (data : Ref .object) (computed : List (String × Expr)) (w' : World) :
    Prop extends w.Relics data computed w' where
  read : ∀ n (p : Path) root e r e' v, root.index < w.objects.size →
    (∀ s, e.subscriber = some s → ¬s.Between w w') →
    p.resolve (Engine.ofFuel n).compute root e w' = some ((r, e'), v) →
      (∃ u, p.resolve (Engine.ofFuel n).compute root e (w.reserve w') = some ((r, e'), u)) ∨
        computed ≠ [] ∧ r = .error .detached
  /-- No read that would end goes on for ever. -/
  ends : ∀ n (p : Path) root e, root.index < w.objects.size →
    (∀ s, e.subscriber = some s → ¬s.Between w w') →
    (p.resolve (Engine.ofFuel n).compute root e (w.reserve w')).isSome →
      (p.resolve (Engine.ofFuel (n + 1)).compute root e w').isSome
  write : ∀ n (p : Path) root update update' x r r' v u, root.index < w.objects.size →
    p.assign (Engine.ofFuel n).compute update root x w' = some (r, v) →
    p.assign (Engine.ofFuel n).compute update' root x (w.reserve w') = some (r', u) →
      r = r' ∨ computed ≠ [] ∧ (r = .error .detached ∨ r = .error (.readOnly p.last))
  /-- What is written goes to the same place, and to the same subscribers in the same order. -/
  find : ∀ n p root source v, root.index < w.objects.size →
    (Site.path p root).find (Engine.ofFuel n).compute w' = some (source, v) →
      ∃ u, (Site.path p root).find (Engine.ofFuel n).compute (w.reserve w') = some (source, u) ∧
        v.due source = u.due source ∧ ∀ x, v.changes source x = u.changes source x

theorem Relics.aborted (h : w.Relics data computed w') (hw : w.Grounded) :
    w.Aborted data computed w' := by
  have hmatches := h.asBefore hw
  have hclosed := hw.toClosed
  have hmade (m : Ref .model) (hm : w.modelAlive m) := hw.lt_of_modelAlive hm
  refine { h with
    read := fun n p root e r e' v hroot hs hread => ?_
    ends := fun n p root e hroot hs hsome => ?_
    write := fun _ _ _ _ _ _ _ _ _ _ hroot hv hu => hmatches.assign hclosed hmade hroot hv hu
    find := fun _ _ _ _ _ hroot hv => hmatches.find hclosed hmade hroot hv }
  · have hmeets := (hmatches.follow hclosed hmade n p p.segments hroot e hs).1
    rw [Path.resolve] at hread ⊢
    rw [hread] at hmeets
    generalize p.follow _ p.segments (.object root) e (w.reserve w') = y at hmeets ⊢
    cases hmeets with
    | late ha => cases ha
    | detached hc => exact .inr ⟨hc, rfl⟩
    | same => exact .inl ⟨_, rfl⟩
  · have hmeets := (hmatches.follow hclosed hmade n p p.segments hroot e hs).2
    obtain ⟨q, hq⟩ := Option.isSome_iff_exists.1 hsome
    rw [Path.resolve] at hq ⊢
    rw [hq] at hmeets
    generalize p.follow _ p.segments (.object root) e w' = y at hmeets ⊢
    cases hmeets with
    | short ha => cases ha
    | detached => rfl
    | same => rfl

section Define

variable {m : Ref .model} {o : Ref .object} {key : String}

theorem define_eq (data : Ref .object) (m : Ref .model) (computed : List (String × Expr))
    (w : World) : ∃ (objects : Store .object Object) (trace : Array Happening),
      w.define data m computed = { w with objects, trace } ∧
        objects.size = w.objects.size := by
  induction computed generalizing w with
  | nil => exact ⟨w.objects, w.trace, rfl, rfl⟩
  | cons c computed ih =>
    obtain ⟨objects, trace, he, hsize⟩ :=
      ih (w.setComputed data { name := c.1, body := c.2, model := m })
    exact ⟨objects, trace, he, hsize.trans (Store.size_modify ..)⟩

theorem registry_define (source : Source) :
    (w.define data m computed).registry source = w.registry source := by
  induction computed generalizing w with
  | nil => rfl
  | cons c computed ih => exact ih.trans (registry_setSlot ..)

theorem slot?_define_of_ne (h : o = data → ∀ c ∈ computed, c.1 ≠ key) :
    (w.define data m computed).slot? o key = w.slot? o key := by
  induction computed generalizing w with
  | nil => rfl
  | cons c computed ih =>
    refine (ih fun ho c' hc' => h ho c' (List.mem_cons_of_mem c hc')).trans ?_
    obtain he | ⟨rfl, hk, -⟩ := slot?_setSlot_cases w data o c.1 key
      (.computed { name := c.1, body := c.2, model := m })
    · exact he
    · exact absurd hk (h rfl c List.mem_cons_self)

theorem slot?_define (hdata : data.index < w.objects.size) {x : Expr} (hx : (key, x) ∈ computed) :
    ∃ body, (key, body) ∈ computed ∧ (w.define data m computed).slot? data key =
      some (.computed { name := key, body, model := m }) := by
  induction computed generalizing w x with
  | nil => cases hx
  | cons c computed ih =>
    let w₁ := w.setComputed data { name := c.1, body := c.2, model := m }
    -- Whatever is defined here, a later definition of the name replaces it.
    by_cases hlater : ∃ y, (key, y) ∈ computed
    · obtain ⟨y, hy⟩ := hlater
      have hdata' : data.index < w₁.objects.size :=
        Nat.lt_of_lt_of_eq hdata (Store.size_modify ..).symm
      obtain ⟨body, hbody, hslot⟩ := ih hdata' hy
      exact ⟨body, List.mem_cons_of_mem c hbody, hslot⟩
    · obtain rfl | hx := List.mem_cons.1 hx
      · have hslot : (w₁.define data m computed).slot? data key = w₁.slot? data key :=
          slot?_define_of_ne fun _ c hc he => hlater ⟨c.2, he ▸ hc⟩
        have hself : w₁.slot? data key = some (.computed { name := key, body := x, model := m }) :=
          slot?_setSlot_self hdata ..
        exact ⟨x, List.mem_cons_self, hslot.trans hself⟩
      · exact absurd ⟨x, hx⟩ hlater

end Define

def equipped (w : World) (data : Ref .object) (setup : Setup) : World :=
  World.useModel
    { w.define data w.models.fresh setup.computed with
      models := w.models.add { data, methods := setup.methodTable } }
    w.models.fresh

section Equipped

variable {setup : Setup}

theorem equipped_eq (w : World) (data : Ref .object) (setup : Setup) :
    ∃ (objects : Store .object Object) (trace : Array Happening),
      w.equipped data setup = World.useModel { w with
        objects, trace, models := w.models.add { data, methods := setup.methodTable } }
          w.models.fresh ∧
      objects.size = w.objects.size := by
  obtain ⟨objects, trace, he, hsize⟩ := w.define_eq data w.models.fresh setup.computed
  exact ⟨objects, trace, by rw [equipped, he], hsize⟩

theorem registry_equipped (source : Source) :
    (w.equipped data setup).registry source = w.registry source := by
  have hdefine : (w.define data w.models.fresh setup.computed).registry source =
      w.registry source := registry_define source
  rw [← hdefine]
  cases source <;> rfl

theorem Spared.relics (h : (w.equipped data setup).Spared w.models.fresh v)
    (hdata : data.index < w.objects.size) (hw : w.Grounded) :
    w.Relics data setup.computed (v.releaseModel w.models.fresh) := by
  obtain ⟨objects, trace, he, hsize⟩ := w.equipped_eq data setup
  have hmodels : (w.equipped data setup).models.size = w.models.size + 1 := by
    rw [he]
    exact Store.size_add ..
  have hnames : v.names = w.names := by
    rw [h.names, he]
    rfl
  have hrelease : (v.releaseModel w.models.fresh).modelsInUse = w.modelsInUse := by
    rw [releaseModel, h.modelsInUse, he]
    exact List.erase_cons_head ..
  have hbetween (s : Subscriber) : s.Between (w.equipped data setup) v ↔
      s.Between w (v.releaseModel w.models.fresh) := by
    rw [he]
    cases s <;> rfl
  have hobject {o : Ref .object} (ho : o.index < w.objects.size) :
      o.index < (w.equipped data setup).objects.size := by
    rw [he]
    exact hsize ▸ ho
  have hregistry (source : Source) : (v.releaseModel w.models.fresh).registry source =
      v.registry source := by
    cases source <;> rfl
  -- Between the two worlds lie the definitions, and then what the view-model itself did.
  refine
    { objects := ?_, cells := ?_, registries := ?_, slot := fun o key ho hkey => ?_
      relic := fun c hc => ?_, gone := ⟨?_, ?_⟩, value := fun c hc => ?_, watcher := fun r hr => ?_
      model := fun m hm => ?_, joined := fun source => ?_, members := fun source s hs => ?_
      names := hnames, modelsInUse := hrelease, subscribersInUse := ?_ }
  · have hobjects := h.objects
    rw [he] at hobjects
    exact hsize ▸ hobjects
  · have hcells := h.cells
    rwa [he] at hcells
  · have hregistries := h.registries
    rwa [he] at hregistries
  · exact (h.slot o (hobject ho) key).trans (slot?_define_of_ne hkey)
  · obtain ⟨body, hbody, hslot⟩ := slot?_define (m := w.models.fresh) hdata hc
    exact ⟨body, hbody, (h.slot data (hobject hdata) c.1).trans hslot⟩
  · exact Nat.lt_of_lt_of_le (hmodels ▸ Nat.lt_succ_self _) h.models
  -- Whoever has a name or was in use before was made before, so the new view-model is neither.
  · intro halive
    rw [modelAlive_iff, hrelease] at halive
    have hmade : w.models.fresh.index < w.models.size :=
      halive.elim (fun hn => hw.named _ (hnames ▸ hn)) (hw.usedModel _)
    exact Nat.lt_irrefl _ hmade
  · have hvalue := h.value c
    rw [he] at hvalue
    exact hvalue hc
  · have hwatcher := h.watcher r
    rw [he] at hwatcher
    exact hwatcher hr
  · have hne : m ≠ w.models.fresh := by
      rintro rfl
      exact Nat.lt_irrefl _ hm
    have hmodel := h.model m hne (hmodels ▸ Nat.lt_succ_of_lt hm)
    rw [he] at hmodel
    exact hmodel.trans (w.models.get_add_of_lt _ hm)
  · obtain ⟨more, horder, hmore⟩ := h.joined source
    rw [registry_equipped] at horder
    exact ⟨more, hregistry source ▸ horder, fun s hs => (hbetween s).1 (hmore s hs)⟩
  · have hmembers := h.members source s fun hb => hs ((hbetween s).1 hb)
    rwa [registry_equipped, ← hregistry source] at hmembers
  · refine h.subscribersInUse.trans ?_
    rw [he]
    rfl

end Equipped

end World

namespace ViewModel

variable {compute : Computed → Reading Value} {point : MountPoint} {setup : Setup} {s : Settings}
  {name : Option String} {g : Fault}

/-- A mount that fails has found no target, was given no object, or has failed to bind the view. -/
theorem mount_eq_error
    (h : mount compute point setup s (Script.nameModel name) w = some (.error g, w')) :
    (point.find w.view = none ∨ setup.data.object? = none) ∧ w' = w ∨
      ∃ root data v, point.find w.view = some root ∧ setup.data.object? = some data ∧
        s.compile compute w.models.fresh root (w.equipped data setup) = some (.error g, v) ∧
        w' = v.releaseModel w.models.fresh := by
  have hat (n : Ref .node) (hn : point.find w.view = some n)
      (h : (create setup >>= fun m => do
        Action.usingModel m do
          s.compile compute m n
          Script.nameModel name m
        return m) w = some (.error g, w')) :
      (point.find w.view = none ∨ setup.data.object? = none) ∧ w' = w ∨
        ∃ root data v, point.find w.view = some root ∧ setup.data.object? = some data ∧
          s.compile compute w.models.fresh root (w.equipped data setup) = some (.error g, v) ∧
          w' = v.releaseModel w.models.fresh := by
    rw [Action.bind_apply, create_apply] at h
    cases ho : setup.data.object? with
    | none =>
      rw [ho] at h
      cases h
      exact .inl ⟨.inr rfl, rfl⟩
    | some data =>
      rw [ho] at h
      dsimp only at h
      rw [Action.bind_apply, Action.usingModel_apply, Action.bind_apply, ← World.equipped] at h
      -- Once the view is bound nothing can fail, since naming the view-model never does.
      cases hc : s.compile compute w.models.fresh n (w.equipped data setup) with
      | none =>
        rw [hc] at h
        cases h
      | some p =>
        obtain ⟨_ | _, v⟩ := p <;> rw [hc] at h <;> cases h
        exact .inr ⟨n, data, v, hn, rfl, hc, rfl⟩
  cases point with
  | node n => exact hat n rfl h
  | selector text =>
    rw [mount, Action.get_bind] at h
    cases hq : w.view.query text with
    | none =>
      rw [hq] at h
      cases h
      exact .inl ⟨.inl hq, rfl⟩
    | some n =>
      rw [hq] at h
      exact hat n hq h

/-- A mount that fails because there is no target or no object changes nothing. One that fails to
bind the view leaves on its data the computed properties that were defined for it, of a view-model
that is gone, and all other data as it was. Whatever others read or write afterwards ends as if
nobody had tried to mount, or else fails because it comes upon such a property. -/
theorem mount_fails {n : Nat} (hw : w.Grounded) (hdata : setup.data.Within w.objects.size)
    (h : mount (Engine.ofFuel n).compute point setup s (Script.nameModel name) w =
      some (.error g, w')) :
    (point.find w.view = none ∨ setup.data.object? = none → w' = w) ∧
      ∀ root data, point.find w.view = some root → setup.data.object? = some data →
        w.Aborted data setup.computed w' := by
  obtain ⟨hnone, rfl⟩ | ⟨root, data, v, hroot, hobject, hcompile, rfl⟩ := mount_eq_error h
  · refine ⟨fun _ => rfl, fun root data hroot hobject => ?_⟩
    simp [hroot, hobject] at hnone
  · refine ⟨fun hnone => by simp [hroot, hobject] at hnone, fun root' data' _ hobject' => ?_⟩
    cases hobject.symm.trans hobject'
    have hspared : (w.equipped data setup).Spared w.models.fresh v :=
      s.compile_spares (Reading.Spares.ofFuel n) root _ _ v (.refl _ _) hcompile
    exact (hspared.relics (hdata data hobject) hw).aborted hw

end ViewModel

section Misspelt

def misspelt : List Markup := [.element "div" [] [.element "p" [("directive-none", "x")] []]]

def lender : Step :=
  .build (some "a") (some (.data (.object [("x", .string "1"), ("y", .string "2")]))) [] []

def borrower : Setup := { data := .object ⟨0⟩, computed := [("x", .data (.string "3"))] }

/-- What a property of the first view-model shows. -/
def World.tells (w : World) (path : String) : Option (Except Fault String) :=
  ((ViewModel.read (Engine.ofFuel 2).compute ⟨0⟩ path).once w).map fun q => q.1.map Value.text

/-- Whether a property of the first view-model takes a new value. -/
def World.takes (w : World) (path : String) : Option (Except Fault Bool) :=
  (ViewModel.write (Engine.ofFuel 2).compute (Subscriber.update (Engine.ofFuel 2)) ⟨0⟩ path
    (.string "4") w).map Prod.fst

theorem Moment.exists_misspelt : ∃ w w' : World, Moment {} w ∧ w.modelAlive ⟨0⟩ ∧
    ViewModel.mount (Engine.ofFuel 2).compute (.node ⟨1⟩) borrower {} (Script.nameModel (some "b"))
      w = some (.error (.unknownDirective "none"), w') ∧
    (w.property? ⟨0⟩ "x" = some (.cell ⟨0⟩) ∧ w'.property? ⟨0⟩ "x" = none) ∧
    (w.tells "x" = some (.ok "1") ∧ w'.tells "x" = some (.error .detached)) ∧
    (w.takes "x" = some (.ok true) ∧ w'.takes "x" = some (.error (.readOnly "x"))) ∧
    w'.tells "y" = some (.ok "2") ∧ 0 < w.objects.size := by
  obtain ⟨w, h, hc⟩ := Moment.exists_of_run 2 misspelt [lender]
    (fun w => w.modelAlive ⟨0⟩ &&
      (ViewModel.mount (Engine.ofFuel 2).compute (.node ⟨1⟩) borrower {}
        (Script.nameModel (some "b")) w).any fun (q : Except Fault (Ref .model) × World) =>
          decide (q.1 = .error (.unknownDirective "none") ∧
            (w.property? ⟨0⟩ "x" = some (.cell ⟨0⟩) ∧ q.2.property? ⟨0⟩ "x" = none) ∧
            (w.tells "x" = some (.ok "1") ∧ q.2.tells "x" = some (.error .detached)) ∧
            (w.takes "x" = some (.ok true) ∧ q.2.takes "x" = some (.error (.readOnly "x"))) ∧
            q.2.tells "y" = some (.ok "2") ∧ 0 < w.objects.size))
    (by simp [lender, Step.AllPlain, Step.Plain, Step.PlainMethods, Expr.IsOwn])
    (by decide +kernel)
  simp only [Bool.and_eq_true, Option.any_eq_true, decide_eq_true_eq] at hc
  obtain ⟨halive, ⟨_, w'⟩, hmount, rfl, hc⟩ := hc
  exact ⟨w, w', h, halive, hmount, hc⟩

/-- After a failed mount on data that somebody else uses, what was a value there can neither be read
nor written. -/
theorem ViewModel.mount_fails_borrowed : ∃ w w' : World, Moment {} w ∧ w.modelAlive ⟨0⟩ ∧
    mount (Engine.ofFuel 2).compute (.node ⟨1⟩) borrower {} (Script.nameModel (some "b")) w =
      some (.error (.unknownDirective "none"), w') ∧
    (w.property? ⟨0⟩ "x" = some (.cell ⟨0⟩) ∧ w'.property? ⟨0⟩ "x" = none) ∧
    (w.tells "x" = some (.ok "1") ∧ w'.tells "x" = some (.error .detached)) ∧
    (w.takes "x" = some (.ok true) ∧ w'.takes "x" = some (.error (.readOnly "x"))) := by
  obtain ⟨w, w', h, halive, hmount, hx, htells, htakes, -⟩ := Moment.exists_misspelt
  exact ⟨w, w', h, halive, hmount, hx, htells, htakes⟩

/-- The rest of the borrowed data is as it was. -/
theorem ViewModel.mount_fails_misspelt : ∃ w w' : World, Moment {} w ∧
    mount (Engine.ofFuel 2).compute (.node ⟨1⟩) borrower {} (Script.nameModel (some "b")) w =
      some (.error (.unknownDirective "none"), w') ∧
    w.Aborted ⟨0⟩ borrower.computed w' ∧ w'.tells "y" = some (.ok "2") := by
  obtain ⟨w, w', h, -, hmount, -, -, -, hy, hsize⟩ := Moment.exists_misspelt
  have hdata : borrower.data.Within w.objects.size := fun o ho => by cases ho; exact hsize
  have haborted := (mount_fails h.quiet.valid.grounded hdata hmount).2 ⟨1⟩ ⟨0⟩ rfl rfl
  exact ⟨w, w', h, hmount, haborted, hy⟩

end Misspelt

end ViewBinding
