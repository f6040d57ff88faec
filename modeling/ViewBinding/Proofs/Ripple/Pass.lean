import ViewBinding.Proofs.Documents.Sets
import ViewBinding.Proofs.Ripple.Shown

/-! Where nobody follows the data but bindings, a write is over in one pass: it changes one slot at
most, and each binding shows one text at most because of it. -/

namespace ViewBinding

variable {w w' w₁ : World} {n : Nat} {v : Value} {source : Source} {o root : Ref .object}
  {key : String} {p : Path} {f : Frame} {r : Ref .watcher}

/-- Whether nobody follows the data but the watchers of bindings. -/
structure World.OnlyBindings (w : World) : Prop where
  watcher : ∀ r id steps, w.alive (.watcher r) → (w.watchers.get r).callback ≠ .run id steps
  reaction : ∀ r, ¬w.alive (.reaction r)

theorem World.OnlyBindings.due (hb : w.OnlyBindings) (hw : w.Valid) {s : Subscriber}
    (hs : s ∈ w.due source) : s.IsBinding (w.turns source v) := by
  have ha := World.alive_of_mem_due hs
  cases s with
  | reaction r => exact absurd ha (hb.reaction r)
  | watcher r =>
    refine ⟨r, rfl, ?_, fun id steps => ?_⟩ <;> rw [World.watchers_turns]
    · exact hw.lt_of_alive ha
    · exact hb.watcher r id steps ha

/-- What writing a slot comes to: nothing where the value is the same, and else the turns of those
who are due, and a remark if some of them failed. -/
inductive World.Wrote (n : Nat) (source : Source) (v : Value) (w : World) :
    Except Fault Bool → World → Prop
  | same : ¬w.changes source v → Wrote n source v w (.ok false) w
  | turns {k : Except Fault Nat} {w₁ w' : World} : w.changes source v →
      updateEach (Subscriber.update (Engine.ofFuel n)) (w.due source) (w.turns source v) =
        some (k, w₁) →
      w₁.Remarks w' → Wrote n source v w (.ok true) w'

theorem Object.write_wrote (hs : w.property? o key = some source) {res : Except Fault Bool}
    (h : Object.write (Subscriber.update (Engine.ofFuel n)) o key v w = some (res, w')) :
    w.Wrote n source v res w' := by
  by_cases hc : w.changes source v
  · obtain ⟨key?, he⟩ :=
      @Object.write_changed _ _ _ _ _ (Subscriber.update (Engine.ofFuel n)) hs hc
    rw [he, Option.map_eq_some_iff] at h
    obtain ⟨⟨k, w₁⟩, hk, hres⟩ := h
    obtain ⟨i, rfl⟩ := updateEach_ok _ hk
    cases hres
    exact .turns hc hk (.leaveBehind w₁ key? i)
  · rcases Object.write_written h with ⟨hn, -⟩ | ⟨source', hs', hwr⟩
    · exact absurd (hn.symm.trans hs) (by simp)
    · obtain rfl := Option.some.inj (hs'.symm.trans hs)
      obtain ⟨rfl, rfl⟩ := hwr.same hc
      exact .same hc

theorem Path.assign_cases (hw : w.Valid) {res : Except Fault Bool}
    (h : p.assign (Engine.ofFuel n).compute (Subscriber.update (Engine.ofFuel n)) root v w =
      some (res, w')) :
    ((Site.path p root).find (Engine.ofFuel n).compute w = none ∧ (∃ g, res = .error g) ∧
        w.Remarks w') ∨
      ∃ source w₁, (Site.path p root).find (Engine.ofFuel n).compute w = some (source, w₁) ∧
        w.Remarks w₁ ∧ w₁.Wrote n source v res w' := by
  have hsees := Action.Sees.once
    (Reading.Sees.follow (Reading.Sees.compute n) p p.parents (.object root))
  unfold Path.assign at h
  unfold Site.find
  rcases Action.bind_eq_some h with ⟨g, hg, rfl⟩ | ⟨parent, w₁, hp, h⟩
  · left
    simp only [hg]
    exact ⟨trivial, ⟨g, rfl⟩, hsees.remarks hw.tracked.steady hg⟩
  · have hremarks := hsees.remarks hw.tracked.steady hp
    simp only [hp]
    cases ho : p.owner parent p.last with
    | error g =>
      rw [ho] at h
      cases h
      exact .inl ⟨rfl, ⟨g, rfl⟩, hremarks⟩
    | ok o =>
      rw [ho] at h
      cases hs : w₁.property? o p.last with
      | none =>
        rcases Object.write_written h with ⟨-, rfl, hg⟩ | ⟨source, hs', -⟩
        · exact .inl ⟨by simp [hs], hg, hremarks⟩
        · exact absurd (hs.symm.trans hs') (by simp)
      | some source =>
        exact .inr ⟨source, w₁, by simp [hs], hremarks, Object.write_wrote hs h⟩

theorem Site.find_within (hw : w.Valid) (hroot : root.index < w.objects.size)
    (h : (Site.path p root).find (Engine.ofFuel n).compute w = some (source, w₁)) :
    source.Within w₁ := by
  simp only [find] at h
  split at h
  · rename_i parent w₂ hf
    obtain ⟨⟨ms, hl⟩, es, rfl⟩ := (Action.Sees.once
      (Reading.Sees.follow (Reading.Sees.compute n) p p.parents (.object root))).eq_some
        hw.tracked.steady hf
    have hobject : (Value.object root).Within w.objects.size := by
      intro o ho
      obtain rfl := Option.some.inj ho
      exact hroot
    obtain ⟨-, hv⟩ := Path.lookFrom_within hw.closed (hw.bounded n) p p.parents hobject _ _ hl
    split at h
    · rename_i o ho
      obtain ⟨source', hs, he⟩ := Option.map_eq_some_iff.1 h
      cases he
      -- Only an object has properties to write, and the walk finds only what was made.
      have hparent : parent.object? = some o := by
        cases hn : parent.object? with
        | none =>
          rw [Path.owner_of_object?_eq_none p p.last hn] at ho
          cases ho
        | some o' =>
          obtain rfl := Value.eq_object hn
          cases ho
          rfl
      unfold World.property? at hs
      split at hs
      · cases hs
        exact hw.cell o p.last _ ‹_›
      · cases hs
      · cases hs
        exact hv parent rfl o hparent
    · cases h
  · cases h

def Source.Kept (w w' : World) : Source → Prop
  | .cell c => c.index < w.cells.size → (w'.cells.get c).value = (w.cells.get c).value
  | .waiting o key => o.index < w.objects.size → w'.slot? o key = w.slot? o key
  | .registry _ => True

def Source.Keeps (w : World) (v : Value) : Source → Prop
  | .cell c => (w.cells.get c).value = v
  | .waiting o key => ∃ c, w.slot? o key = some (.cell c) ∧ (w.cells.get c).value = v
  | .registry _ => False

namespace World

theorem Idle.kept {S : List Subscriber} (h : w.Idle S w') (source : Source) :
    source.Kept w w' := by
  cases source with
  | cell c => exact h.value c
  | waiting o key => exact h.slot? o key
  | registry r => trivial

theorem Idle.keeps {S : List Subscriber} (h : w.Idle S w') (hw : w.Valid)
    (hs : source.Within w) (hk : source.Keeps w v) : source.Keeps w' v := by
  cases source with
  | cell c => exact (h.value c hs).trans hk
  | waiting o key =>
    obtain ⟨c, hc, hv⟩ := hk
    exact ⟨c, (h.slot? o key hs).trans hc, (h.value c (hw.cell o key c hc)).trans hv⟩
  | registry r => exact hk

theorem size_put (w : World) (source : Source) (v : Value) :
    (w.put source v).objects.size = w.objects.size ∧
      w.cells.size ≤ (w.put source v).cells.size := by
  cases source with
  | cell c =>
    refine ⟨rfl, Nat.le_of_eq ?_⟩
    exact ((Store.size_modify ..).trans (Store.size_modify ..)).symm
  | waiting o key =>
    obtain ⟨hobjects, hcells⟩ := size_inserted w o key v
    exact ⟨hobjects, Nat.le_of_lt (Nat.lt_of_lt_of_eq (Nat.lt_succ_self _) hcells.symm)⟩
  | registry r => exact ⟨rfl, Nat.le_refl _⟩

theorem kept_put (w : World) (v : Value) {other : Source} (hne : source ≠ other) :
    other.Kept w (w.put source v) := by
  -- A cell keeps its place, and a property that is added gets a cell of its own.
  cases source with
  | registry r => cases other <;> first | exact fun _ => rfl | trivial
  | cell c =>
    have hprune : (w.put (.cell c) v).sight = (w.store c v).sight := sight_setRegistry ..
    cases other with
    | cell c' =>
      intro _
      have hvalue := congrFun (congrArg Sight.value hprune) c'
      rcases w.store_cases c c' v with e | ⟨rfl, -⟩
      · exact hvalue.trans (congrArg Cell.value e)
      · exact absurd rfl hne
    | waiting o key => exact fun _ => congrFun (congrFun (congrArg Sight.slot? hprune) o) key
    | registry r => trivial
  | waiting o key =>
    cases other with
    | cell c =>
      intro hc
      have hadd := w.cells.get_add_of_lt { value := v } hc
      exact congrArg Cell.value hadd
    | waiting o' key' =>
      intro _
      rw [show (w.put (.waiting o key) v).slot? o' key' = _ from slot?_inserted o o' key key' v]
      rcases w.slot?_insertCell_cases o key v o' key' with e | ⟨rfl, rfl, -⟩
      · exact e
      · exact absurd rfl hne
    | registry r => trivial

theorem keeps_put (hs : source.Within w) (hw : w.Writable source) (v : Value) :
    source.Keeps (w.put source v) v := by
  cases source with
  | cell c =>
    have hprune : (w.put (.cell c) v).sight = (w.store c v).sight := sight_setRegistry ..
    exact (congrFun (congrArg Sight.value hprune) c).trans (value_store hs v)
  | waiting o key =>
    refine ⟨w.cells.fresh, ?_, value_fresh_cell w v⟩
    have hslot := slot?_inserted (w := w) o o key key v
    exact hslot.trans (slot?_setSlot_self hs key _)
  | registry r => exact hw

end World

namespace Site

def written (compute : Computed → Reading Value) (v : Value) (site : Site) (w : World) :
    Option Source :=
  match site.find compute w with
  | some (source, w') => if w'.changes source v then some source else none
  | none => none

/-- What is shown because of a write, each text with the watcher that shows it. -/
def writes (n : Nat) (v : Value) (site : Site) (w w' : World) : List (Ref .watcher × Shown) :=
  (site.fired (Engine.ofFuel n) v w).flatMap fun q => (w'.shows n q.1 q.2).map (q.1, ·)

theorem map_snd_writes (n : Nat) (v : Value) (site : Site) (w w' : World) :
    (site.writes n v w w').map Prod.snd =
      (site.fired (Engine.ofFuel n) v w).flatMap fun q => w'.shows n q.1 q.2 := by
  simp [writes, List.map_flatMap, Function.comp_def]

/-- Who shows something once at most does so if each starts once at most. -/
theorem nodup_writes {site : Site}
    (h : ((site.fired (Engine.ofFuel n) v w).map Prod.fst).Nodup) :
    ((site.writes n v w w').map Prod.fst).Nodup := by
  unfold writes
  generalize site.fired (Engine.ofFuel n) v w = fs at h
  refine (List.Sublist.nodup ?_ h)
  clear h
  induction fs with
  | nil => simp
  | cons q fs ih =>
    rw [List.flatMap_cons, List.map_append, List.map_cons, ← List.singleton_append]
    refine List.Sublist.append ?_ ih
    have hle := World.length_shows_le n w' q.1 q.2
    rcases hxs : w'.shows n q.1 q.2 with _ | ⟨x, _ | ⟨y, xs⟩⟩
    · simp
    · simp
    · rw [hxs] at hle
      simp at hle

theorem mem_writes_of_fansOut {site : Site} {order : List Subscriber} {k : Nat} {u : Value}
    {face : Face} {node : Ref .node}
    (h : FansOut n order w (site.fired (Engine.ofFuel n) v w) w') (hw' : w'.Valid)
    (ha : w.alive (.watcher r)) (hm : w.modelAlive (w.watchers.get r).model)
    (hcb : (w'.watchers.get r).callback = .write face node) (hu : w'.Resolves k r u)
    (hne : ¬(w.watchers.get r).value.Agrees u) :
    (r, { face, node, text := u.text }) ∈ site.writes n v w w' := by
  have hcount := h.once r ha hm k u hu hne
  have hmem : r ∈ (site.fired (Engine.ofFuel n) v w).map Prod.fst :=
    List.count_pos_iff.1 (by omega)
  obtain ⟨⟨r, c⟩, hrc, rfl⟩ := List.mem_map.1 hmem
  -- What it fired with is what its path leads to, and that is one value at most.
  obtain ⟨⟨ms, hl⟩, -⟩ := (h.change r c hrc).imp_left (World.resolves_iff hw').1
  obtain ⟨ms', hl'⟩ := (World.resolves_iff hw').1 hu
  obtain rfl : c.new = u := by
    have he := World.look_unique hw' hl hl'
    cases he
    rfl
  refine List.mem_flatMap.2 ⟨(r, c), hrc, List.mem_map.2 ⟨⟨face, node, c.new.text⟩, ?_, rfl⟩⟩
  simp only [World.shows, hcb]
  exact List.mem_singleton_self _

/-- A write in one pass. It changes one slot at most, the one it is for, and that holds the value
then; nothing else happens but that some watchers show something, each one text at most; and a
watcher that shows values on a node does so if its path leads to something new. -/
structure SinglePass (n : Nat) (v : Value) (site : Site) (w : World) (res : Except Fault Bool)
    (w' : World) : Prop where
  kept : ∀ source, site.written (Engine.ofFuel n).compute v w ≠ some source → source.Kept w w'
  keeps : ∀ source, site.written (Engine.ofFuel n).compute v w = some source → source.Keeps w' v
  changed : res = .ok true ↔ (site.written (Engine.ofFuel n).compute v w).isSome
  paints : w.Paints ((site.writes n v w w').map Prod.snd) w'
  once : ((site.writes n v w w').map Prod.fst).Nodup
  complete : ∀ r face node, w.alive (.watcher r) → w.modelAlive (w.watchers.get r).model →
    (w.watchers.get r).callback = .write face node → ∀ k u, w'.Resolves k r u →
    ¬(w.watchers.get r).value.Agrees u → (r, { face, node, text := u.text }) ∈ site.writes n v w w'

variable {site : Site}

theorem written_of_find (h : site.find (Engine.ofFuel n).compute w = some (source, w₁)) :
    site.written (Engine.ofFuel n).compute v w =
      if w₁.changes source v then some source else none := by
  simp only [written, h]

theorem SinglePass.of_remarks (h : Moment f w) (hr : w.Remarks w')
    (hw : site.written (Engine.ofFuel n).compute v w = none)
    (hf : site.fired (Engine.ofFuel n) v w = []) {res : Except Fault Bool} (hres : res ≠ .ok true) :
    site.SinglePass n v w res w' := by
  have hwrites : site.writes n v w w' = [] := by simp [writes, hf]
  have hpaints := hr.paints
  obtain ⟨⟨es, rfl⟩, -⟩ := hr
  refine ⟨fun source _ => ?_, fun source hs => ?_, ?_, ?_, ?_, ?_⟩
  · exact (World.Noted.trace w es).idle.kept source
  · rw [hw] at hs
    cases hs
  · simp [hw, hres]
  · simpa [hwrites] using hpaints
  · simp [hwrites]
  · intro r face node ha hm _ k u hu hne
    have hquiet := (h.trace es).quiet
    exact absurd (hquiet.agrees ha hm hu) hne

end Site

theorem Source.Kept.trans {w₂ : World} (h : source.Kept w w₁) (h' : source.Kept w₁ w₂)
    (ho : w.objects.size ≤ w₁.objects.size) (hc : w.cells.size ≤ w₁.cells.size) :
    source.Kept w w₂ := by
  cases source with
  | cell c => exact fun hlt => (h' (Nat.lt_of_lt_of_le hlt hc)).trans (h hlt)
  | waiting o key => exact fun hlt => (h' (Nat.lt_of_lt_of_le hlt ho)).trans (h hlt)
  | registry r => trivial

theorem Source.Within.grow (h : source.Within w) (ho : w.objects.size ≤ w'.objects.size)
    (hc : w.cells.size ≤ w'.cells.size) (hr : w.registries.size ≤ w'.registries.size) :
    source.Within w' := by
  cases source with
  | cell c => exact Nat.lt_of_lt_of_le h hc
  | waiting o key => exact Nat.lt_of_lt_of_le h ho
  | registry r => exact Nat.lt_of_lt_of_le h hr

theorem World.paints_turns (w : World) (source : Source) (v : Value) :
    w.Paints [] (w.turns source v) := by
  cases source <;> exact .of_eq rfl rfl rfl rfl

/-- Where nobody follows the data but bindings, writing to a path is over in one pass. -/
theorem Moment.single_pass (h : Moment f w) (hb : w.OnlyBindings)
    (hroot : root.index < w.objects.size) (hv : v.Within w.objects.size)
    {res : Except Fault Bool}
    (hw : p.assign (Engine.ofFuel n).compute (Subscriber.update (Engine.ofFuel n)) root v w =
      some (res, w')) : (Site.path p root).SinglePass n v w res w' := by
  have hvalid := h.quiet.valid
  rcases Path.assign_cases hvalid hw with ⟨hn, ⟨g, rfl⟩, hr⟩ | ⟨source, w₁, hs, hr, hwrote⟩
  · refine .of_remarks h hr ?_ ?_ (by simp)
    · simp only [Site.written, hn]
    · simp only [Site.fired, hn]
  have hwritable := Site.find_writable hs
  have hwithin := Site.find_within hvalid hroot hs
  have hwritten := Site.written_of_find (v := v) hs
  have hfired := Site.fired_of_find (v := v) hs
  cases hwrote with
  | same hc =>
    rw [if_neg hc] at hwritten hfired
    exact .of_remarks h hr hwritten hfired (by simp)
  | @turns k w₂ _ hc hk hr' =>
    rw [if_pos hc] at hwritten hfired
    have hpaints₁ := hr.paints.trans (w₁.paints_turns source v)
    obtain ⟨⟨es, rfl⟩, -⟩ := hr
    have h₁ : Moment f { w with trace := es } := h.trace es
    have hb₁ : World.OnlyBindings { w with trace := es } := ⟨hb.watcher, hb.reaction⟩
    have hp := World.passes_turns h₁.quiet.valid hwritable hv
    have hL (s : Subscriber) (hs : s ∈ World.due { w with trace := es } source) :
        s.IsBinding (World.turns { w with trace := es } source v) := hb₁.due h₁.quiet.valid hs
    have hmade (s : Subscriber) (hs : s ∈ World.due { w with trace := es } source) :=
      (hL s hs).made
    -- Bindings only write to the view, so those on their turn find the data as the write left it.
    have hcalm := Subscriber.IsBinding.calm (n := n) hp.valid hL
    have hidle := hcalm.idle hp.valid hmade hk
    have hvalid₂ := (updateEach_passes (Subscriber.update_settling (Engine.calls n)) hp.valid
      hmade hk).1.valid
    have hpaints₂ := hr'.paints
    obtain ⟨⟨es', rfl⟩, -⟩ := hr'
    have hend : w₂.Noted { w₂ with trace := es' } := .trace w₂ es'
    have hvalid' := hend.valid hvalid₂
    have hlast := (hidle.trans hend.idle)
    have hcalm' : (Site.path p root).Calm (Engine.ofFuel n) v w := by
      rintro source' w' hs' -
      obtain ⟨rfl, rfl⟩ := Prod.mk.inj (Option.some.inj (hs'.symm.trans hs))
      exact hcalm
    have hfan := Site.write_fansOut h.quiet hv hcalm' hs hw
    have hpaints := updateEach_paints hvalid' hp.valid hL hk hend.idle
    rw [← hfired] at hpaints
    obtain ⟨hobjects, hcells⟩ := World.size_put { w with trace := es } source v
    refine ⟨fun other hne => ?_, fun other he => ?_, ?_, ?_, Site.nodup_writes hfan.nodup, ?_⟩
    · have hne' : source ≠ other := fun e => hne (e ▸ hwritten)
      have hput : other.Kept w (World.turns { w with trace := es } source v) :=
        World.kept_put { w with trace := es } v hne'
      exact hput.trans (hlast.kept other) (Nat.le_of_eq hobjects.symm) hcells
    · obtain rfl := Option.some.inj (hwritten.symm.trans he)
      have hput : source.Keeps (World.turns { w with trace := es } source v) v :=
        World.keeps_put hwithin hwritable v
      have hwithin' : source.Within (World.turns { w with trace := es } source v) :=
        hwithin.grow (Nat.le_of_eq hobjects.symm) hcells (by cases source <;> exact Nat.le_refl _)
      exact hlast.keeps hp.valid hwithin' hput
    · simp [hwritten]
    · simpa [Site.map_snd_writes] using (hpaints₁.trans hpaints).trans hpaints₂
    · intro r face node ha hm hcb j u hu hne
      refine Site.mem_writes_of_fansOut hfan hvalid' ha hm ?_ hu hne
      have hcallback := hlast.callback r (by
        rw [World.watchers_turns]
        exact hvalid.lt_of_alive ha)
      rw [World.watchers_turns] at hcallback
      exact hcallback.trans hcb

end ViewBinding
