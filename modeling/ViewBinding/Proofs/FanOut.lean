import Mathlib.Data.List.Nodup
import ViewBinding.Proofs.Rendering
import ViewBinding.Proofs.Started

/-! The fan-out of one write, if callbacks leave the data alone: each watcher that has something new
to see is called exactly once with it, in the order of registration. -/

namespace ViewBinding

variable {w w' w'' : World} {f : Frame} {n : Nat} {r : Ref .watcher} {source : Source} {v : Value}

/-- Where a value is written: in a cell, to a key of an object, or to what a path leads to from one.
-/
inductive Site
  | cell (c : Ref .cell)
  | property (o : Ref .object) (key : String)
  | path (p : Path) (root : Ref .object)

namespace World

/-- The cell that holds a property, or those who wait for one that is not there. -/
def property? (w : World) (o : Ref .object) (key : String) : Option Source :=
  match w.slot? o key with
  | some (.cell c) => some (.cell c)
  | some (.computed _) => none
  | none => some (.waiting o key)

/-- Whether writing a value changes anything. -/
def changes (w : World) (source : Source) (v : Value) : Bool :=
  match source with
  | .cell c => !(w.cells.get c).value.same v
  | _ => true

def due (w : World) (source : Source) : List Subscriber := (w.registry source).live w.alive

def put (w : World) (source : Source) (v : Value) : World :=
  match source with
  | .cell c => (w.store c v).setRegistry (.cell c) ((w.registry (.cell c)).prune w.alive)
  | .waiting o key => ((w.insertCell o key v).takeWaiting o key).2
  | .registry _ => w

/-- The world in which the turns of those who are due begin. -/
def turns (w : World) (source : Source) (v : Value) : World :=
  (w.put source v).useSubscribers (w.due source)

theorem alive_put (w : World) (source : Source) (v : Value) : (w.put source v).alive = w.alive := by
  cases source <;> rfl

end World

namespace Site

def write (e : Engine) (v : Value) : Site → Action Bool
  | .cell c => Cell.write (Subscriber.update e) c v
  | .property o key => Object.write (Subscriber.update e) o key v
  | .path p root => p.assign e.compute (Subscriber.update e) root v

/-- What a write is for, if it is possible, and the world in which that has been found out. -/
def find (compute : Computed → Reading Value) (w : World) : Site → Option (Source × World)
  | .cell c => some (.cell c, w)
  | .property o key => (w.property? o key).map (·, w)
  | .path p root =>
    match (p.follow compute p.parents (.object root)).once w with
    | some (.ok parent, w') =>
      match p.owner parent p.last with
      | .ok o => (w'.property? o p.last).map (·, w')
      | .error _ => none
    | _ => none

/-- The watchers whose callbacks start because of a write, each with its change. -/
def fired (e : Engine) (v : Value) (site : Site) (w : World) : List (Ref .watcher × Change) :=
  match site.find e.compute w with
  | some (source, w') =>
    if w'.changes source v then ViewBinding.fired e (w'.due source) (w'.turns source v) else []
  | none => []

/-- Whether a write starts nothing that changes the data. -/
def Calm (e : Engine) (v : Value) (site : Site) (w : World) : Prop :=
  ∀ source w', site.find e.compute w = some (source, w') → w'.changes source v →
    CalmTurns e (w'.due source) (w'.turns source v)

/-- Whether what a write starts starts no callback of a watcher itself. -/
def Alone (e : Engine) (v : Value) (site : Site) (w : World) : Prop :=
  ∀ source w', site.find e.compute w = some (source, w') → w'.changes source v →
    AloneTurns e (w'.due source) (w'.turns source v)

end Site

section Equations

variable {update : Subscriber → Action Unit}

theorem Registry.notify_apply (registry : Registry) (w : World) :
    registry.notify update w =
      updateEach update (registry.live w.alive) (w.useSubscribers (registry.live w.alive)) := rfl

theorem Source.notify_apply (source : Source) (w : World) :
    source.notify update w = updateEach update (w.due source)
      ((w.setRegistry source ((w.registry source).prune w.alive)).useSubscribers
        (w.due source)) := by
  have ha : (w.setRegistry source ((w.registry source).prune w.alive)).alive = w.alive := by
    cases source <;> rfl
  rw [Source.notify_eq, Registry.notify_apply, ha, Registry.live_prune]
  rfl

theorem updateEach_ok (ss : List Subscriber) {w w' : World} {k : Except Fault Nat}
    (h : updateEach update ss w = some (k, w')) : ∃ i, k = .ok i := by
  induction ss generalizing w k with
  | nil => cases h; exact ⟨0, rfl⟩
  | cons s rest ih =>
    obtain ⟨p, k', -, hk, rfl⟩ := updateEach_cons_eq_some h
    obtain ⟨i, rfl⟩ := ih hk
    exact ⟨_, rfl⟩

theorem Cell.write_turns {c : Ref .cell} (h : w.changes (.cell c) v) :
    Cell.write update c v w =
      (updateEach update (w.due (.cell c)) (w.turns (.cell c) v)).map fun p =>
      (p.1.map fun _ => true, (p.1.toOption.elim p.2 fun k => p.2.leaveBehind none k)) := by
  have hs : ¬(w.cells.get c).value.same v := by simpa [World.changes] using h
  rw [Cell.write_apply, if_neg hs, Source.notify_apply, World.due, World.registry_store]
  rfl

theorem Object.insert_turns (o : Ref .object) (key : String) :
    Object.insert update o key v w =
      (updateEach update (w.due (.waiting o key)) (w.turns (.waiting o key) v)).map fun p =>
        (p.1.map fun _ => (), (p.1.toOption.elim p.2 fun k => p.2.leaveBehind (some key) k)) := by
  rw [Object.insert_apply, Registry.notify_apply]
  rfl

end Equations

structure World.Written (update : Subscriber → Action Unit) (source : Source) (v : Value)
    (w : World)
    (res : Except Fault Bool) (w' : World) : Prop where
  same : ¬w.changes source v → res = .ok false ∧ w' = w
  turns : w.changes source v → res = .ok true ∧ ∃ k w₁,
    updateEach update (w.due source) (w.turns source v) = some (k, w₁) ∧
      ∃ key? i, w' = w₁.leaveBehind key? i

theorem World.leaveBehind_eq (w : World) (key : Option String) (k : Nat) :
    ∃ es, w.leaveBehind key k = { w with trace := es } := by
  rw [leaveBehind]
  split
  · exact ⟨_, rfl⟩
  · exact ⟨w.trace, rfl⟩

theorem World.Written.traced {update : Subscriber → Action Unit} {res : Except Fault Bool}
    (h : w.Written update source v res w') (hc : w.changes source v) : res = .ok true ∧ ∃ k w₁,
      updateEach update (w.due source) (w.turns source v) = some (k, w₁) ∧
        ∃ es, w' = { w₁ with trace := es } := by
  obtain ⟨hres, k, w₁, hk, key?, i, rfl⟩ := h.turns hc
  exact ⟨hres, k, w₁, hk, w₁.leaveBehind_eq key? i⟩

theorem Cell.write_written {update : Subscriber → Action Unit} {c : Ref .cell}
    {res : Except Fault Bool}
    (h : Cell.write update c v w = some (res, w')) : w.Written update (.cell c) v res w' := by
  constructor
  · intro hc
    rw [Cell.write_apply, if_pos (by simpa [World.changes] using hc)] at h
    cases h
    exact ⟨rfl, rfl⟩
  · intro hc
    rw [Cell.write_turns hc, Option.map_eq_some_iff] at h
    obtain ⟨⟨k, w₁⟩, hk, he⟩ := h
    obtain ⟨i, rfl⟩ := updateEach_ok _ hk
    cases he
    exact ⟨rfl, _, w₁, hk, none, i, rfl⟩

theorem Object.write_written {update : Subscriber → Action Unit} {o : Ref .object} {key : String}
    {res : Except Fault Bool} (h : Object.write update o key v w = some (res, w')) :
    (w.property? o key = none ∧ w' = w ∧ ∃ g, res = .error g) ∨
      ∃ source, w.property? o key = some source ∧ w.Written update source v res w' := by
  cases hs : w.slot? o key with
  | none =>
    refine .inr ⟨.waiting o key, by rw [World.property?, hs], fun hc => absurd rfl hc, fun _ => ?_⟩
    rw [Object.write_missing hs, Object.insert_turns, Option.map_map,
      Option.map_eq_some_iff] at h
    obtain ⟨⟨k, w₁⟩, hk, he⟩ := h
    obtain ⟨i, rfl⟩ := updateEach_ok _ hk
    cases he
    exact ⟨rfl, _, w₁, hk, some key, i, rfl⟩
  | some slot =>
    cases slot with
    | cell c =>
      rw [Object.write_cell hs] at h
      exact .inr ⟨.cell c, by rw [World.property?, hs], Cell.write_written h⟩
    | computed p =>
      rw [Object.write_computed hs] at h
      cases h
      exact .inl ⟨by rw [World.property?, hs], rfl, _, rfl⟩

theorem Path.follow_once (hw : w.Valid) (p : Path) (segments : List String) (u : Value)
    {res : Except Fault Value}
    (h : (p.follow (Engine.ofFuel n).compute segments u).once w = some (res, w')) :
    ∃ es, w' = { w with trace := es } := by
  exact ((Action.Sees.once (Reading.Sees.follow (Reading.Sees.compute n) p segments u)).eq_some
    hw.tracked.steady h).2

namespace Site

theorem write_written (hw : w.Valid) {site : Site} {res : Except Fault Bool}
    (h : site.write (Engine.ofFuel n) v w = some (res, w')) :
    (site.find (Engine.ofFuel n).compute w = none ∧ (∃ g, res = .error g) ∧
        ∃ es, w' = { w with trace := es }) ∨
      ∃ source es, site.find (Engine.ofFuel n).compute w = some (source, { w with trace := es }) ∧
        World.Written (Subscriber.update (Engine.ofFuel n)) source v
          { w with trace := es } res w' := by
  cases site with
  | cell c => exact .inr ⟨.cell c, w.trace, rfl, Cell.write_written h⟩
  | property o key =>
    obtain ⟨hn, rfl, hg⟩ | ⟨source, hs, hwr⟩ := Object.write_written h
    · exact .inl ⟨by rw [find, hn]; rfl, hg, w'.trace, rfl⟩
    · exact .inr ⟨source, w.trace, by rw [find, hs]; rfl, hwr⟩
  | path p root =>
    rw [write, Path.assign] at h
    obtain ⟨g, hg, rfl⟩ | ⟨parent, w₁, hp, h⟩ := Action.bind_eq_some h
    · obtain ⟨es, rfl⟩ := Path.follow_once hw p _ _ hg
      exact .inl ⟨by rw [find, hg], ⟨g, rfl⟩, es, rfl⟩
    · obtain ⟨es, rfl⟩ := Path.follow_once hw p _ _ hp
      cases ho : p.owner parent p.last with
      | error g =>
        rw [ho] at h
        cases h
        exact .inl ⟨by simp only [find, hp, ho], ⟨g, rfl⟩, es, rfl⟩
      | ok o =>
        rw [ho] at h
        obtain ⟨hn, rfl, hg⟩ | ⟨source, hs, hwr⟩ :=
          Object.write_written (w := { w with trace := es }) h
        · exact .inl ⟨by simp only [find, hp, ho, hn]; rfl, hg, es, rfl⟩
        · exact .inr ⟨source, es, by simp only [find, hp, ho, hs]; rfl, hwr⟩

end Site

namespace World

/-- A cell, or a property that is not there. -/
def Writable (w : World) : Source → Prop
  | .cell _ => True
  | .waiting o key => w.slot? o key = none
  | .registry _ => False

theorem writable_of_property? {o : Ref .object} {key : String}
    (h : w.property? o key = some source) : w.Writable source := by
  rw [property?] at h
  split at h
  · cases h
    trivial
  · cases h
  · cases h
    assumption

theorem mem_due {s : Subscriber} (hs : s ∈ (w.registry source).order) (ha : w.alive s) :
    s ∈ w.due source := List.mem_filter.2 ⟨hs, ha⟩

theorem alive_of_mem_due {s : Subscriber} (h : s ∈ w.due source) : w.alive s :=
  (List.mem_filter.1 h).2

theorem passes_turns (hw : w.Valid) (hs : w.Writable source) (hv : v.Within w.objects.size) :
    w.Passes [] (w.due source) (w.turns source v) := by
  have hput : w.Passes [] (w.due source) (w.put source v) := by
    cases source with
    | cell c =>
      have hp := passes_store hw hv (c := c) fun _ => mem_due
      have ho := onward_prune hp.valid (.cell c)
      rw [registry_store] at ho
      exact hp.trans (ho.toPasses.frame _)
    | waiting o key =>
      have hp := passes_insertCell hw hs hv fun _ => mem_due
      have hr := w.registry_insertCell o key v (.waiting o key)
      have hp' := passes_takeWaiting hp.valid o key
        (L := w.due (.waiting o key)) fun s hs ha => mem_due (by rwa [hr] at hs) ha
      exact hp.trans hp'.again
    | registry r => exact hs.elim
  refine hput.trans ((onward_useSubscribers hput.valid _ fun s hs => ?_).toPasses.frame _)
  rw [alive_put]
  exact alive_of_mem_due hs

theorem watchers_turns (w : World) (source : Source) (v : Value) :
    (w.turns source v).watchers = w.watchers := by
  cases source <;> rfl

theorem modelAlive_turns (w : World) (source : Source) (v : Value) :
    (w.turns source v).modelAlive = w.modelAlive := by
  cases source <;> rfl

theorem alive_turns (h : w.alive (.watcher r)) : (w.turns source v).alive (.watcher r) := by
  rw [← alive_put w source v, alive_iff] at h
  rw [turns, alive_iff]
  exact h.imp_left (List.mem_append_right _)

theorem Relisted.look_eq (h : w.Relisted w') (n : Nat) (r : Ref .watcher) :
    w'.look n r = w.look n r := by
  simp only [World.look, h.sight, h.watchers, h.models]

end World

theorem Site.find_writable {site : Site} {compute : Computed → Reading Value}
    (h : site.find compute w = some (source, w')) : w'.Writable source := by
  have hp {w₁ : World} {o : Ref .object} {key : String}
      (h : (w₁.property? o key).map (·, w₁) = some (source, w')) : w'.Writable source := by
    obtain ⟨s, hs, he⟩ := Option.map_eq_some_iff.1 h
    cases he
    exact World.writable_of_property? hs
  cases site with
  | cell c =>
    cases h
    trivial
  | property o key => exact hp h
  | path p root =>
    rw [find] at h
    split at h
    · split at h
      · exact hp h
      · cases h
    · cases h

/-- What a write does to watchers: those who fired, each with its change, and the world after it. -/
structure FansOut (n : Nat) (order : List Subscriber) (w : World)
    (fs : List (Ref .watcher × Change))
    (w' : World) : Prop where
  once : ∀ r, w.alive (.watcher r) → w.modelAlive (w.watchers.get r).model → ∀ k v,
    w'.Resolves k r v → ¬(w.watchers.get r).value.Agrees v → (fs.map Prod.fst).count r = 1
  nodup : (fs.map Prod.fst).Nodup
  change : ∀ r c, (r, c) ∈ fs →
    w'.Resolves n r c.new ∧ c.old = (w.watchers.get r).value ∧ ¬c.old.same c.new
  order : (fs.map fun p => Subscriber.watcher p.1).Sublist order

/-- Where a write changes nothing nobody fires, and nobody has something new to see. -/
theorem FansOut.of_noted (hq : w.Quiet) (h : w.Noted w') (order : List Subscriber) :
    FansOut n order w [] w' where
  once r hr hm k v hv hn := by
    have hlt := hq.valid.lt_of_alive hr
    have ha := ((h.onward hq.valid).quiet hq).agrees (by rwa [h.alive]) ?_ hv
    · rw [h.watchers] at ha
      exact absurd ha hn
    · rw [h.watchers]
      exact (h.idle.modelAlive (hq.valid.model r hlt)).2 hm
  nodup := .nil
  change r c hrc := nomatch hrc
  order := List.nil_sublist _

theorem FansOut.noted {order : List Subscriber} {fs : List (Ref .watcher × Change)}
    (h : FansOut n order w fs w') (hw : w'.Valid) (hn : w'.Noted w'') :
      FansOut n order w fs w'' := by
  have hres (k : Nat) (r : Ref .watcher) (v : Value) : w''.Resolves k r v ↔ w'.Resolves k r v := by
    rw [World.resolves_iff (hn.valid hw), World.resolves_iff hw, hn.look_eq]
  exact
    { nodup := h.nodup
      order := h.order
      once := fun r hr hm k v hv => h.once r hr hm k v ((hres k r v).1 hv)
      change := fun r c hc => (h.change r c hc).imp_left (hres n r c.new).2 }

/-- Where a write changes something those fire, in the order of registration, who have something new
to see. -/
theorem FansOut.of_turns (hq : w.Quiet) (hs : w.Writable source) (hv : v.Within w.objects.size)
    (hc : CalmTurns (Engine.ofFuel n) (w.due source) (w.turns source v)) {k : Except Fault Nat}
    (h : updateEach (Subscriber.update (Engine.ofFuel n)) (w.due source) (w.turns source v) =
      some (k, w')) (hn : w'.Noted w'') :
    FansOut n (w.registry source).order w
      (fired (Engine.ofFuel n) (w.due source) (w.turns source v)) w'' := by
  have hp := World.passes_turns hq.valid hs hv
  have hmade (s : Subscriber) (hs : s ∈ w.due source) : s.Made (w.turns source v) :=
    (hq.valid.made_of_alive (World.alive_of_mem_due hs)).passes hp
  have hnd : (w.due source).Nodup := (hq.valid.sound source).nodup.filter _
  have hi := hc.idle hp.valid hmade h
  have hf := hc.fans hp.valid hmade hnd h
  have hw' :=
    (updateEach_passes (Subscriber.update_settling (Engine.calls n)) hp.valid hmade h).1.valid
  have hnodup :
      ((fired (Engine.ofFuel n) (w.due source) (w.turns source v)).map Prod.fst).Nodup := by
    have h := hf.order.nodup hnd
    rw [← Function.comp_def, ← List.map_map] at h
    exact List.Nodup.of_map _ h
  refine FansOut.noted ⟨fun r hr hm k u hu hne => ?_, hnodup, fun r c hrc => ?_, ?_⟩ hw' hn
  · have hlt := hq.valid.lt_of_alive hr
    have hm' := hm
    obtain ⟨ms, hl⟩ := (World.resolves_iff hw').1 hu
    rw [← World.modelAlive_turns w source v, ← World.watchers_turns w source v] at hm'
    -- Either it is due, or it was current before and what it sees has not changed.
    obtain hd | ⟨res, ⟨j, ms', hl', -⟩, hag⟩ :=
      hp.current [] hq.current r (World.alive_turns hr) hm'
    · rw [List.append_nil] at hd
      refine List.count_eq_one_of_mem hnodup (hf.complete r hd hm' k u ms hl fun hsame => hne ?_)
      rw [World.watchers_turns] at hsame
      exact .inl hsame
    · have hlt' : r.index < (w.turns source v).watchers.size := by rwa [World.watchers_turns]
      have e := World.look_unique hw' (hi.look_eq hp.valid hlt' hl') hl
      rw [World.watchers_turns] at hag
      exact absurd (hag u e) hne
  · obtain ⟨ho, hne, ms, hl⟩ := hf.change r c hrc
    rw [World.watchers_turns] at ho
    exact ⟨(World.resolves_iff hw').2 ⟨ms, hl⟩, ho, hne⟩
  · exact hf.order.trans List.filter_sublist

namespace Site

variable {site : Site} {res : Except Fault Bool}

theorem fired_of_find (h : site.find (Engine.ofFuel n).compute w = some (source, w')) :
    site.fired (Engine.ofFuel n) v w = if w'.changes source v then
      ViewBinding.fired (Engine.ofFuel n) (w'.due source) (w'.turns source v) else [] := by
  simp only [fired, h]

theorem written_of_write (hw : w.Valid)
    (hs : site.find (Engine.ofFuel n).compute w = some (source, w''))
    (h : site.write (Engine.ofFuel n) v w = some (res, w')) :
    ∃ es, w'' = { w with trace := es } ∧
      World.Written (Subscriber.update (Engine.ofFuel n)) source v { w with trace := es } res
        w' := by
  obtain ⟨hn, -⟩ | ⟨source', es, hs', hdone⟩ := Site.write_written hw h
  · exact nomatch hn.symm.trans hs
  · cases hs'.symm.trans hs
    exact ⟨es, rfl, hdone⟩

/-- A write that starts nothing which changes the data fans out to those who have something new to
see. -/
theorem write_fansOut (hq : w.Quiet) (hv : v.Within w.objects.size)
    (hc : site.Calm (Engine.ofFuel n) v w)
    (hs : site.find (Engine.ofFuel n).compute w = some (source, w''))
    (hw : site.write (Engine.ofFuel n) v w = some (res, w')) :
    FansOut n (w.registry source).order w (site.fired (Engine.ofFuel n) v w) w' := by
  obtain ⟨es, rfl, hdone⟩ := written_of_write hq.valid hs hw
  have hn : w.Noted { w with trace := es } := .trace w es
  rw [fired_of_find hs]
  by_cases hch : World.changes { w with trace := es } source v
  · obtain ⟨-, k, w₁, hk, es', rfl⟩ := hdone.traced hch
    rw [if_pos hch]
    have hfan := FansOut.of_turns ((hn.onward hq.valid).quiet hq) (site.find_writable hs) hv
      (hc _ _ hs hch) hk (.trace w₁ es')
    exact ⟨hfan.once, hfan.nodup, hfan.change, hfan.order⟩
  · obtain ⟨-, rfl⟩ := hdone.same hch
    rw [if_neg hch]
    exact .of_noted hq hn _

end Site

theorem Site.find_started {site : Site} (h : site.find (Engine.ofFuel n).compute w =
    some (source, w')) : w'.started = w.started := by
  cases site with
  | cell c =>
    cases h
    rfl
  | property o key =>
    obtain ⟨_, -, he⟩ := Option.map_eq_some_iff.1 h
    cases he
    rfl
  | path p root =>
    rw [find] at h
    split at h
    · obtain ⟨hs, hg⟩ :=
        (Path.follow_proceeds (Engine.compute_proceeds n) p p.parents _).once _ _ _ ‹_›
      split at h
      · obtain ⟨_, -, he⟩ := Option.map_eq_some_iff.1 h
        cases he
        exact World.Glances.started hg
      · cases h
    · cases h

/-- The trace tells the start of just those callbacks whose watchers fire because of a write, in the
order in which they fire. -/
theorem Site.write_started (hq : w.Quiet) (hv : v.Within w.objects.size) {site : Site}
    (hc : site.Calm (Engine.ofFuel n) v w) (ha : site.Alone (Engine.ofFuel n) v w)
    (hs : site.find (Engine.ofFuel n).compute w = some (source, w'')) {res : Except Fault Bool}
    (hw : site.write (Engine.ofFuel n) v w = some (res, w')) :
    w'.started = w.started ++ (site.fired (Engine.ofFuel n) v w).map w.call := by
  have hfind := Site.find_started hs
  obtain ⟨es, rfl, hdone⟩ := written_of_write hq.valid hs hw
  rw [fired_of_find hs]
  by_cases hch : World.changes { w with trace := es } source v
  · obtain ⟨-, k, w₁, hk, key?, i, rfl⟩ := hdone.turns hch
    have hq' : World.Quiet { w with trace := es } :=
      ((World.Noted.trace w es).onward hq.valid).quiet hq
    have hp := World.passes_turns hq'.valid (find_writable hs) hv
    have hmade (s : Subscriber) (hs : s ∈ World.due { w with trace := es } source) :
        s.Made (World.turns { w with trace := es } source v) :=
      (hq'.valid.made_of_alive (World.alive_of_mem_due hs)).passes hp
    have hturns : (World.turns { w with trace := es } source v).started = w.started := by
      rw [← hfind]
      cases source <;> rfl
    have hcall : (World.turns { w with trace := es } source v).call = w.call := by
      cases source <;> rfl
    rw [if_pos hch, World.started_leaveBehind,
      (ha _ _ hs hch).started (hc _ _ hs hch) hp.valid hmade hk, hturns, hcall]
  · obtain ⟨-, rfl⟩ := hdone.same hch
    rw [if_neg hch]
    exact hfind.trans (List.append_nil _).symm

/-- From any moment of a run, if what it starts leaves the data alone and starts no callback itself,
a write that changes a property starts the callback of each watcher exactly once that has something
new to see, with what that is and with what it saw before, in the order in which they registered
with the property; and writing the same value to a cell starts none. -/
theorem Moment.fan_out (h : Moment f w) (hv : v.Within w.objects.size) {site : Site}
    (hc : site.Calm (Engine.ofFuel n) v w) (ha : site.Alone (Engine.ofFuel n) v w)
    (hs : site.find (Engine.ofFuel n).compute w = some (source, w'')) {res : Except Fault Bool}
    (hw : site.write (Engine.ofFuel n) v w = some (res, w')) :
    ∃ fs : List (Ref .watcher × Change),
      w'.started = w.started ++ fs.map (fun p => (p.1, (w.watchers.get p.1).callback, p.2)) ∧
      FansOut n (w.registry source).order w fs w' ∧
      if w''.changes source v then res = .ok true else res = .ok false ∧ fs = [] := by
  refine ⟨_, Site.write_started h.quiet hv hc ha hs hw, Site.write_fansOut h.quiet hv hc hs hw, ?_⟩
  obtain ⟨es, rfl, hdone⟩ := Site.written_of_write h.quiet.valid hs hw
  split
  · exact (hdone.traced ‹_›).1
  · refine ⟨(hdone.same ‹_›).1, ?_⟩
    rw [Site.fired_of_find hs, if_neg ‹_›]

def waiters : List Step :=
  [.build none (some (.data (.object [("a", .object [])]))) [] [],
    .watcher none "u" "a.b" [.fail "no"],
    .watcher none "v" "a.b" []]

def Callback.idles : Callback → Bool
  | .run _ [] => true
  | .run _ [.fail _] => true
  | .run _ _ => false
  | _ => true

theorem Engine.idles_of_callback {callback : Callback} (h : callback.idles) {id : String}
    {steps : List Step} (hc : callback = .run id steps) : (Engine.ofFuel (n + 1)).Idles steps := by
  subst hc
  rintro f w p - hp
  rw [Callback.idles.eq_def] at h
  split at h
  · cases ‹Callback.run id steps = _›
    cases hp
    exact .refl w
  · cases ‹Callback.run id steps = _›
    cases hp
    exact .refl w
  · cases h
  · rename_i hn
    exact (hn id steps rfl).elim

theorem Callback.started_of_idles {callback : Callback} (h : callback.idles) {r : Ref .watcher}
    {m : Ref .model} {change : Change} {p : Except Fault Unit × World}
    (hp : callback.perform (Engine.ofFuel (n + 1)) r m change w = some p) :
    p.2.started = w.started ++ [(r, callback, change)] := by
  have htold := w.started_tell (.called r callback change)
  rw [Callback.idles.eq_def] at h
  split at h
  · cases hp
    exact htold
  · cases hp
    exact htold
  · cases h
  · cases callback with
    | run id steps =>
      rename_i hn
      exact (hn id steps rfl).elim
    | write face node =>
      cases hp
      exact (World.started_tell _ (.wrote m face node change.new.text)).trans
        ((List.append_nil _).trans htold)
    | render node t =>
      rw [Callback.render_apply] at hp
      split at hp
      · obtain ⟨⟨res, w₁⟩, hr, rfl⟩ := Option.map_eq_some_iff.1 hp
        obtain ⟨hs, hg⟩ := Template.render_glances _ t m _ _ _ hr
        have hw₁ := (World.Glances.started hg).trans htold
        cases res with
        | error g => exact hw₁
        | ok s =>
          have hwrote := (w₁.started_tell (.wrote m .text node s)).trans (List.append_nil _)
          exact hwrote.trans hw₁
      · cases hp
        exact htold

theorem AloneTurns.of_idles {L : List Subscriber} (hw : w.Valid)
    (hc : CalmTurns (Engine.ofFuel (n + 1)) L w) (hL : ∀ s ∈ L, ∃ r, s = .watcher r ∧
      r.index < w.watchers.size ∧ (w.watchers.get r).callback.idles) :
    AloneTurns (Engine.ofFuel (n + 1)) L w := by
  induction L generalizing w with
  | nil => trivial
  | cons s rest ih =>
    obtain ⟨r, rfl, hr, hcb⟩ := hL s List.mem_cons_self
    refine ⟨fun c w₁ _ p hp => ?_, fun p hp => ?_⟩
    · rw [Callback.started_of_idles hcb hp, List.length_append]
      exact Nat.le_refl _
    · have hpass :=
        ((Subscriber.update_settling (Engine.calls _)).turn (s := .watcher r) hw hr hp).1
      have hi := hc.1.idle hw hr hp
      refine ih hpass.valid (hc.2 p hp) fun s hs => ?_
      obtain ⟨r', rfl, hr', hcb'⟩ := hL s (List.mem_cons_of_mem _ hs)
      exact ⟨r', rfl, Nat.lt_of_lt_of_le hr' hi.watchers, by rwa [hi.callback r' hr']⟩

theorem Moment.fan_out_waiters : ∃ (w w' w'' : World) (v : Value) (site : Site) (source : Source)
    (res : Except Fault Bool), Moment {} w ∧ v.Within w.objects.size ∧
      site.Calm (Engine.ofFuel 4) v w ∧ site.Alone (Engine.ofFuel 4) v w ∧
      site.find (Engine.ofFuel 4).compute w = some (source, w'') ∧
      site.write (Engine.ofFuel 4) v w = some (res, w') ∧
      ∃ fs : List (Ref .watcher × Change),
        w'.started = w.started ++ fs.map (fun p => (p.1, (w.watchers.get p.1).callback, p.2)) ∧
        FansOut 4 (w.registry source).order w fs w' ∧
        if w''.changes source v then res = .ok true else res = .ok false ∧ fs = [] := by
  let site : Site := .path ⟨["a", "b"], by simp⟩ ⟨1⟩
  obtain ⟨w, h, hc⟩ := Moment.exists_of_run 4 [] waiters
    (fun w => (site.write (Engine.ofFuel 4) (.bool true) w).isSome &&
      (site.find (Engine.ofFuel 4).compute w).any fun p =>
        p.2.due p.1 == [.watcher ⟨0⟩, .watcher ⟨1⟩] && p.2.watchers.size == 2 &&
          (p.2.watchers.get ⟨0⟩).callback.idles && (p.2.watchers.get ⟨1⟩).callback.idles)
    (by simp [waiters, Step.AllPlain, Step.Plain, Step.PlainMethods, Expr.IsOwn])
    (by decide +kernel)
  simp only [Bool.and_eq_true, Option.any_eq_true, Option.isSome_iff_exists, beq_iff_eq] at hc
  obtain ⟨⟨⟨res, w'⟩, hw⟩, ⟨source, w''⟩, hs, ⟨⟨hd, hsize⟩, h0⟩, h1⟩ := hc
  have hv : (Value.bool true).Within w.objects.size := Value.within_of_object? rfl
  have hturns (source' : Source) (w₁ : World)
      (hs' : site.find (Engine.ofFuel 4).compute w = some (source', w₁)) :
      CalmTurns (Engine.ofFuel 4) (w₁.due source') (w₁.turns source' (.bool true)) ∧
        AloneTurns (Engine.ofFuel 4) (w₁.due source') (w₁.turns source' (.bool true)) := by
    obtain ⟨hn, -⟩ | ⟨source'', es, hs'', -⟩ := Site.write_written h.quiet.valid hw
    · cases hn.symm.trans hs
    cases hs''.symm.trans hs
    cases hs'.symm.trans hs
    have hvalid := (World.passes_turns (h.trace es).quiet.valid (site.find_writable hs) hv).valid
    have hidles (s : Subscriber) (hm : s ∈ World.due { w with trace := es } source) : ∃ r,
        s = .watcher r ∧ r.index < w.watchers.size ∧ (w.watchers.get r).callback.idles := by
      rw [hd] at hm
      obtain rfl | rfl : s = .watcher ⟨0⟩ ∨ s = .watcher ⟨1⟩ := by simpa using hm
      · exact ⟨⟨0⟩, rfl, by rw [hsize]; exact Nat.zero_lt_two, h0⟩
      · exact ⟨⟨1⟩, rfl, by rw [hsize]; exact Nat.one_lt_two, h1⟩
    have hcalm : CalmTurns (Engine.ofFuel 4) (World.due { w with trace := es } source)
        (World.turns { w with trace := es } source (.bool true)) := by
      refine .of_idles hvalid fun s hm => ?_
      rw [World.watchers_turns]
      obtain ⟨r, hr, hlt, hcb⟩ := hidles s hm
      exact ⟨r, hr, hlt, fun _ _ => Engine.idles_of_callback hcb⟩
    refine ⟨hcalm, .of_idles hvalid hcalm ?_⟩
    rw [World.watchers_turns]
    exact hidles
  have hcalm : site.Calm (Engine.ofFuel 4) (.bool true) w := fun _ _ hs _ => (hturns _ _ hs).1
  have halone : site.Alone (Engine.ofFuel 4) (.bool true) w := fun _ _ hs _ => (hturns _ _ hs).2
  exact ⟨w, w', w'', .bool true, site, source, res, h, hv, hcalm, halone, hs, hw,
    h.fan_out hv hcalm halone hs hw⟩

def World.scriptOf? (w : World) : Subscriber → Option String
  | .watcher r =>
    match (w.watchers.get r).callback with
    | .run id _ => some id
    | _ => none
  | .reaction _ => none

def Effect.script? : Effect → Option String
  | .callback id _ _ => some id
  | _ => none

def overtaking : List Step :=
  [.build none (some (.data (.object [("a", .null)]))) [] [],
    .watcher none "u" "a" [.watcherUpdate "x"],
    .watcher none "v" "a" [],
    .watcher none "x" "a" []]

/-- Updates that callbacks start come before those of others who registered earlier. -/
theorem overtaking_order : ∃ (w w' : World) (res : Except Fault Bool), Moment {} w ∧
    Site.write (Engine.ofFuel 4) (.bool true) (.cell ⟨0⟩) w = some (res, w') ∧
    (w.registry (.cell ⟨0⟩)).order.filterMap w.scriptOf? = ["u", "v", "x"] ∧
    (w'.trace.toList.filterMap Happening.effect?).filterMap Effect.script? = ["u", "x", "v"] := by
  obtain ⟨w, h, hc⟩ := Moment.exists_of_run 4 [] overtaking
    (fun w => (w.registry (.cell ⟨0⟩)).order.filterMap w.scriptOf? == ["u", "v", "x"] &&
      (Site.write (Engine.ofFuel 4) (.bool true) (.cell ⟨0⟩) w).any fun p =>
        (p.2.trace.toList.filterMap Happening.effect?).filterMap Effect.script? ==
          ["u", "x", "v"])
    (by simp [overtaking, Step.AllPlain, Step.Plain, Step.PlainMethods, Expr.IsOwn])
    (by decide +kernel)
  simp only [Bool.and_eq_true, Option.any_eq_true, beq_iff_eq] at hc
  obtain ⟨ho, ⟨res, w'⟩, hw, ht⟩ := hc
  exact ⟨w, w', res, h, hw, ho, ht⟩

end ViewBinding
