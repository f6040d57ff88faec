import ViewBinding.Proofs.Assigns.Cells
import ViewBinding.Proofs.Assigns.Stops
import ViewBinding.Proofs.Ripple.Routes
import ViewBinding.Proofs.Rounds

/-! Reading after writing. An object may be reached on many ways and may contain itself, so a write
is seen on all of them. But it is the write of one property, and all others hold what they held. -/

namespace ViewBinding

variable {w w' w'' : World} {P : Step → Prop} {source : Source} {o o' root : Ref .object}
  {key key' : String} {u v : Value} {p : Path} {segments : List String}
  {update : Subscriber → Action Unit}

inductive Content
  | value (v : Value)
  | computed (p : Computed)

namespace World

def content? (w : World) (o : Ref .object) (key : String) : Option Content :=
  (w.slot? o key).map fun
    | .cell c => .value (w.cells.get c).value
    | .computed p => .computed p

theorem content?_eq_value_iff : w.content? o key = some (.value v) ↔
    ∃ c, w.slot? o key = some (.cell c) ∧ (w.cells.get c).value = v := by
  rw [content?]
  cases w.slot? o key with
  | none => simp
  | some slot => cases slot <;> simp

theorem content?_congr (hs : w'.slot? o key = w.slot? o key)
    (hv : ∀ c, w.slot? o key = some (.cell c) →
      (w'.cells.get c).value = (w.cells.get c).value) :
    w'.content? o key = w.content? o key := by
  rw [content?, content?, hs]
  cases h : w.slot? o key with
  | none => rfl
  | some slot =>
    cases slot with
    | cell c => exact congrArg (fun v => some (Content.value v)) (hv c h)
    | computed p => rfl

theorem content?_of_sight (h : w'.sight = w.sight) : w'.content? o key = w.content? o key :=
  content?_congr (congrFun (congrFun (congrArg Sight.slot? h) o) key) fun c _ =>
    congrFun (congrArg Sight.value h) c

theorem lt_of_slot? {slot : Slot} (h : w.slot? o key = some slot) : o.index < w.objects.size := by
  by_contra hlt
  rw [slot?, w.objects.get_of_size_le (Nat.le_of_not_lt hlt)] at h
  simp [show (default : Object).slots = ∅ from rfl] at h

theorem Grown.content? (h : w.Grown w') (hw : w.Closed) (ho : o.index < w.objects.size)
    (key : String) : w'.content? o key = w.content? o key :=
  content?_congr (by rw [slot?, slot?, h.object o ho]) fun c hs =>
    congrArg Cell.value (h.cell c (hw.cell o key c hs))

abbrev KeepsData (w w' : World) : Prop := w.Leaves w' {l | l.Within w}

theorem KeepsData.trans (h : w.KeepsData w') (h' : w'.KeepsData w'') : w.KeepsData w'' :=
  Leaves.trans h (h'.mono fun _ hl => Leaves.within h hl)

theorem KeepsData.content? (h : w.KeepsData w') (hw : w.OwnsCells) (ho : o.index < w.objects.size)
    (key : String) : w'.content? o key = w.content? o key :=
  content?_congr (h.same (.object o) ho key) fun c hs => h.same (.cell c) (hw.made hs)

theorem OwnsCells.turns (hw : w.OwnsCells) (source : Source) (v : Value) :
    (w.turns source v).OwnsCells := by
  have hput : (w.put source v).OwnsCells := by
    cases source with
    | cell c => exact (hw.store c v).setRegistry (.cell c) ((w.registry (.cell c)).prune w.alive)
    | waiting o key => exact hw.inserted o key v
    | registry r => exact hw
  exact hput.of_eq rfl rfl

theorem content?_turns_cell (w : World) (c : Ref .cell) (v : Value) :
    (w.turns (.cell c) v).content? o key = (w.store c v).content? o key :=
  content?_of_sight ((w.store c v).sight_setRegistry (.cell c) _)

theorem content?_turns_self (hw : w.OwnsCells) (hs : w.property? o key = some source)
    (ho : o.index < w.objects.size) (v : Value) :
    (w.turns source v).content? o key = some (.value v) := by
  unfold property? at hs
  split at hs
  · rename_i c hslot
    cases hs
    rw [content?_turns_cell]
    exact content?_eq_value_iff.2 ⟨c, hslot, value_store (hw.made hslot) v⟩
  · cases hs
  · cases hs
    refine content?_eq_value_iff.2 ⟨w.cells.fresh, ?_, value_fresh_cell w v⟩
    exact (slot?_inserted o o key key v).trans (slot?_setSlot_self ho key _)

theorem content?_turns_of_ne (hw : w.OwnsCells) (hs : w.property? o key = some source)
    (hne : (o', key') ≠ (o, key)) (v : Value) :
    (w.turns source v).content? o' key' = w.content? o' key' := by
  unfold property? at hs
  split at hs
  · rename_i c hslot
    cases hs
    rw [content?_turns_cell]
    refine content?_congr rfl fun c' hslot' => ?_
    obtain e | ⟨rfl, -⟩ := w.store_cases c c' v
    · rw [e]
    · obtain ⟨rfl, rfl⟩ := hw.own hslot hslot'
      exact absurd rfl hne
  · cases hs
  · cases hs
    refine content?_congr ?_ fun c' hslot' => ?_
    · refine (slot?_inserted o o' key key' v).trans ?_
      obtain e | ⟨rfl, rfl, -⟩ := w.slot?_insertCell_cases o key v o' key'
      · exact e
      · exact absurd rfl hne
    · obtain e | ⟨rfl, -⟩ := w.get_insertCell_cases o key v c'
      · exact congrArg Cell.value e
      · exact absurd (hw.made hslot') (Nat.lt_irrefl _)

/-- What becomes of the data when a value is written to one property: that holds the value, or one
that is the same, and all others hold what they held. None is added to an object that was there. -/
structure Overwrites (w : World) (o : Ref .object) (key : String) (v u : Value) (w' : World) :
    Prop where
  holds : w'.content? o key = some (.value u)
  same : u.same v ∨ u = v ∧ ∃ x, v = .number x ∧ x.isNaN
  others : ∀ o' key', o'.index < w.objects.size → (o', key') ≠ (o, key) →
    w'.content? o' key' = w.content? o' key'

theorem Overwrites.of_grown (h : w'.Overwrites o key v u w'') (hg : w.Grown w') (hw : w.Closed) :
    w.Overwrites o key v u w'' where
  holds := h.holds
  same := h.same
  others o' key' ho hne :=
    (h.others o' key' (Nat.lt_of_lt_of_le ho hg.objects) hne).trans (hg.content? hw ho key')

end World

/-- Whether those who are told of a write change no data, in whatever calls it makes. -/
def Source.Undisturbed (update : Subscriber → Action Unit) (source : Source) (v : Value)
    (w : World) : Prop :=
  w.changes source v → ∀ calls w', Round update (w.turns source v) calls w' →
    calls.map Call.subscriber = w.due source → ∀ c ∈ calls, c.start.KeepsData c.stop

theorem Round.keepsData {calls : List Call} (h : Round update w calls w')
    (hc : ∀ c ∈ calls, c.start.KeepsData c.stop) : w.KeepsData w' := by
  induction h with
  | nil w => exact .refl w _
  | @cons c cs w' _ _ ih =>
    have hafter : c.stop.KeepsData c.after := by
      obtain ⟨_, _, ⟨⟩, _⟩ := c <;> exact .of_eq rfl rfl (Nat.le_refl _)
    have hrest := ih fun c' hc' => hc c' (List.mem_cons_of_mem c hc')
    exact ((hc c List.mem_cons_self).trans hafter).trans hrest

theorem World.Written.overwrites {b : Bool} (h : w.Written update source v (.ok b) w')
    (hw : w.OwnsCells) (hs : w.property? o key = some source) (ho : o.index < w.objects.size)
    (hq : source.Undisturbed update v w) : ∃ u, w.Overwrites o key v u w' := by
  by_cases hch : w.changes source v
  · obtain ⟨-, k, w₁, hk, es, rfl⟩ := h.traced hch
    obtain ⟨calls, w₂, hr, hdue⟩ | ⟨calls, s, rest, w₂, hr, hdue, hn⟩ :=
      updateEach_round update (w.due source) (w.turns source v)
    · have he := hr.updateEach
      rw [hdue, hk] at he
      cases he
      have hkept := hr.keepsData (hq hch calls w₁ hr hdue)
      have hcells := hw.turns source v
      have hsize : (w.turns source v).objects.size = w.objects.size := (size_put w source v).1
      have hcontent (o' : Ref .object) (key' : String) (ho' : o'.index < w.objects.size) :
          w₁.content? o' key' = (w.turns source v).content? o' key' :=
        hkept.content? hcells (hsize ▸ ho') key'
      -- Callbacks keep the data, so what the write put there before the first of them is still
      -- there.
      refine ⟨v, (hcontent o key ho).trans (content?_turns_self hw hs ho v), ?_,
        fun o' key' ho' hne => (hcontent o' key' ho').trans (content?_turns_of_ne hw hs hne v)⟩
      obtain hsame | ⟨x, -, rfl, -, hx, -⟩ := v.agrees_self
      · exact .inl hsame
      · exact .inr ⟨rfl, x, rfl, hx⟩
    · rw [hdue, hr.stuck hn rest] at hk
      cases hk
  · obtain ⟨-, rfl⟩ := h.same hch
    unfold property? at hs
    split at hs
    · rename_i c hslot
      cases hs
      refine ⟨(w'.cells.get c).value, content?_eq_value_iff.2 ⟨c, hslot, rfl⟩, .inl ?_,
        fun _ _ _ _ => rfl⟩
      simpa [changes] using hch
    · cases hs
    · cases hs
      exact absurd rfl hch

section Routes

namespace World

theorem Route.transfer (h : w.Route o segments o')
    (hc : ∀ before key rest o₁, segments = before ++ key :: rest → w.Route o before o₁ →
      o₁.index < w.objects.size → w'.content? o₁ key = w.content? o₁ key) :
    w'.Route o segments o' := by
  induction h with
  | nil => exact .nil _
  | @cons o₁ o₂ o₃ key rest c hs hv _ ih =>
    have hcontent := hc [] key rest o₁ rfl (.nil o₁) (lt_of_slot? hs)
    rw [content?_eq_value_iff.2 ⟨c, hs, hv⟩] at hcontent
    obtain ⟨c', hs', hv'⟩ := content?_eq_value_iff.1 hcontent
    refine .cons hs' hv' (ih fun before key' rest' o₁ he hr => ?_)
    exact hc (key :: before) key' rest' o₁ (by rw [he]; rfl) (.cons hs hv hr)

theorem read_of_content? (compute : Computed → Reading Value)
    (h : w.content? o key = some (.value v)) (e : Evaluation) :
    ∃ e' w', Object.read compute o key e w = some ((.ok v, e'), w') ∧ w'.sight = w.sight := by
  obtain ⟨c, hs, rfl⟩ := content?_eq_value_iff.1 h
  let left := (Mark.read (.cell c)).leave (e, w)
  have hsight : left.2.sight = w.sight := Mark.sight_leave (.read (.cell c)) (e, w)
  refine ⟨left.1, left.2, ?_, hsight⟩
  rw [Object.read, Reading.getWorld_bind, hs]
  show (Reading.register (.cell c) >>= fun _ => getThe World >>= fun w =>
    pure (w.cells.get c).value : Reading Value) e w = _
  rw [Reading.bind_apply, Reading.register_apply]
  have hvalue : (left.2.cells.get c).value = (w.cells.get c).value :=
    congrFun (congrArg Sight.value hsight) c
  rw [← hvalue]
  rfl

theorem Route.follow_for (h : w.Route o segments o') (compute : Computed → Reading Value)
    (p : Path) (rest : List String) (e : Evaluation) {w₀ : World} (hw : w₀.sight = w.sight) :
    ∃ e' w₁, p.follow compute (segments ++ rest) (.object o) e w₀ =
      p.follow compute rest (.object o') e' w₁ ∧ w₁.sight = w.sight := by
  induction h generalizing e w₀ with
  | nil => exact ⟨e, w₀, rfl, hw⟩
  | @cons o₁ o₂ o₃ key segments c hs hv _ ih =>
    have hcontent : w₀.content? o₁ key = some (.value (.object o₂)) :=
      (content?_of_sight hw).trans (content?_eq_value_iff.2 ⟨c, hs, hv⟩)
    obtain ⟨e', w₁, hread, hw₁⟩ := read_of_content? compute hcontent e
    obtain ⟨e'', w₂, hfollow, hw₂⟩ := ih e' (hw₁.trans hw)
    refine ⟨e'', w₂, ?_, hw₂⟩
    rw [← hfollow]
    show (Object.read compute o₁ key >>= fun u => p.follow compute (segments ++ rest) u) e w₀ = _
    rw [Reading.bind_apply, hread]

theorem Route.resolve_for (h : w.Route root p.parents o)
    (hv : w.content? o p.last = some (.value v)) (compute : Computed → Reading Value)
    (e : Evaluation) : ∃ e' w', p.resolve compute root e w = some ((.ok v, e'), w') := by
  obtain ⟨e₁, w₁, hfollow, hw₁⟩ := h.follow_for compute p [p.last] e rfl
  obtain ⟨e', w', hread, -⟩ := read_of_content? compute ((content?_of_sight hw₁).trans hv) e₁
  refine ⟨e', w', ?_⟩
  rw [Path.resolve, ← p.parents_append_last, hfollow]
  show (Object.read compute o p.last >>= fun u => p.follow compute [] u) e₁ w₁ = _
  rw [Reading.bind_apply, hread]
  rfl

end World

variable {compute : Computed → Reading Value}

/-- Whether nothing is read from a computed property or from one property of one object on the way
to the owner of the last property. -/
def Path.Bypasses (compute : Computed → Reading Value) (p : Path) (root o : Ref .object)
    (key : String) (w : World) : Prop :=
  ∀ before segment rest o₁ w₁, p.parents = before ++ segment :: rest →
    (p.follow compute before (.object root)).once w = some (.ok (.object o₁), w₁) →
      (∀ c, w₁.slot? o₁ segment ≠ some (.computed c)) ∧ (o₁, segment) ≠ (o, key)

theorem World.Route.append_inv {rest : List String}
    (h : w.Route o (segments ++ rest) o') : ∃ o₁, w.Route o segments o₁ ∧ w.Route o₁ rest o' := by
  induction segments generalizing o with
  | nil => exact ⟨o, .nil o, h⟩
  | cons segment segments ih =>
    cases h with
    | cons hs hv h =>
      obtain ⟨o₁, h₁, h₂⟩ := ih h
      exact ⟨o₁, .cons hs hv h₁, h₂⟩

theorem World.Route.bypasses (h : w.Route root p.parents o) (hkey : key ∉ p.parents)
    (o' : Ref .object) : p.Bypasses compute root o' key w := by
  intro before segment rest o₁ w₁ he hbefore
  have hroute := he ▸ h
  obtain ⟨o₂, hroute, hrest⟩ := hroute.append_inv
  cases (hroute.follow_once compute p).symm.trans hbefore
  cases hrest with
  | cons hs _ _ =>
    refine ⟨fun c hc => (by cases hs.symm.trans hc), fun e => hkey ?_⟩
    rw [he, ← (Prod.mk.inj e).2]
    exact List.mem_append_right before List.mem_cons_self

theorem Path.route_of_follow (hc : Consulting compute)
    (h : (p.follow compute segments (.object o)).once w = some (.ok (.object o'), w'))
    (hn : ∀ before segment rest o₁ w₁, segments = before ++ segment :: rest →
      (p.follow compute before (.object o)).once w = some (.ok (.object o₁), w₁) →
        ∀ c, w₁.slot? o₁ segment ≠ some (.computed c)) : w.Route o segments o' ∧ w' = w := by
  induction segments generalizing o with
  | nil =>
    cases h
    exact ⟨.nil _, rfl⟩
  | cons segment rest ih =>
    have hstep : (p.follow compute (segment :: rest) (.object o)).once =
        (Object.read compute o segment).once >>= fun u => (p.follow compute rest u).once :=
      follow_once_cons hc segment rest (.object o)
    -- What ends at an object goes on from one, so the value at this segment is an object.
    have hend {u : Value} (h : (p.follow compute rest u).once w = some (.ok (.object o'), w')) :
        ∃ o₂, u = .object o₂ := by
      cases rest with
      | nil =>
        cases h
        exact ⟨o', rfl⟩
      | cons next rest =>
        rw [follow_once_cons hc] at h
        cases u <;> first | exact ⟨_, rfl⟩ | cases h
    rw [hstep, Action.bind_apply] at h
    cases hs : w.slot? o segment with
    | none =>
      rw [Object.read_once_missing hs] at h
      obtain ⟨_, ⟨⟩⟩ := hend h
    | some slot =>
      cases slot with
      | computed c => exact absurd hs (hn [] segment rest o w rfl rfl c)
      | cell c =>
        rw [Object.read_once_cell hs] at h
        obtain ⟨o₂, hv⟩ := hend h
        dsimp only at h
        rw [hv] at h
        obtain ⟨hroute, hw⟩ := ih h fun before segment' rest' o₁ w₁ he hbefore => by
          refine hn (segment :: before) segment' rest' o₁ w₁ (by rw [he]; rfl) ?_
          rw [follow_once_cons hc]
          show ((Object.read compute o segment).once >>= fun u =>
            (p.follow compute before u).once) w = _
          rw [Action.bind_apply, Object.read_once_cell hs, hv]
          exact hbefore
        exact ⟨.cons hs hv hroute, hw⟩

end Routes

theorem Site.find_path_iff {compute : Computed → Reading Value} :
    (Site.path p root).find compute w = some (source, w') ↔ ∃ o,
      (p.follow compute p.parents (.object root)).once w = some (.ok (.object o), w') ∧
        w'.property? o p.last = some source := by
  rw [find]
  split
  · rename_i parent w₁ hfollow
    rw [hfollow]
    cases parent with
    | object o =>
      simp only [Path.owner, Option.map_eq_some_iff, Prod.mk.injEq]
      constructor
      · rintro ⟨s, hs, rfl, rfl⟩
        exact ⟨o, rfl, hs⟩
      · rintro ⟨o', ho, hs⟩
        cases ho
        exact ⟨source, hs, rfl, rfl⟩
    | _ => simp [Path.owner]
  · rename_i hfollow
    simp only [reduceCtorEq, false_iff, not_exists, not_and]
    exact fun o ho => absurd ho (hfollow _ _)

section

variable {n : Nat}

theorem Source.undisturbed_of_stored (hw : w.Stored P) (hP : ¬Writable P) (hd : ¬Definable P)
    (source : Source) (v : Value) :
    source.Undisturbed (Subscriber.update (Engine.ofFuel n)) v w := by
  intro _ calls w' hr hdue c hc
  have hcourse (c : Call) (hmade : c.Made (Subscriber.update (Engine.ofFuel n)))
      (hs : c.subscriber ∈ c.start.subscribersInUse) (hstart : c.start.Stored P) :
      ∃ hs, c.start.Course P hs c.stop :=
    (Subscriber.update_proceeds (Engine.proceeds n) hs _ _ _ rfl hstart hmade).2
  have hstored (c : Call) (hmade : c.Made (Subscriber.update (Engine.ofFuel n)))
      (hs : c.subscriber ∈ c.start.subscribersInUse) (hstart : c.start.Stored P) :
      c.after.Stored P := by
    obtain ⟨hs, hcourse⟩ := hcourse c hmade hs hstart
    have hstop := World.Course.stored hcourse hstart
    obtain ⟨_, _, ⟨⟩, _⟩ := c <;> exact ⟨hstop.callback, hstop.methods, hstop.reaction⟩
  have huse : (w.turns source v).subscribersInUse = w.due source ++ w.subscribersInUse :=
    congrArg Uses.subscribers (w.uses_turns source v)
  have hsub : (calls.map Call.subscriber).Subperm (w.turns source v).subscribersInUse := by
    rw [hdue, huse]
    exact (List.sublist_append_left ..).subperm
  obtain ⟨hmade, hs, hstart⟩ :=
    hr.each (Subscriber.update_holding n) hstored hsub (hw.turns source v) c hc
  obtain ⟨_, hcourse⟩ := hcourse c hmade hs hstart
  exact World.Course.leaves hP hd hcourse fun _ hl => hl

/-- An assignment to a path that succeeds overwrites one property, the last one of the path,
whatever ways lead there, if those who are told of it change no data. The walk to it only looks
things up. If that reads nothing computed, and not the property itself, then the path leads to what
was written. -/
theorem Path.assign_aliased (hw : w.Closed) (hcells : w.OwnsCells)
    (hroot : root.index < w.objects.size) (p : Path) {b : Bool}
    (hq : ∀ source w₁, (Site.path p root).find (Engine.ofFuel n).compute w = some (source, w₁) →
      source.Undisturbed update v w₁)
    (h : p.assign (Engine.ofFuel n).compute update root v w = some (.ok b, w')) :
    ∃ o w₁ u, (p.follow (Engine.ofFuel n).compute p.parents (.object root)).once w =
        some (.ok (.object o), w₁) ∧ w.Consulted w₁ ∧
      w₁.Overwrites o p.last v u w' ∧ w.Overwrites o p.last v u w' ∧
      (p.Bypasses (Engine.ofFuel n).compute root o p.last w →
        ∀ compute e, ∃ e' w'', p.resolve compute root e w' = some ((.ok u, e'), w'')) := by
  have hc := Engine.consulting n
  rw [Path.assign_eq] at h
  obtain ⟨_, _, ⟨⟩⟩ | ⟨o, w₁, hreach, hwrite⟩ := Action.bind_eq_some h
  have hfollow := Path.reach_eq_ok_iff.1 hreach
  obtain ⟨-, -, _, ⟨⟩⟩ | ⟨source, hs, hwritten⟩ := Object.write_written hwrite
  have hlook := Path.follow_consulted hfollow
  -- The walk makes new data at most, so its world is in order as the first one is.
  have howner : o.index < w₁.objects.size := by
    rw [Reading.once_eq_map, Option.map_eq_some_iff] at hfollow
    obtain ⟨⟨⟨r, e⟩, w₂⟩, hfollow, he⟩ := hfollow
    cases he
    obtain ⟨-, -, hwithin⟩ := Path.follow_consults (G := True) hc p p.parents
      (fun _ => ⟨hw, fun o ho => by cases ho; exact hroot⟩) _ _ _ _ rfl hfollow
    exact hwithin trivial _ rfl o rfl
  have hcells₁ : w₁.OwnsCells := by
    obtain ⟨hs, hglances⟩ := (Path.follow_proceeds (Engine.compute_proceeds n) p p.parents
      (.object root)).once _ _ _ hfollow
    exact World.Glances.ownsCells hglances hcells
  obtain ⟨u, hover⟩ := hwritten.overwrites hcells₁ hs howner
    (hq source w₁ (Site.find_path_iff.2 ⟨o, hfollow, hs⟩))
  refine ⟨o, w₁, u, hfollow, hlook, hover, hover.of_grown hlook.grown hw, fun hbypass => ?_⟩
  obtain ⟨hroute, rfl⟩ := Path.route_of_follow hc hfollow fun before segment rest o₁ w₂ he hb =>
    (hbypass before segment rest o₁ w₂ he hb).1
  have hroute' : w'.Route root p.parents o :=
    hroute.transfer fun before segment rest o₁ he hbefore ho₁ =>
      hover.others o₁ segment ho₁ (hbypass before segment rest o₁ w₁ he (hbefore.follow_once _ p)).2
  exact fun compute e => hroute'.resolve_for hover.holds compute e

end

def knot : List Step :=
  [.build none (some (.data (.object [("a", .object [("b", .string "1")])]))) [] [],
    .write none "me" (.root "main"), .write none "x" (.get none "a")]

/-- While somebody watches it, a shared property is written around a cycle and read again. -/
theorem Path.assign_aliased_knot : ∃ (w w' : World) (p : Path) (root o : Ref .object) (u : Value),
    w.Closed ∧ w.OwnsCells ∧ root.index < w.objects.size ∧ 1 ≤ w.watchers.size ∧
      (∀ source w₁, (Site.path p root).find (Engine.ofFuel 4).compute w = some (source, w₁) →
        source.Undisturbed (Subscriber.update (Engine.ofFuel 4)) (.string "2") w₁) ∧
      p.assign (Engine.ofFuel 4).compute (Subscriber.update (Engine.ofFuel 4)) root (.string "2")
        w = some (.ok true, w') ∧
      w.Overwrites o p.last (.string "2") u w' ∧
      p.Bypasses (Engine.ofFuel 4).compute root o p.last w ∧
      ∃ e' w'', p.resolve (Engine.ofFuel 4).compute root {} w' = some ((.ok u, e'), w'') := by
  let P : Step → Prop := fun s => ¬s.Writes ∧ ¬s.Defines ∧ ¬s.Calls
  have hwritable : ¬Writable P := by
    rintro ⟨_, hP, hw⟩
    exact hP.1 hw
  have hdefinable : ¬Definable P := by
    rintro ⟨_, hP, hd⟩
    exact hP.2.1 hd
  let watch : List Step := [.watch none "u" "a.b" [.log (.get none "x.b")]]
  let p : Path := ⟨["me", "x", "b"], by decide⟩
  let leads (w : World) (key : String) (c : Ref .cell) (o : Ref .object) : Prop :=
    w.property? ⟨1⟩ key = some (.cell c) ∧ (w.cells.get c).value.object? = some o
  have hrun : ((World.ofTrees []).bind fun w => (w.steps (Engine.ofFuel 4) knot).bind fun q =>
      (q.2.steps (Engine.ofFuel 4) watch).bind fun r =>
        (p.assign (Engine.ofFuel 4).compute (Subscriber.update (Engine.ofFuel 4)) ⟨1⟩ (.string "2")
          r.2).map fun t => decide (q.2.watchers.size = 0 ∧ q.2.reactions.size = 0 ∧
            r.2.objects.size = 2 ∧ 1 ≤ r.2.watchers.size ∧ leads r.2 "me" ⟨2⟩ ⟨1⟩ ∧
              leads r.2 "x" ⟨3⟩ ⟨0⟩ ∧ t.1.toOption = some true)) = some true := by
    decide +kernel
  obtain ⟨w₀, h₀, hrun⟩ := Option.bind_eq_some_iff.1 hrun
  obtain ⟨⟨outcomes, w₁⟩, h₁, hrun⟩ := Option.bind_eq_some_iff.1 hrun
  obtain ⟨⟨outcomes', w⟩, h₂, hrun⟩ := Option.bind_eq_some_iff.1 hrun
  obtain ⟨⟨res, w'⟩, hassign, hrun⟩ := Option.map_eq_some_iff.1 hrun
  obtain ⟨hwatchers, hreactions, hobjects, hwatched, ⟨hme, hvme⟩, ⟨hx, hvx⟩, hres⟩ :=
    of_decide_eq_true hrun
  have hassign : p.assign (Engine.ofFuel 4).compute (Subscriber.update (Engine.ofFuel 4)) ⟨1⟩
      (.string "2") w = some (.ok true, w') := by
    cases res with
    | error f => cases hres
    | ok b =>
      cases hres
      exact hassign
  -- The knot is written before there are any callbacks, and the one that comes then only logs.
  have hstored₁ : w₁.Stored P := by
    refine ⟨fun r => ?_, ?_, fun r => ?_⟩
    · rw [Store.get_of_size_le _ (hwatchers ▸ Nat.zero_le _)]
      trivial
    · rintro ⟨_, hP, hcall⟩
      exact absurd hcall hP.2.2
    · rw [Store.get_of_size_le _ (hreactions ▸ Nat.zero_le _)]
      trivial
  have hwatch : Step.EveryAll P watch := by
    simp [watch, P, Step.EveryAll, Step.Every, Step.Writes, Step.Defines, Step.Calls]
  obtain ⟨_, hcourse, -⟩ := World.steps_course hstored₁ hwatch h₂
  have hstored : w.Stored P := World.Course.stored hcourse hstored₁
  have hmoment : Moment {} w := by
    refine ((Moment.start h₀).steps ?_ h₁).steps ?_ h₂
    · simp [knot, Step.AllPlain, Step.Plain, Step.PlainMethods, Expr.IsOwn]
    · simp [watch, Step.AllPlain, Step.Plain]
  have hpast := (World.steps_past h₀ (World.steps_append h₁ h₂)).1
  have hroute : w.Route ⟨1⟩ p.parents ⟨0⟩ :=
    .cons (World.slot?_of_property? hme) (Value.eq_object hvme)
      (.cons (World.slot?_of_property? hx) (Value.eq_object hvx) (.nil ⟨0⟩))
  have hroot : (⟨1⟩ : Ref .object).index < w.objects.size := by
    rw [hobjects]
    decide
  have hquiet : ∀ source w₂, (Site.path p ⟨1⟩).find (Engine.ofFuel 4).compute w =
      some (source, w₂) →
        source.Undisturbed (Subscriber.update (Engine.ofFuel 4)) (.string "2") w₂ := by
    intro source w₂ hfind
    rw [hroute.find, Option.map_eq_some_iff] at hfind
    obtain ⟨_, -, he⟩ := hfind
    cases he
    exact Source.undisturbed_of_stored hstored hwritable hdefinable source _
  have hclosed := hmoment.quiet.valid.closed
  obtain ⟨o, w₂, u, hfollow, -, -, hover, hread⟩ :=
    Path.assign_aliased hclosed hpast.ownsCells hroot p hquiet hassign
  cases (hroute.follow_once _ p).symm.trans hfollow
  have hbypass : p.Bypasses (Engine.ofFuel 4).compute ⟨1⟩ ⟨0⟩ p.last w :=
    hroute.bypasses (by decide) ⟨0⟩
  exact ⟨w, w', p, ⟨1⟩, ⟨0⟩, u, hclosed, hpast.ownsCells, hroot, hwatched, hquiet, hassign, hover,
    hbypass, hread hbypass _ {}⟩

end ViewBinding
