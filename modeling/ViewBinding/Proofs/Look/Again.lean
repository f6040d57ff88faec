import ViewBinding.Proofs.Freshness

/-! What a subscriber has registered with determines what it found. While the cells where it is
registered keep their values, and the properties it waits for stay missing, evaluating a path again
gives the same, whatever else becomes of the data. -/

namespace ViewBinding

/-- What becomes of a sight while only data changes: nothing that is there goes away, and names and
view-models are what they were. -/
structure Sight.Extends (d d' : Sight) : Prop where
  slot : ∀ o key slot, d.slot? o key = some slot → d'.slot? o key = some slot
  alive : d'.alive = d.alive
  root : d'.root = d.root
  model? : d'.model? = d.model?
  saved? : d'.saved? = d.saved?

section

variable {d d' : Sight} {compute compute' : Computed → Look Value}

theorem Sight.Extends.later (h : d.Extends d') : d.Later d' where
  slot := h.slot
  alive _ _ _ _ ha := by rwa [h.alive] at ha
  root m _ := congrFun h.root m

theorem Sight.Extends.not_loses (h : d.Extends d') : ¬d.Loses d' := by
  rintro ⟨m, ha, hn⟩
  rw [h.alive, ha] at hn
  cases hn

theorem Frame.seek_eq (h : d.Extends d') (f : Frame) (name : Option String) :
    f.seek d' name = f.seek d name := by
  have hf : Frame.seek.found d' = Frame.seek.found d := by
    funext name
    rw [seek.found, seek.found, h.model?]
  cases name <;> simp only [seek, hf]

theorem Frame.look_lasts (h : d.Extends d')
    (hc : ∀ p, d.Shows p → Look.Lasts d d' (compute p) (compute' p)) (f : Frame)
    (model : Option String) (path : String) :
    Look.Lasts d d' (f.look d compute model path) (f.look d' compute' model path) := by
  rw [look, look, Frame.seek_eq h]
  refine .bind (.refl _) fun m => .bind (.refl _) fun p => ?_
  rw [h.root]
  exact Path.lookFrom_lasts h.later hc p p.segments _

mutual

theorem Expr.look_lasts_of_attached (h : d.Extends d')
    (hc : ∀ p, d.Shows p → Look.Lasts d d' (compute p) (compute' p)) (f : Frame) :
    ∀ x : Expr, x.Attached → Look.Lasts d d' (x.look d compute f) (x.look d' compute' f)
  | .data doc, _ => by
    simp only [Expr.look]
    exact .refl _
  | .number _, _ => .refl _
  | .get model path, _ => Frame.look_lasts h hc f model path
  | .peek _ _, ha => nomatch ha
  | .property object key, ha =>
    .bind (look_lasts_of_attached h hc f object ha.1) fun u =>
      .bind (look_lasts_of_attached h hc f key ha.2) fun k => by
        cases u.object? with
        | none => exact .refl _
        | some o => exact Object.look_lasts h.later hc o k.text
  | .root model, _ => by
    simp only [Expr.look, Frame.seek_eq h, h.root]
    exact .refl _
  | .saved name, _ => by
    simp only [Expr.look, h.saved?]
    exact .refl _
  | .array _, ha => ha.1.elim
  | .concat parts, ha => .bind (lookAll_lasts_of_attached h hc f parts ha) fun _ => .refl _
  | .add a b, ha =>
    .bind (look_lasts_of_attached h hc f a ha.1) fun _ =>
      .bind (look_lasts_of_attached h hc f b ha.2) fun _ => .refl _
  | .mul a b, ha =>
    .bind (look_lasts_of_attached h hc f a ha.1) fun _ =>
      .bind (look_lasts_of_attached h hc f b ha.2) fun _ => .refl _
  | .less a b, ha =>
    .bind (look_lasts_of_attached h hc f a ha.1) fun _ =>
      .bind (look_lasts_of_attached h hc f b ha.2) fun _ => .refl _
  | .same a b, ha =>
    .bind (look_lasts_of_attached h hc f a ha.1) fun _ =>
      .bind (look_lasts_of_attached h hc f b ha.2) fun _ => .refl _
  | .cond test yes no, ha =>
    .bind (look_lasts_of_attached h hc f test ha.1) fun v => by
      cases v.isTrue with
      | true => exact look_lasts_of_attached h hc f yes ha.2.1
      | false => exact look_lasts_of_attached h hc f no ha.2.2
  | .sort e, ha => .bind (look_lasts_of_attached h hc f e ha) fun _ => .refl _
  | .fail _, _ => .refl _
  | .tracking, ha => nomatch ha
  | .registrations, ha => nomatch ha
  | .argument _, _ => .refl _

theorem Expr.lookAll_lasts_of_attached (h : d.Extends d')
    (hc : ∀ p, d.Shows p → Look.Lasts d d' (compute p) (compute' p)) (f : Frame) :
    ∀ xs : List Expr, Expr.EachAll Expr.Joined xs →
      Look.Lasts d d' (Expr.lookAll d compute f xs) (Expr.lookAll d' compute' f xs)
  | [], _ => .refl _
  | x :: xs, ha =>
    .bind (look_lasts_of_attached h hc f x ha.1) fun _ =>
      .bind (lookAll_lasts_of_attached h hc f xs ha.2) fun _ => .refl _

end

/-- Computed properties, however deep they are nested, are worth the same while only data changes
that they did not read. -/
theorem Sight.compute_lasts_of_attached (h : d.Extends d') (ha : d.Attached) {n n' : Nat}
    (hn : n ≤ n') {p : Computed} (hp : d.Shows p) :
    Look.Lasts d d' (d.compute n p) (d'.compute n' p) := by
  induction n generalizing n' p with
  | zero =>
    intro r ms hr
    simp [Sight.compute] at hr
  | succ n ih =>
    obtain _ | n' := n'
    · omega
    rw [Sight.compute, Sight.compute, h.alive]
    split
    · refine .bind (.refl _) fun _ => ?_
      exact Expr.look_lasts_of_attached h (fun q hq => ih (Nat.le_of_succ_le_succ hn) hq) _ p.body
        (ha p hp)
    · exact .refl _

end

/-- What may become of a world without touching what a subscriber depends on. Cells where it is not
registered have any value, objects have new properties with values of their own that it does not
wait for, and registrations come and go. -/
structure World.Spares (s : Subscriber) (w w' : World) : Prop where
  value : ∀ c, s ∈ (w.registry (.cell c)).order → (w'.cells.get c).value = (w.cells.get c).value
  missing : ∀ o key, s ∈ (w.registry (.waiting o key)).order → w.slot? o key = none →
    w'.slot? o key = none
  slot : ∀ o key slot, w.slot? o key = some slot → w'.slot? o key = some slot
  computed : ∀ o key p, w'.slot? o key = some (.computed p) → w.slot? o key = some (.computed p)
  alive : w'.modelAlive = w.modelAlive
  root : ∀ m, (w'.models.get m).data = (w.models.get m).data
  named : ∀ name : String, w'.names.models.held[name]? = w.names.models.held[name]?
  saved : ∀ name : String, w'.names.values[name]? = w.names.values[name]?

namespace World.Spares

variable {s : Subscriber} {w w' w'' : World}

theorem sight_extends (h : w.Spares s w') : w.sight.Extends w'.sight where
  slot := h.slot
  alive := h.alive
  root := funext h.root
  model? := funext h.named
  saved? := funext h.saved

theorem attached (h : w.Spares s w') (hw : w.sight.Attached) : w'.sight.Attached := by
  rintro p ⟨o, key, hp⟩
  exact hw p ⟨o, key, h.computed o key p hp⟩

theorem trans (h : w.Spares s w') (h' : w'.Spares s w'')
    (ho : ∀ source, s ∈ (w.registry source).order → s ∈ (w'.registry source).order) :
    w.Spares s w'' where
  value c hc := (h'.value c (ho _ hc)).trans (h.value c hc)
  missing o key hk hn := h'.missing o key (ho _ hk) (h.missing o key hk hn)
  slot o key slot hs := h'.slot o key slot (h.slot o key slot hs)
  computed o key p hp := h.computed o key p (h'.computed o key p hp)
  alive := h'.alive.trans h.alive
  root m := (h'.root m).trans (h.root m)
  named name := (h'.named name).trans (h.named name)
  saved name := (h'.saved name).trans (h.saved name)

theorem store {c : Ref .cell} (hc : s ∉ (w.registry (.cell c)).order) (v : Value) :
    w.Spares s (w.store c v) where
  value c' hc' := by
    obtain e | ⟨rfl, -⟩ := w.store_cases c c' v
    · rw [e]
    · exact absurd hc' hc
  missing _ _ _ hn := hn
  slot _ _ _ hs := hs
  computed _ _ _ hp := hp
  alive := rfl
  root _ := rfl
  named _ := rfl
  saved _ := rfl

theorem insertCell {o : Ref .object} {key : String} (hk : s ∉ (w.registry (.waiting o key)).order)
    (hn : w.slot? o key = none) (v : Value) : w.Spares s (w.insertCell o key v) where
  value c hc := by
    obtain e | ⟨rfl, -⟩ := w.get_insertCell_cases o key v c
    · rw [e]
    · exact absurd (within_of_mem_order hc) (Nat.lt_irrefl _)
  missing o' key' hk' hn' := by
    obtain e | ⟨rfl, rfl, -⟩ := w.slot?_insertCell_cases o key v o' key'
    · rwa [e]
    · exact absurd hk' hk
  slot o' key' slot hs := by
    obtain e | ⟨rfl, rfl, -⟩ := w.slot?_insertCell_cases o key v o' key'
    · rwa [e]
    · rw [hn] at hs
      cases hs
  computed o' key' p hp := by
    obtain e | ⟨rfl, rfl, e⟩ := w.slot?_insertCell_cases o key v o' key'
    · rwa [e] at hp
    · rw [e] at hp
      cases hp
  alive := rfl
  root _ := rfl
  named _ := rfl
  saved _ := rfl

end World.Spares

variable {w w₁ w₂ : World} {s : Subscriber} {e e₁ : Evaluation} {root : Ref .object} {n : Nat}
  {p : Path} {res : Except Fault Value}

/-- Whoever evaluates a path is registered with all that decides what it leads to: while only other
data changes, every later evaluation finds the same value, or fails with the same fault. -/
theorem Path.resolve_again (hw : w.Closed) (hc : w.sight.Attached)
    (hr : root.index < w.objects.size)
    (he : e.subscriber = some s)
    (h : p.resolve (Engine.ofFuel n).compute root e w = some ((res, e₁), w₁))
    (hs : w₁.Spares s w₂) {n' : Nat} (hn : n ≤ n') (e' : Evaluation) :
    ∃ e'' w₃, p.resolve (Engine.ofFuel n').compute root e' w₂ = some ((res, e''), w₃) := by
  have sees (n : Nat) := Reading.Sees.resolve (Reading.Sees.compute n) p root
  rw [sees n e w hc.steady, Look.leave, Option.map_eq_some_iff] at h
  obtain ⟨⟨res', ms⟩, hl, hm⟩ := h
  cases hm
  have hd := hs.sight_extends
  have hc₂ := hs.attached (by rwa [Mark.sight_leaveAll])
  rw [Mark.sight_leaveAll] at hd
  have hwithin : ∀ source, .read source ∈ ms → source.Within w := by
    refine (Path.lookFrom_within hw (hw.bounded hc n) p p.segments (v := .object root) ?_ _ _ hl).1
    intro o ho
    obtain rfl := Option.some.inj ho
    exact hr
  -- Every source on the way has the subscriber in its registry, so the change spares it.
  have hreg (source : Source) (hm : .read source ∈ ms) :
      s ∈ ((Mark.leaveAll ms (e, w)).2.registry source).order :=
    Mark.mem_order_leaveAll hw.sound he (hwithin source hm) hm
  have hk : w.sight.Keeps w₂.sight ms := by
    have hsight := Mark.sight_leaveAll ms (e, w)
    constructor
    · intro c hc
      exact (hs.value c (hreg _ hc)).trans (congrFun (congrArg Sight.value hsight) c)
    · intro o key hk hn
      refine hs.missing o key (hreg _ hk) ?_
      exact (congrFun (congrFun (congrArg Sight.slot? hsight) o) key).trans hn
  have hlasts : Look.Lasts w.sight w₂.sight (p.look w.sight (w.sight.compute n) root)
      (p.look w₂.sight (w₂.sight.compute n') root) :=
    Path.lookFrom_lasts hd.later (fun _ hq => Sight.compute_lasts_of_attached hd hc hn hq) p
      p.segments _
  obtain ⟨_, ms', hl', ⟨rfl, rfl⟩ | ⟨-, -, hloses⟩⟩ := hlasts _ _ hl hk
  · exact ⟨_, _, by rw [sees n' e' w₂ hc₂.steady, Look.leave, hl']; rfl⟩
  · exact absurd hloses hd.not_loses

/-- The root is a property of itself, and a computed property reads through it and for a key that is
not there. -/
def roundabout : List Step :=
  [.build none (some (.data (.object [("a", .object [("b", .string "1")]), ("z", .string "0")])))
      [("c", .concat [.get none "me.a.b", .get none "a.d", .get none "me.me.a.b"])] [],
    .write none "me" (.root "main"),
    .react "s" []]

/-- After a subscriber has followed a path around, another cell is written and another key is added.
-/
theorem Path.resolve_again_roundabout : ∃ (w w₁ w₃ : World) (e₁ e₃ : Evaluation) (v : Value)
    (p : Path) (root : Ref .object), w.Closed ∧ w.sight.Attached ∧
      p.resolve (Engine.ofFuel 3).compute root { subscriber := some (.reaction ⟨0⟩) } w =
        some ((.ok v, e₁), w₁) ∧
      p.resolve (Engine.ofFuel 3).compute root {}
        ((w₁.store ⟨2⟩ (.string "9")).insertCell root "y" .null) = some ((.ok v, e₃), w₃) := by
  let p : Path := ⟨["me", "c"], by decide⟩
  let e : Evaluation := { subscriber := some (.reaction ⟨0⟩) }
  obtain ⟨w, hw, hc⟩ := Moment.exists_of_run 3 [] roundabout
    (fun w => w.objects.size = 2 ∧ (p.resolve (Engine.ofFuel 3).compute ⟨1⟩ e w).any fun q =>
      q.1.1.isOk ∧ .reaction ⟨0⟩ ∉ (q.2.registry (.cell ⟨2⟩)).order ∧
      .reaction ⟨0⟩ ∉ (q.2.registry (.waiting ⟨1⟩ "y")).order ∧ (q.2.slot? ⟨1⟩ "y").isNone)
    (by simp [roundabout, Step.AllPlain, Step.Plain, Step.PlainMethods, Expr.IsOwn,
      Expr.Tracked, Expr.Each, Expr.Inward,
      Expr.EachAll])
    (by decide +kernel)
  simp only [decide_eq_true_eq, Option.any_eq_true] at hc
  obtain ⟨ho, ⟨⟨_ | v, e₁⟩, w₁⟩, h, hok, hcell, hkey, hnone⟩ := hc
  · cases hok
  have hv := hw.quiet.valid
  have hroot : (⟨1⟩ : Ref .object).index < w.objects.size := by
    rw [ho]
    decide
  have hs : w₁.Spares (.reaction ⟨0⟩) ((w₁.store ⟨2⟩ (.string "9")).insertCell ⟨1⟩ "y" .null) := by
    refine (World.Spares.store hcell _).trans (.insertCell ?_ ?_ _) fun source hm => ?_
    · rwa [World.registry_store]
    · exact Option.isNone_iff_eq_none.1 hnone
    · rwa [World.registry_store]
  obtain ⟨e₃, w₃, h₃⟩ := Path.resolve_again hv.closed hv.tracked.attached hroot rfl h hs
    (Nat.le_refl 3) {}
  exact ⟨w, w₁, w₃, e₁, e₃, v, p, ⟨1⟩, hv.closed, hv.tracked.attached, h, h₃⟩

end ViewBinding
