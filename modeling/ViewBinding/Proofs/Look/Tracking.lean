import Mathlib.Data.Finset.Card
import ViewBinding.Proofs.Freshness

/-! Tracking observes. Reading for a subscriber finds what reading for nobody finds, and all that it
leaves in the data are the registries that the subscriber joined, each counted once. -/

namespace ViewBinding

def Mark.computed? : Mark → Option Computed
  | .read _ => none
  | .computed p => some p

def Source.Joinable (w : World) (source : Source) : Prop :=
  source.Within w ∧ ∀ r, source ≠ .registry r

namespace World

/-- The world after computed properties were worked out, which only its trace tells. -/
def reported (w : World) (ps : List Computed) : World :=
  { w with trace := w.trace ++ (ps.map Happening.computed).toArray }

@[simp] theorem reported_nil (w : World) : w.reported [] = w := by simp [reported]

theorem reported_reported (w : World) (ps ps' : List Computed) :
    (w.reported ps).reported ps' = w.reported (ps ++ ps') := by
  simp [reported, Array.append_assoc]

/-- What becomes of a world while a subscriber joins the registries of some sources, each at the end
of its order, and computed properties are worked out. No value and no property changes. -/
structure Joins (s : Subscriber) (ps : List Computed) (grown : Finset Source) (w w' : World) :
    Prop where
  slot : w'.slot? = w.slot?
  value : ∀ c, (w'.cells.get c).value = (w.cells.get c).value
  objects : w'.objects.size = w.objects.size
  cells : w'.cells.size = w.cells.size
  lacked : ∀ source ∈ grown, s ∉ (w.registry source).members
  order : ∀ source ∈ grown, (w'.registry source).order = (w.registry source).order ++ [s]
  members : ∀ source ∈ grown, ∀ t,
    t ∈ (w'.registry source).members ↔ t = s ∨ t ∈ (w.registry source).members
  others : ∀ source ∉ grown, w'.registry source = w.registry source
  rest : w' = { w.reported ps with objects := w'.objects, cells := w'.cells }

namespace Joins

variable {s : Subscriber} {ps ps' : List Computed} {grown grown' : Finset Source}
  {w w' w'' : World}

theorem reported (s : Subscriber) (w : World) (ps : List Computed) :
    w.Joins s ps ∅ (w.reported ps) where
  slot := rfl
  value _ := rfl
  objects := rfl
  cells := rfl
  lacked _ h := absurd h (Finset.notMem_empty _)
  order _ h := absurd h (Finset.notMem_empty _)
  members _ h := absurd h (Finset.notMem_empty _)
  others _ _ := rfl
  rest := rfl

theorem mem_members (h : w.Joins s ps grown w') {source : Source}
    (hs : s ∈ (w.registry source).members) : s ∈ (w'.registry source).members := by
  by_cases hg : source ∈ grown
  · exact (h.members source hg s).2 (.inl rfl)
  · rwa [h.others source hg]

theorem mem_grown_iff (h : w.Joins s ps grown w') (source : Source) :
    source ∈ grown ↔ s ∉ (w.registry source).members ∧ s ∈ (w'.registry source).members := by
  refine ⟨fun hg => ⟨h.lacked source hg, (h.members source hg s).2 (.inl rfl)⟩, fun hs => ?_⟩
  by_contra hg
  rw [h.others source hg] at hs
  exact hs.1 hs.2

theorem joinable (h : w.Joins s ps grown w') {source : Source}
    (hs : source.Joinable w) : source.Joinable w' := by
  refine ⟨?_, hs.2⟩
  have hwithin := hs.1
  cases source with
  | cell c => exact Nat.lt_of_lt_of_eq hwithin h.cells.symm
  | waiting o key => exact Nat.lt_of_lt_of_eq hwithin h.objects.symm
  | registry r => exact absurd rfl (hs.2 r)

theorem trans (h : w.Joins s ps grown w') (h' : w'.Joins s ps' grown' w'') :
    w.Joins s (ps ++ ps') (grown ∪ grown') w'' ∧ Disjoint grown grown' := by
  have hd : Disjoint grown grown' := Finset.disjoint_left.2 fun source hg hg' =>
    h'.lacked source hg' ((h.members source hg s).2 (.inl rfl))
  have first {source : Source} (hg : source ∈ grown) : w''.registry source = w'.registry source :=
    h'.others source (Finset.disjoint_left.1 hd hg)
  have second {source : Source} (hg : source ∈ grown') :
      w'.registry source = w.registry source :=
    h.others source (Finset.disjoint_right.1 hd hg)
  refine ⟨?_, hd⟩
  constructor
  · exact h'.slot.trans h.slot
  · exact fun c => (h'.value c).trans (h.value c)
  · exact h'.objects.trans h.objects
  · exact h'.cells.trans h.cells
  · intro source hg
    obtain hg | hg := Finset.mem_union.1 hg
    · exact h.lacked source hg
    · exact second hg ▸ h'.lacked source hg
  · intro source hg
    obtain hg | hg := Finset.mem_union.1 hg
    · rw [first hg, h.order source hg]
    · rw [h'.order source hg, second hg]
  · intro source hg t
    obtain hg | hg := Finset.mem_union.1 hg
    · rw [first hg, h.members source hg]
    · rw [h'.members source hg, second hg]
  · intro source hg
    rw [Finset.mem_union, not_or] at hg
    rw [h'.others source hg.2, h.others source hg.1]
  · rw [h'.rest, h.rest, ← reported_reported]
    rfl

theorem setRegistry {source : Source} (hs : source.Joinable w) {registry : Registry}
    (h : (w.registry source).add? s = some registry) :
    w.Joins s [] {source} (w.setRegistry source registry) := by
  have hself := registry_setRegistry_self hs.1 registry
  have hsight := w.sight_setRegistry source registry
  constructor
  · exact congrArg Sight.slot? hsight
  · exact congrFun (congrArg Sight.value hsight)
  · cases source <;> simp [World.setRegistry, Store.size_modify]
  · cases source <;> simp [World.setRegistry, Store.size_modify]
  · intro source' h'
    obtain rfl := Finset.mem_singleton.1 h'
    rw [← Registry.add?_eq_none_iff, h]
    exact Option.some_ne_none registry
  · intro source' h'
    obtain rfl := Finset.mem_singleton.1 h'
    rw [hself, Registry.order_add? h]
  · intro source' h' t
    obtain rfl := Finset.mem_singleton.1 h'
    rw [hself, Registry.mem_members_add? h]
  · intro source' h'
    exact registry_setRegistry_of_ne (fun e => h' (Finset.mem_singleton.2 e.symm)) registry
  · rw [reported_nil]
    cases source with
    | registry r => exact absurd rfl (hs.2 r)
    | _ => rfl

end Joins

end World

namespace Mark

variable {s : Subscriber} {w : World} {ms : List Mark} {k : Nat}

theorem leaveAll_none (ms : List Mark) (w : World) :
    leaveAll ms ({}, w) = ({}, w.reported (ms.filterMap computed?)) := by
  induction ms generalizing w with
  | nil => simp
  | cons m ms ih =>
    cases m with
    | read source => exact ih w
    | computed name =>
      rw [leaveAll_cons]
      exact (ih (w.reported [name])).trans (by rw [World.reported_reported]; rfl)

theorem leaveAll_member (h : ∀ source, .read source ∈ ms → s ∈ (w.registry source).members) :
    leaveAll ms (⟨some s, k⟩, w) = (⟨some s, k⟩, w.reported (ms.filterMap computed?)) := by
  induction ms generalizing w with
  | nil => simp
  | cons m ms ih =>
    have hms (source : Source) (hm : .read source ∈ ms) := h source (List.mem_cons_of_mem m hm)
    rw [leaveAll_cons]
    cases m with
    | read source =>
      have hs := (Registry.add?_eq_none_iff _ _).2 (h source List.mem_cons_self)
      have hl : (read source).leave (⟨some s, k⟩, w) = (⟨some s, k⟩, w) := by simp only [leave, hs]
      rw [hl]
      exact ih hms
    | computed name =>
      exact (ih (w := w.reported [name]) hms).trans (by rw [World.reported_reported]; rfl)

theorem leave_joins (m : Mark) (hm : ∀ source, .read source ∈ [m] → source.Joinable w) : ∃ grown,
    w.Joins s (m.computed?.toList) grown (m.leave (⟨some s, k⟩, w)).2 ∧
      (m.leave (⟨some s, k⟩, w)).1 = ⟨some s, k + grown.card⟩ ∧
      ∀ source, .read source = m → s ∈ ((m.leave (⟨some s, k⟩, w)).2.registry source).members := by
  cases m with
  | computed name =>
    exact ⟨∅, .reported s w [name], by simp [leave], fun source h => nomatch h⟩
  | read source =>
    simp only [leave]
    cases h : (w.registry source).add? s with
    | none =>
      refine ⟨∅, by simpa [computed?] using World.Joins.reported s w [], by simp, ?_⟩
      rintro _ ⟨⟩
      exact (Registry.add?_eq_none_iff _ _).1 h
    | some registry =>
      have hj := World.Joins.setRegistry (hm source List.mem_cons_self) h
      refine ⟨{source}, hj, by simp, ?_⟩
      rintro _ ⟨⟩
      exact (hj.members source (Finset.mem_singleton_self _) s).2 (.inl rfl)

/-- However often the same is read, the subscriber joins each registry once, and the evaluation
counts the registries that grew. -/
theorem leaveAll_joins (h : ∀ source, .read source ∈ ms → source.Joinable w) : ∃ grown,
    w.Joins s (ms.filterMap computed?) grown (leaveAll ms (⟨some s, k⟩, w)).2 ∧
      (leaveAll ms (⟨some s, k⟩, w)).1 = ⟨some s, k + grown.card⟩ ∧
      ∀ source, .read source ∈ ms →
        s ∈ ((leaveAll ms (⟨some s, k⟩, w)).2.registry source).members := by
  induction ms generalizing w k with
  | nil => exact ⟨∅, by simpa using World.Joins.reported s w [], by simp, fun _ hm => nomatch hm⟩
  | cons m ms ih =>
    obtain ⟨grown, hj, he, hm⟩ := leave_joins (k := k) (s := s) m fun source hs =>
      h source (List.mem_singleton.1 hs ▸ List.mem_cons_self)
    obtain ⟨w', hw'⟩ : ∃ w', m.leave (⟨some s, k⟩, w) = (⟨some s, k + grown.card⟩, w') :=
      ⟨_, Prod.ext he rfl⟩
    rw [hw'] at hj hm
    have h' (source : Source) (hs : .read source ∈ ms) : source.Joinable w' :=
      hj.joinable (h source (List.mem_cons_of_mem m hs))
    obtain ⟨grown', hj', he', hm'⟩ := ih (k := k + grown.card) h'
    obtain ⟨hjoins, hd⟩ := hj.trans hj'
    rw [leaveAll_cons, hw']
    refine ⟨grown ∪ grown', ?_, ?_, fun source hs => ?_⟩
    · cases m <;> exact hjoins
    · rw [he', Finset.card_union_of_disjoint hd, Nat.add_assoc]
    · obtain rfl | hs := List.mem_cons.1 hs
      · exact hj'.mem_members (hm source rfl)
      · exact hm' source hs

end Mark

section

variable {w : World} {root : Ref .object} {n : Nat} {p : Path} {res : Except Fault Value}
  {ms : List Mark}

theorem World.Closed.unlisted (hw : w.Closed) : World.Closed { w with registries := {} } where
  cell := hw.cell
  computed := hw.computed
  value := hw.value
  root := hw.root
  named := hw.named
  saved := hw.saved
  sound
    | .cell c => hw.sound (.cell c)
    | .waiting o key => hw.sound (.waiting o key)
    | .registry _ => Registry.Sound.empty

theorem Path.look_joinable (hw : w.Closed) (hc : w.sight.Steady) (hr : root.index < w.objects.size)
    (h : (p.look w.sight (w.sight.compute n) root).run = some (res, ms)) {source : Source}
    (hm : .read source ∈ ms) : source.Joinable w := by
  have hroot : (Value.object root).Within w.objects.size := fun o ho => by
    obtain rfl := Option.some.inj ho
    exact hr
  constructor
  · exact (lookFrom_within hw (hw.bounded_of_steady hc n) p p.segments hroot _ _ h).1 source hm
  · -- The look is the same in a world without registries of their own.
    rintro r rfl
    exact absurd ((lookFrom_within hw.unlisted (hw.unlisted.bounded_of_steady hc n) p p.segments
      hroot _ _ h).1 _ hm) (Nat.not_lt_zero _)

/-- Reading a path for a subscriber finds what reading it for nobody finds. Reading for nobody
changes nothing; reading for a subscriber enters it once, at the end, in registries that lacked it,
and counts those; and when it reads the same again it enters none. -/
theorem Path.resolve_tracked (hw : w.Closed) (hc : w.sight.Steady)
    (hr : root.index < w.objects.size) (p : Path) (s : Subscriber) (n : Nat) :
    let x := p.resolve (Engine.ofFuel n).compute root
    x.evaluate none w = none ∧ x.evaluate (some s) w = none ∨
    ∃ (res : Except Fault Value) (ps : List Computed) (grown : Finset Source) (w' : World),
      x.evaluate none w = some (.ok (res, 0), w.reported ps) ∧
      x.evaluate (some s) w = some (.ok (res, grown.card), w') ∧
      w.Joins s ps grown w' ∧
      (∀ source, source ∈ grown ↔
        s ∉ (w.registry source).members ∧ s ∈ (w'.registry source).members) ∧
      x.evaluate (some s) w' = some (.ok (res, 0), w'.reported ps) := by
  intro x
  have sees : x.Sees fun d => p.look d (d.compute n) root :=
    Reading.Sees.resolve (Reading.Sees.compute n) p root
  have evaluate {w' : World} (hs : w'.sight = w.sight) (s? : Option Subscriber) :
      x.evaluate s? w' = (p.look w.sight (w.sight.compute n) root).run.map fun l =>
        (.ok (l.1, (Mark.leaveAll l.2 (⟨s?, 0⟩, w')).1.registrations),
          (Mark.leaveAll l.2 (⟨s?, 0⟩, w')).2) := by
    rw [Reading.evaluate, sees _ w' (hs ▸ hc), hs, Look.leave, Option.map_map]
    rfl
  rw [evaluate rfl, evaluate rfl]
  cases h : (p.look w.sight (w.sight.compute n) root).run with
  | none => exact .inl ⟨rfl, rfl⟩
  | some l =>
    obtain ⟨res, ms⟩ := l
    obtain ⟨grown, hj, he, hm⟩ := Mark.leaveAll_joins (s := s) (k := 0)
      fun source => look_joinable hw hc hr h
    -- Joining registries changes nothing that can be seen, so the second look is the first one.
    have hsight : (Mark.leaveAll ms (⟨some s, 0⟩, w)).2.sight = w.sight :=
      Mark.sight_leaveAll ms (⟨some s, 0⟩, w)
    refine .inr ⟨res, ms.filterMap Mark.computed?, grown, _, ?_, ?_, hj, hj.mem_grown_iff, ?_⟩
    · simp only [Option.map_some, Mark.leaveAll_none]
    · simp only [Option.map_some, he, Nat.zero_add]
    · simp only [evaluate hsight, h, Option.map_some, Mark.leaveAll_member hm]

end

/-- One computed property reads a value twice and looks for a key that is not there; another reads
the first and the value once more. -/
def repeatedReads : List Step :=
  [.build none (some (.data (.object [("a", .string "1")])))
      [("twice", .concat [.get none "a", .get none "b", .get none "a"]),
        ("again", .concat [.get none "twice", .get none "a"])] [],
    .react "s" []]

/-- Of the reads of a path to such a property a subscriber joins one cell and one missing key, and
then nothing. -/
theorem Path.resolve_tracked_repeated : ∃ (w w' : World) (p : Path) (root : Ref .object)
    (s : Subscriber) (res : Except Fault Value) (ps : List Computed) (grown : Finset Source),
    w.Closed ∧ w.sight.Steady ∧ root.index < w.objects.size ∧ grown.card = 2 ∧
      w.Joins s ps grown w' ∧
      (p.resolve (Engine.ofFuel 3).compute root).evaluate none w =
        some (.ok (res, 0), w.reported ps) ∧
      (p.resolve (Engine.ofFuel 3).compute root).evaluate (some s) w = some (.ok (res, 2), w') ∧
      (p.resolve (Engine.ofFuel 3).compute root).evaluate (some s) w' =
        some (.ok (res, 0), w'.reported ps) := by
  let p : Path := ⟨["again"], by decide⟩
  let s : Subscriber := .reaction ⟨0⟩
  obtain ⟨w, hw, hc⟩ := Moment.exists_of_run 3 [] repeatedReads
    (fun w => w.objects.size = 1 ∧
      ((p.resolve (Engine.ofFuel 3).compute ⟨0⟩).evaluate (some s) w).any fun q =>
        q.1.toOption.any fun r => r.2 = 2)
    (by simp [repeatedReads, Step.AllPlain, Step.Plain, Step.PlainMethods, Expr.IsOwn,
      Expr.Tracked, Expr.Each, Expr.Inward,
      Expr.EachAll])
    (by decide +kernel)
  simp only [decide_eq_true_eq] at hc
  obtain ⟨ho, hk⟩ := hc
  have hv := hw.quiet.valid
  have hroot : (⟨0⟩ : Ref .object).index < w.objects.size := by
    rw [ho]
    decide
  have hs := hv.tracked.attached.steady
  obtain ⟨-, h⟩ | ⟨res, ps, grown, w', h₀, h₁, hj, -, h₂⟩ :=
    Path.resolve_tracked hv.closed hs hroot p s 3
  · rw [h] at hk
    cases hk
  · simp only [h₁, Option.any_some, Except.toOption, decide_eq_true_eq] at hk
    rw [hk] at h₁
    exact ⟨w, w', p, ⟨0⟩, s, res, ps, grown, hv.closed, hs, hroot, hk, hj, h₀, h₁, h₂⟩

end ViewBinding
