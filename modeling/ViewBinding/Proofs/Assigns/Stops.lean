import ViewBinding.Proofs.Assigns.Consults
import ViewBinding.Proofs.Course.Readings
import ViewBinding.Proofs.FanOut

/-! How assignments to a path fail. Either the walk to the last property stops, and then reading the
path stops with the same fault, or that property is computed. Nothing has been written by then, and
nobody has been told. -/

namespace ViewBinding

variable {w w' : World} {g : Fault} {v u : Value} {root o : Ref .object} {p : Path}

namespace Reading

variable {α β : Type}

theorem once_bind {x : Reading α} (hx : ∀ w, x.Consults False w fun _ _ => True)
    (f : α → Reading β) : (x >>= f).once = x.once >>= fun a => (f a).once := by
  funext w
  rw [once_eq_map, bind_apply, Action.bind_apply, once_eq_map]
  cases h : x {} w with
  | none => rfl
  | some q =>
    obtain ⟨⟨r, e⟩, w₁⟩ := q
    obtain ⟨rfl, -⟩ := hx w _ _ _ _ rfl h
    cases r with
    | error g => rfl
    | ok a => exact (once_eq_map (f a) w₁).symm

theorem once_ofExcept (r : Except Fault α) :
    (MonadExcept.ofExcept r : Reading α).once = MonadExcept.ofExcept r := by
  funext w
  cases r <;> rfl

end Reading

section

variable {compute : Computed → Reading Value}

theorem Path.owner_eq_error_iff {segment : String} :
    p.owner v segment = .error g ↔ v.object? = none ∧ g = .notAnObject p.text segment v.sort := by
  cases v <;> simp [owner, Value.object?, eq_comm]

section

variable {key : String}

theorem Object.read_once_cell {c : Ref .cell} (hs : w.slot? o key = some (.cell c)) :
    (Object.read compute o key).once w = some (.ok (w.cells.get c).value, w) := by
  rw [Reading.once_eq_map, Object.read, Reading.getWorld_bind, hs]
  rfl

theorem Object.read_once_computed {c : Computed} (hs : w.slot? o key = some (.computed c)) :
    (Object.read compute o key).once w = (compute c).once w := by
  rw [Reading.once_eq_map, Object.read, Reading.getWorld_bind, hs]
  exact (Reading.once_eq_map _ w).symm

theorem Object.read_once_missing (hs : w.slot? o key = none) :
    (Object.read compute o key).once w = some (.ok .null, w) := by
  rw [Reading.once_eq_map, Object.read, Reading.getWorld_bind, hs]
  rfl

theorem Object.read_eq_error_iff : (Object.read compute o key).once w = some (.error g, w') ↔
    ∃ c, w.slot? o key = some (.computed c) ∧ (compute c).once w = some (.error g, w') := by
  cases hs : w.slot? o key with
  | none => simp [Object.read_once_missing hs]
  | some slot =>
    cases slot with
    | cell c => simp [Object.read_once_cell hs]
    | computed c => simp [Object.read_once_computed hs]

end

/-- Why a path stops before its last property is looked up: what it has reached has no properties,
or it goes on from a computed property that fails. -/
inductive Path.Stops (compute : Computed → Reading Value) (p : Path) (root : Ref .object)
    (w : World) : Fault → World → Prop
  | noObject {before rest : List String} {segment : String} {u : Value} {w' : World} :
      p.segments = before ++ segment :: rest →
      (p.follow compute before (.object root)).once w = some (.ok u, w') → u.object? = none →
      Stops compute p root w (.notAnObject p.text segment u.sort) w'
  | computed {before rest : List String} {segment next : String} {o : Ref .object} {c : Computed}
      {g : Fault} {w₁ w' : World} :
      p.segments = before ++ segment :: next :: rest →
      (p.follow compute before (.object root)).once w = some (.ok (.object o), w₁) →
      w₁.slot? o segment = some (.computed c) → (compute c).once w₁ = some (.error g, w') →
      Stops compute p root w g w'

def Path.reach (compute : Computed → Reading Value) (p : Path) (root : Ref .object) :
    Action (Ref .object) := do
  let parent ← (p.follow compute p.parents (.object root)).once
  MonadExcept.ofExcept (p.owner parent p.last)

theorem Path.assign_eq (update : Subscriber → Action Unit) (p : Path) (root : Ref .object)
    (v : Value) : p.assign compute update root v =
      p.reach compute root >>= fun o => Object.write update o p.last v := by
  rw [assign, reach, bind_assoc]

theorem Path.reach_eq_ok_iff : p.reach compute root w = some (.ok o, w') ↔
    (p.follow compute p.parents (.object root)).once w = some (.ok (.object o), w') := by
  constructor
  · intro h
    obtain ⟨_, _, ⟨⟩⟩ | ⟨u, w₁, hu, ho⟩ := Action.bind_eq_some h
    cases u <;> cases ho
    exact hu
  · intro h
    rw [reach, Action.bind_apply, h]
    rfl

namespace Path

variable (hc : Consulting compute)
include hc

theorem follow_once_cons (segment : String) (rest : List String) (v : Value) :
    (p.follow compute (segment :: rest) v).once =
      (MonadExcept.ofExcept (p.owner v segment) : Action (Ref .object)) >>= fun o =>
        (Object.read compute o segment).once >>= fun u => (p.follow compute rest u).once := by
  have hread (o : Ref .object) (w : World) :
      (Object.read compute o segment).Consults False w fun _ _ => True :=
    (Object.read_consults hc False.elim segment).weaken
  rw [follow, Reading.once_bind fun _ => .ofExcept False.elim, Reading.once_ofExcept]
  simp only [Reading.once_bind (hread _)]

theorem follow_once_append (before rest : List String) (v : Value) :
    (p.follow compute (before ++ rest) v).once =
      (p.follow compute before v).once >>= fun u => (p.follow compute rest u).once := by
  induction before generalizing v with
  | nil => rfl
  | cons segment before ih =>
    rw [List.cons_append, follow_once_cons hc, follow_once_cons hc]
    simp only [bind_assoc, ih]

/-- One segment cannot be followed if there is no object to go on from, or if the property is
computed and fails. -/
theorem follow_once_eq_error_iff (segment : String) (u : Value) (w : World) :
    (p.follow compute [segment] u).once w = some (.error g, w') ↔
      (u.object? = none ∧ g = .notAnObject p.text segment u.sort ∧ w' = w) ∨
        ∃ o c, u = .object o ∧ w.slot? o segment = some (.computed c) ∧
          (compute c).once w = some (.error g, w') := by
  have hnil : (fun u => (p.follow compute [] u).once) = pure := rfl
  rw [follow_once_cons hc, hnil, Action.bind_apply]
  cases ho : p.owner u segment with
  | error g' =>
    obtain ⟨hu, rfl⟩ := owner_eq_error_iff.1 ho
    constructor
    · rintro ⟨⟩
      exact .inl ⟨hu, rfl, rfl⟩
    · rintro (⟨-, rfl, rfl⟩ | ⟨o, c, rfl, -⟩)
      · rfl
      · cases hu
  | ok o =>
    obtain rfl : u = .object o := by cases u <;> cases ho; rfl
    show ((Object.read compute o segment).once >>= pure) w = _ ↔ _
    rw [bind_pure, Object.read_eq_error_iff]
    constructor
    · rintro ⟨c, hs, h⟩
      exact .inr ⟨o, c, rfl, hs, h⟩
    · rintro (⟨hu, -⟩ | ⟨_, c, ⟨⟩, hs, h⟩)
      · cases hu
      · exact ⟨c, hs, h⟩

/-- Following segments fails at one of them. -/
theorem follow_eq_error_iff (segments : List String) (v : Value) (w : World) :
    (p.follow compute segments v).once w = some (.error g, w') ↔
      ∃ before segment rest u w₁, segments = before ++ segment :: rest ∧
        (p.follow compute before v).once w = some (.ok u, w₁) ∧
        (p.follow compute [segment] u).once w₁ = some (.error g, w') := by
  constructor
  · intro h
    induction segments generalizing v w with
    | nil => cases h
    | cons segment rest ih =>
      rw [← List.singleton_append, follow_once_append hc] at h
      obtain ⟨_, h, ⟨⟩⟩ | ⟨u, w₁, hu, h⟩ := Action.bind_eq_some h
      · exact ⟨[], segment, rest, v, w, rfl, rfl, h⟩
      · obtain ⟨before, segment', rest', u', w₂, rfl, hbefore, hlast⟩ := ih u w₁ h
        refine ⟨segment :: before, segment', rest', u', w₂, rfl, ?_, hlast⟩
        rw [← List.singleton_append, follow_once_append hc, Action.bind_apply, hu]
        exact hbefore
  · rintro ⟨before, segment, rest, u, w₁, rfl, hbefore, hlast⟩
    rw [follow_once_append hc, Action.bind_apply, hbefore, ← List.singleton_append]
    dsimp only
    rw [follow_once_append hc, Action.bind_apply, hlast]

theorem resolve_once (p : Path) (root : Ref .object) : (p.resolve compute root).once =
    p.reach compute root >>= fun o => (Object.read compute o p.last).once := by
  have hnil : (fun u => (p.follow compute [] u).once) = pure := rfl
  rw [resolve, ← p.parents_append_last, follow_once_append hc, reach]
  simp only [follow_once_cons hc, hnil, bind_pure, bind_assoc]

theorem stops_iff : p.Stops compute root w g w' ↔ p.reach compute root w = some (.error g, w') := by
  have hsegments := p.parents_append_last
  constructor
  · -- The segment at which a path stops is the last, or one of those that lead to its owner.
    have among {before rest : List String} {segment next : String}
        (h : p.segments = before ++ segment :: next :: rest) :
        p.parents = before ++ segment :: (next :: rest).dropLast := by
      rw [parents, h, List.dropLast_append_of_ne_nil (by simp)]
      rfl
    have fails {before rest : List String} {segment next : String} {u : Value} {w₁ : World}
        (h : p.segments = before ++ segment :: next :: rest)
        (hbefore : (p.follow compute before (.object root)).once w = some (.ok u, w₁))
        (hat : (p.follow compute [segment] u).once w₁ = some (.error g, w')) :
        p.reach compute root w = some (.error g, w') := by
      rw [reach, Action.bind_apply, (follow_eq_error_iff hc _ _ _).2
        ⟨before, segment, _, u, w₁, among h, hbefore, hat⟩]
    rintro (⟨h, hbefore, hu⟩ | ⟨h, hbefore, hs, hfail⟩)
    · rename_i before rest segment u
      cases rest with
      | nil =>
        obtain ⟨rfl, hlast⟩ := List.append_inj' (hsegments.trans h) rfl
        obtain rfl : p.last = segment := (List.cons.inj hlast).1
        rw [reach, Action.bind_apply, hbefore]
        dsimp only
        rw [owner_eq_error_iff.2 ⟨hu, rfl⟩]
        rfl
      | cons next rest =>
        exact fails h hbefore ((follow_once_eq_error_iff hc _ _ _).2 (.inl ⟨hu, rfl, rfl⟩))
    · exact fails h hbefore ((follow_once_eq_error_iff hc _ _ _).2 (.inr ⟨_, _, rfl, hs, hfail⟩))
  · intro h
    obtain ⟨_, h, ⟨⟩⟩ | ⟨u, w₁, hu, h⟩ := Action.bind_eq_some h
    · obtain ⟨before, segment, rest, u, w₁, hparents, hbefore, hat⟩ :=
        (follow_eq_error_iff hc _ _ _).1 h
      -- A segment among the parents is not the last one.
      obtain ⟨next, rest', hrest⟩ : ∃ next rest', rest ++ [p.last] = next :: rest' := by
        cases rest <;> exact ⟨_, _, rfl⟩
      have hs : p.segments = before ++ segment :: next :: rest' := by
        rw [← hsegments, hparents, List.append_assoc, List.cons_append, hrest]
      obtain ⟨hn, rfl, rfl⟩ | ⟨o, c, rfl, hslot, hfail⟩ := (follow_once_eq_error_iff hc _ _ _).1 hat
      · exact .noObject hs hbefore hn
      · exact .computed hs hbefore hslot hfail
    · cases ho : p.owner u p.last with
      | ok o =>
        rw [ho] at h
        cases h
      | error g' =>
        rw [ho] at h
        cases h
        obtain ⟨hn, rfl⟩ := owner_eq_error_iff.1 ho
        have hlast : p.segments = p.parents ++ p.last :: [] := hsegments.symm
        exact .noObject hlast hu hn

end Path

end

theorem Object.write_eq_error_iff {update : Subscriber → Action Unit} {key : String} :
    Object.write update o key v w = some (.error g, w') ↔
      ∃ c, w.slot? o key = some (.computed c) ∧ g = .readOnly key ∧ w' = w := by
  constructor
  · intro h
    obtain ⟨hn, -, -⟩ | ⟨source, hs, hwr⟩ := Object.write_written h
    · rw [World.property?] at hn
      split at hn
      · cases hn
      · rename_i c hc
        rw [Object.write_computed hc] at h
        cases h
        exact ⟨c, hc, rfl, rfl⟩
      · cases hn
    · by_cases hch : w.changes source v
      · cases (hwr.turns hch).1
      · cases (hwr.same hch).1
  · rintro ⟨c, hc, rfl, rfl⟩
    exact Object.write_computed hc v

theorem Path.assign_eq_error_iff {compute : Computed → Reading Value} (hc : Consulting compute)
    {update : Subscriber → Action Unit} : p.assign compute update root v w = some (.error g, w') ↔
      p.Stops compute root w g w' ∨
        ∃ o c, (p.follow compute p.parents (.object root)).once w = some (.ok (.object o), w') ∧
          w'.slot? o p.last = some (.computed c) ∧ g = .readOnly p.last := by
  rw [assign_eq, stops_iff hc]
  constructor
  · intro h
    obtain ⟨_, h, ⟨⟩⟩ | ⟨o, w₁, ho, h⟩ := Action.bind_eq_some h
    · exact .inl h
    · obtain ⟨c, hs, rfl, rfl⟩ := Object.write_eq_error_iff.1 h
      exact .inr ⟨o, c, reach_eq_ok_iff.1 ho, hs, rfl⟩
  · rintro (h | ⟨o, c, ho, hs, rfl⟩)
    · rw [Action.bind_apply, h]
    · rw [Action.bind_apply, reach_eq_ok_iff.2 ho]
      exact Object.write_eq_error_iff.2 ⟨c, hs, rfl, rfl⟩

/-- What becomes of a world in which somebody only looks something up for nobody: all data,
registries, watchers and nodes that were there stay as they are, and nothing is reported but
computed properties that were worked out. -/
structure World.Consulted (w w' : World) : Prop where
  grown : w.Grown w'
  frame : w.SameFrame w'
  trace : ∃ ps : List Computed, w'.trace.toList = w.trace.toList ++ ps.map .computed

theorem World.Consulted.refl (w : World) : w.Consulted w :=
  ⟨.refl w, .refl w, [], (List.append_nil _).symm⟩

theorem World.Glances.consulted {hs : List Happening} (h : w.Glances hs w') (hg : w.Grown w') :
    w.Consulted w' := by
  obtain ⟨ps, rfl⟩ : ∃ ps : List Computed, hs = ps.map .computed := by
    have hps := World.Glances.computed h
    clear h
    induction hs with
    | nil => exact ⟨[], rfl⟩
    | cons x hs ih =>
      obtain ⟨hx, hrest⟩ := List.forall_mem_cons.1 hps
      obtain ⟨p, rfl⟩ := hx
      obtain ⟨ps, rfl⟩ := ih hrest
      exact ⟨p :: ps, rfl⟩
  exact ⟨hg, World.Glances.sameFrame h, ps,
    World.Along.trace (fun _ _ _ => World.Glance.trace) h⟩

section

variable {n : Nat} {update : Subscriber → Action Unit}

theorem Path.follow_consulted {segments : List String} {r : Except Fault Value}
    (h : (p.follow (Engine.ofFuel n).compute segments v).once w = some (r, w')) :
    w.Consulted w' := by
  obtain ⟨hs, hglances⟩ :=
    (Path.follow_proceeds (Engine.compute_proceeds n) p segments v).once _ _ _ h
  rw [Reading.once_eq_map, Option.map_eq_some_iff] at h
  obtain ⟨⟨⟨r', e⟩, w₁⟩, h, he⟩ := h
  cases he
  obtain ⟨-, hg, -⟩ :=
    Path.follow_consults (G := False) (Engine.consulting n) p segments False.elim _ _ _ _ rfl h
  exact World.Glances.consulted hglances hg

theorem Path.Stops.consulted (h : p.Stops (Engine.ofFuel n).compute root w g w') :
    w.Consulted w' := by
  obtain ⟨_, h, -⟩ | ⟨u, w₁, hu, h⟩ :=
    Action.bind_eq_some ((stops_iff (Engine.consulting n)).1 h)
  · exact follow_consulted h
  · cases ho : p.owner u p.last <;> rw [ho] at h <;> cases h
    exact follow_consulted hu

theorem Reading.Sees.evaluate_of_once {x : Reading Value} {l : Sight → Look Value} (hx : x.Sees l)
    (hw : w.sight.Steady) {r : Except Fault Value} (h : x.once w = some (r, w'))
    (s : Option Subscriber) : ∃ k w'', x.evaluate s w = some (.ok (r, k), w'') := by
  rw [once_eq_map, hx _ w hw, Look.leave, Option.map_map, Option.map_eq_some_iff] at h
  obtain ⟨⟨r', ms⟩, hl, he⟩ := h
  cases he
  exact ⟨_, _, by rw [evaluate, hx _ w hw, Look.leave, hl]; rfl⟩

/-- An assignment to a path fails exactly if the path stops before its last property, with the fault
that reading the path ends with, or if that property is computed. And when a write to a view-model
fails, be it that the path is invalid, nothing that was there has changed, and what updates do does
not matter. -/
theorem Path.assign_fails (n : Nat) (update : Subscriber → Action Unit) (w : World) :
    (∀ p root v g w', Path.assign (Engine.ofFuel n).compute update p root v w =
        some (.error g, w') ↔
      p.Stops (Engine.ofFuel n).compute root w g w' ∨
        ∃ o c, (p.follow (Engine.ofFuel n).compute p.parents (.object root)).once w =
            some (.ok (.object o), w') ∧
          w'.slot? o p.last = some (.computed c) ∧ g = .readOnly p.last) ∧
      (∀ p root g w', Path.Stops (Engine.ofFuel n).compute p root w g w' →
        (p.resolve (Engine.ofFuel n).compute root).once w = some (.error g, w') ∧
          (w.sight.Steady → ∀ s, ∃ k w'', (p.resolve (Engine.ofFuel n).compute root).evaluate s w =
            some (.ok (.error g, k), w''))) ∧
      ∀ m path v g w', ViewModel.write (Engine.ofFuel n).compute update m path v w =
          some (.error g, w') →
        w.Consulted w' ∧ ∀ update' : Subscriber → Action Unit,
          ViewModel.write (Engine.ofFuel n).compute update' m path v w = some (.error g, w') := by
  have hc := Engine.consulting n
  refine ⟨fun p root v g w' => Path.assign_eq_error_iff hc, fun p root g w' h => ?_,
    fun m path v g w' h => ?_⟩
  · have honce : (p.resolve (Engine.ofFuel n).compute root).once w = some (.error g, w') := by
      rw [Path.resolve_once hc, Action.bind_apply, (Path.stops_iff hc).1 h]
    exact ⟨honce, fun hw =>
      (Reading.Sees.resolve (Reading.Sees.compute n) p root).evaluate_of_once hw honce⟩
  · cases hp : Path.parse path with
    | error g' =>
      rw [ViewModel.write_misspelt hp] at h
      cases h
      exact ⟨.refl w, fun update' => ViewModel.write_misspelt hp⟩
    | ok p =>
      rw [ViewModel.write_apply hp] at h
      have hassign := (Path.assign_eq_error_iff hc).1 h
      refine ⟨?_, fun update' => ?_⟩
      · obtain hstops | ⟨_, _, ho, -⟩ := hassign
        · exact hstops.consulted
        · exact Path.follow_consulted ho
      · rw [ViewModel.write_apply hp]
        exact (Path.assign_eq_error_iff hc).2 hassign

end

def setbacks : List Step :=
  [.build none (some (.data (.object [("a", .string "1"), ("n", .null)])))
    [("c", .get none "a"), ("bad", .fail "no")] []]

/-- Paths that go on from nothing and from a computed property that fails, a computed property that
could be read, and no path at all. -/
theorem Path.assign_fails_setbacks : ∃ (w w₁ w₂ w₃ w₄ : World) (p q : Path) (root : Ref .object)
    (write : String → Action Bool),
    write = (ViewModel.write (Engine.ofFuel 2).compute (Subscriber.update (Engine.ofFuel 2)) ⟨0⟩ ·
      (.string "2")) ∧
    p.Stops (Engine.ofFuel 2).compute root w (.notAnObject "n.x" "x" .null) w₁ ∧
    (p.resolve (Engine.ofFuel 2).compute root).once w =
      some (.error (.notAnObject "n.x" "x" .null), w₁) ∧
    q.Stops (Engine.ofFuel 2).compute root w (.raised "no") w₂ ∧
    (q.resolve (Engine.ofFuel 2).compute root).once w = some (.error (.raised "no"), w₂) ∧
    (write "n.x" w = some (.error (.notAnObject "n.x" "x" .null), w₁) ∧ w.Consulted w₁) ∧
    (write "bad.x" w = some (.error (.raised "no"), w₂) ∧ w.Consulted w₂) ∧
    (write "c" w = some (.error (.readOnly "c"), w₃) ∧ w.Consulted w₃) ∧
    write "a..b" w = some (.error (.invalidPath "a..b"), w₄) ∧ w.Consulted w₄ := by
  obtain ⟨w, -, hrun⟩ := Moment.exists_of_run 2 [] setbacks
    (fun w =>
      let fails (path : String) (g : Fault) : Bool :=
        (ViewModel.write (Engine.ofFuel 2).compute (Subscriber.update (Engine.ofFuel 2)) ⟨0⟩ path
          (.string "2") w).any fun q => q.1 = .error g
      fails "n.x" (.notAnObject "n.x" "x" .null) && fails "bad.x" (.raised "no") &&
        fails "c" (.readOnly "c") && fails "a..b" (.invalidPath "a..b"))
    (by simp [setbacks, Step.AllPlain, Step.Plain, Step.PlainMethods, Expr.IsOwn,
      Expr.Tracked, Expr.Each, Expr.Inward, Expr.Joined, Expr.Firm])
    (by decide +kernel)
  simp only [Bool.and_eq_true, Option.any_eq_true, decide_eq_true_eq, Prod.exists] at hrun
  obtain ⟨⟨⟨⟨_, w₁, h₁, rfl⟩, _, w₂, h₂, rfl⟩, _, w₃, h₃, rfl⟩, _, w₄, h₄, rfl⟩ := hrun
  obtain ⟨hassign, hstops, hwrite⟩ :=
    Path.assign_fails 2 (Subscriber.update (Engine.ofFuel 2)) w
  let p : Path := ⟨["n", "x"], by decide⟩
  let q : Path := ⟨["bad", "x"], by decide⟩
  have hp : Path.parse "n.x" = .ok p := by decide
  have hq : Path.parse "bad.x" = .ok q := by decide
  have hs₁ : p.Stops (Engine.ofFuel 2).compute (w.models.get ⟨0⟩).data w
      (.notAnObject "n.x" "x" .null) w₁ := by
    have h := h₁
    rw [ViewModel.write_apply hp] at h
    obtain h | ⟨_, _, -, -, hr⟩ := (hassign p (w.models.get ⟨0⟩).data (.string "2") _ w₁).1 h
    · exact h
    · cases hr
  have hs₂ : q.Stops (Engine.ofFuel 2).compute (w.models.get ⟨0⟩).data w (.raised "no") w₂ := by
    have h := h₂
    rw [ViewModel.write_apply hq] at h
    obtain h | ⟨_, _, -, -, hr⟩ := (hassign q (w.models.get ⟨0⟩).data (.string "2") _ w₂).1 h
    · exact h
    · cases hr
  exact ⟨w, w₁, w₂, w₃, w₄, p, q, (w.models.get ⟨0⟩).data, _, rfl, hs₁, (hstops _ _ _ _ hs₁).1,
    hs₂, (hstops _ _ _ _ hs₂).1, ⟨h₁, (hwrite _ _ _ _ _ h₁).1⟩, ⟨h₂, (hwrite _ _ _ _ _ h₂).1⟩,
    ⟨h₃, (hwrite _ _ _ _ _ h₃).1⟩, h₄, (hwrite _ _ _ _ _ h₄).1⟩

end ViewBinding
