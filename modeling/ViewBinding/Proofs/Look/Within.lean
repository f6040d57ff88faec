import ViewBinding.Proofs.Valid

/-! Looking around a world leads only to what was made. -/

namespace ViewBinding

/-- The data leads only to what was made, and no subscriber is registered twice in one place. The
data may be shared and lead back to itself. -/
structure World.Closed (w : World) : Prop where
  cell : ∀ o key c, w.slot? o key = some (.cell c) → c.index < w.cells.size
  computed : ∀ o key p, w.slot? o key = some (.computed p) → p.model.index < w.models.size
  value : ∀ c, (w.cells.get c).value.Within w.objects.size
  root : ∀ m, m.index < w.models.size → (w.models.get m).data.index < w.objects.size
  named : ∀ m, w.names.models.holds m → m.index < w.models.size
  saved : ∀ (name : String) v, w.names.values[name]? = some v → v.Within w.objects.size
  sound : ∀ source, (w.registry source).Sound

theorem World.Valid.closed {w : World} (hw : w.Valid) : w.Closed where
  cell := hw.cell
  computed o key p h := (hw.computed o key p h).1
  value := hw.value
  root := hw.root
  named := hw.namedModel
  saved := hw.saved
  sound := hw.sound

/-- Every computed property in sight depends on nothing but what it reads and what it names. -/
def Sight.Attached (d : Sight) : Prop := ∀ p, d.Shows p → p.body.Attached

theorem Sight.Attached.steady {d : Sight} (h : d.Attached) : d.Steady :=
  fun o key p hp => (h p ⟨o, key, hp⟩).steady

theorem Sight.Tracked.attached {d : Sight} (h : d.Tracked) : d.Attached :=
  fun p hp => (h p hp).attached

namespace Look

variable {α β : Type} {w : World}

/-- A look that marks only sources that were made, with a result for which `Q` holds. -/
def Within (w : World) (l : Look α) (Q : α → Prop) : Prop :=
  ∀ r ms, l.run = some (r, ms) →
    (∀ source, .read source ∈ ms → source.Within w) ∧ ∀ a, r = .ok a → Q a

namespace Within

variable {Q : α → Prop} {R : β → Prop}

theorem pure {a : α} (h : Q a) : (Pure.pure a : Look α).Within w Q := by
  rintro r ms hr
  cases hr
  exact ⟨fun _ hm => (nomatch hm), fun b hb => by cases hb; exact h⟩

theorem fail (f : Fault) : (Look.fail f : Look α).Within w Q := by
  rintro r ms hr
  cases hr
  exact ⟨fun _ hm => (nomatch hm), fun b hb => nomatch hb⟩

theorem unfinished : (Look.unfinished : Look α).Within w Q := fun _ _ h => nomatch h

theorem ofExcept {r : Except Fault α} (h : ∀ a, r = .ok a → Q a) :
    (Look.ofExcept r).Within w Q := by
  rintro r' ms hr
  cases hr
  exact ⟨fun _ hm => (nomatch hm), h⟩

theorem mark {m : Mark} (h : ∀ source, .read source = m → source.Within w) :
    (Look.mark m).Within w fun _ => True := by
  rintro r ms hr
  cases hr
  exact ⟨fun source hm => h source (List.mem_singleton.1 hm), fun _ _ => trivial⟩

theorem untracked {x : Look α} (hx : x.Within w Q) : x.untracked.Within w Q := by
  rintro r ms h
  obtain ⟨⟨r, ms⟩, hr, he⟩ := Option.map_eq_some_iff.1 h
  cases he
  exact ⟨fun source hm => (hx _ _ hr).1 source (List.mem_filter.1 hm).1, (hx _ _ hr).2⟩

theorem bind {x : Look α} {f : α → Look β} (hx : x.Within w Q) (hf : ∀ a, Q a → (f a).Within w R) :
    (x >>= f).Within w R := by
  intro r ms h
  rw [run_bind, Option.bind_eq_some_iff] at h
  obtain ⟨⟨g | a, ms₁⟩, h₁, h₂⟩ := h
  · cases h₂
    exact ⟨(hx _ _ h₁).1, fun b hb => nomatch hb⟩
  · rw [next_ok, Option.map_eq_some_iff] at h₂
    obtain ⟨⟨r₂, ms₂⟩, h₂, he⟩ := h₂
    cases he
    obtain ⟨hm₁, hq⟩ := hx _ _ h₁
    obtain ⟨hm₂, hr⟩ := hf a (hq a rfl) _ _ h₂
    refine ⟨fun source hm => ?_, hr⟩
    exact (List.mem_append.1 hm).elim (hm₁ source) (hm₂ source)

end Within

end Look

section

variable {w : World} {compute : Computed → Look Value}

theorem Cell.look_within (hw : w.Closed) {c : Ref .cell} (hc : c.index < w.cells.size) :
    (Cell.look w.sight c).Within w (Value.Within w.objects.size) :=
  .bind (.mark fun source hs => by cases hs; exact hc) fun _ _ => .pure (hw.value c)

def World.Bounded (w : World) (compute : Computed → Look Value) : Prop :=
  ∀ p, w.sight.Shows p → (compute p).Within w (Value.Within w.objects.size)

theorem Value.within_of_object? {n : Nat} {v : Value} (h : v.object? = none) : v.Within n := by
  intro o ho
  rw [h] at ho
  cases ho

theorem Object.look_within (hw : w.Closed) (hc : w.Bounded compute) {o : Ref .object}
    (ho : o.index < w.objects.size) (key : String) :
    (Object.look w.sight compute o key).Within w (Value.Within w.objects.size) := by
  rw [Object.look]
  split
  · exact Cell.look_within hw (hw.cell o key _ ‹_›)
  · exact hc _ ⟨o, key, ‹_›⟩
  · refine .bind (.mark fun source hs => ?_) fun _ _ => .pure (Value.within_of_object? rfl)
    cases hs
    exact ho

theorem Path.lookFrom_within (hw : w.Closed) (hc : w.Bounded compute) (p : Path)
    (segments : List String) {v : Value} (hv : v.Within w.objects.size) :
    (p.lookFrom w.sight compute segments v).Within w (Value.Within w.objects.size) := by
  induction segments generalizing v with
  | nil => exact .pure hv
  | cons segment rest ih =>
    refine .bind (Q := fun o => o.index < w.objects.size) (.ofExcept fun o ho => ?_) fun o ho =>
      .bind (Object.look_within hw hc ho segment) fun u hu => ih hu
    cases v <;> cases ho
    exact hv o rfl

theorem ViewModel.look_within (hw : w.Closed) (hc : w.Bounded compute) {m : Ref .model}
    (hm : m.index < w.models.size) (path : String) :
    (ViewModel.look w.sight compute m path).Within w (Value.Within w.objects.size) := by
  refine .bind (Q := fun _ => True) (.ofExcept fun _ _ => trivial) fun p _ => ?_
  refine Path.lookFrom_within hw hc p p.segments fun o ho => ?_
  obtain rfl := Option.some.inj ho
  exact hw.root m hm

theorem Frame.seek_within (hw : w.Closed) {m : Ref .model} (hm : m.index < w.models.size)
    (name : Option String) : (Look.ofExcept (Frame.seek w.sight { model := m } name)).Within w
      fun m' => m'.index < w.models.size := by
  refine .ofExcept fun m' h => ?_
  cases name with
  | none => cases h; exact hm
  | some name =>
    cases hn : w.names.models.held[name]? with
    | none =>
      simp only [Frame.seek, Frame.seek.found, World.sight, hn] at h
      cases h
    | some m'' =>
      simp only [Frame.seek, Frame.seek.found, World.sight, hn] at h
      cases h
      exact hw.named _ ((Holder.holds_iff _ _).2 ⟨name, hn⟩)

mutual

theorem Expr.look_within (hw : w.Closed) (hc : w.Bounded compute) {m : Ref .model}
    (hm : m.index < w.models.size) : ∀ x : Expr, x.Steady →
      (x.look w.sight compute { model := m }).Within w (Value.Within w.objects.size)
  | .data doc, h => by
    cases doc with
    | array items => cases h
    | object fields => cases h
    | _ => exact .pure (Value.within_of_object? rfl)
  | .number _, _ => .pure (Value.within_of_object? rfl)
  | .get model path, _ =>
    .bind (Frame.seek_within hw hm model) fun _ hm' => ViewModel.look_within hw hc hm' path
  | .peek model path, _ =>
    .untracked <| .bind (Frame.seek_within hw hm model) fun _ hm' =>
      ViewModel.look_within hw hc hm' path
  | .property object key, h =>
    .bind (look_within hw hc hm object h.1) fun u hu =>
      .bind (look_within hw hc hm key h.2) fun k _ => by
        cases ho : u.object? with
        | none => exact .fail _
        | some o => exact Object.look_within hw hc (hu o ho) k.text
  | .root model, _ =>
    .bind (Frame.seek_within hw hm (some model)) fun m' hm' => .pure fun o ho => by
      obtain rfl := Option.some.inj ho
      exact hw.root m' hm'
  | .saved name, _ => by
    have hs : w.sight.saved? name = w.names.values[name]? := rfl
    simp only [Expr.look, hs]
    cases h : w.names.values[name]? with
    | none => exact .fail _
    | some v => exact .pure (hw.saved name v h)
  | .array _, h => h.1.elim
  | .concat parts, h =>
    .bind (lookAll_within hw hc hm parts h) fun _ _ => .pure (Value.within_of_object? rfl)
  | .add a b, h =>
    .bind (look_within hw hc hm a h.1) fun _ _ =>
      .bind (look_within hw hc hm b h.2) fun _ _ => .pure (Value.within_of_object? rfl)
  | .mul a b, h =>
    .bind (look_within hw hc hm a h.1) fun _ _ =>
      .bind (look_within hw hc hm b h.2) fun _ _ => .pure (Value.within_of_object? rfl)
  | .less a b, h =>
    .bind (look_within hw hc hm a h.1) fun _ _ =>
      .bind (look_within hw hc hm b h.2) fun _ _ => .pure (Value.within_of_object? rfl)
  | .same a b, h =>
    .bind (look_within hw hc hm a h.1) fun _ _ =>
      .bind (look_within hw hc hm b h.2) fun _ _ => .pure (Value.within_of_object? rfl)
  | .cond test yes no, h =>
    .bind (look_within hw hc hm test h.1) fun v _ => by
      cases v.isTrue with
      | true => exact look_within hw hc hm yes h.2.1
      | false => exact look_within hw hc hm no h.2.2
  | .sort e, h => .bind (look_within hw hc hm e h) fun _ _ => .pure (Value.within_of_object? rfl)
  | .fail _, _ => .fail _
  | .tracking, h => nomatch h
  | .registrations, h => nomatch h
  | .argument which, _ => by
    refine .pure (Value.within_of_object? ?_)
    cases which <;> rfl

theorem Expr.lookAll_within (hw : w.Closed) (hc : w.Bounded compute) {m : Ref .model}
    (hm : m.index < w.models.size) : ∀ xs : List Expr, Expr.EachAll Expr.Firm xs →
      (Expr.lookAll w.sight compute { model := m } xs).Within w fun _ => True
  | [], _ => .pure trivial
  | x :: xs, h =>
    .bind (look_within hw hc hm x h.1) fun _ _ =>
      .bind (lookAll_within hw hc hm xs h.2) fun _ _ => .pure trivial

end

end

theorem World.Closed.bounded_of_steady {w : World} (hw : w.Closed) (hc : w.sight.Steady) (n : Nat) :
    w.Bounded (w.sight.compute n) := by
  induction n with
  | zero => exact fun _ _ => .unfinished
  | succ n ih =>
    rintro p ⟨o, key, hp⟩
    rw [Sight.compute]
    split
    · refine .bind (.mark fun source hs => by cases hs) fun _ _ => ?_
      exact Expr.look_within hw ih (hw.computed o key p hp) p.body (hc o key p hp)
    · exact .fail _

theorem World.Closed.bounded {w : World} (hw : w.Closed) (hc : w.sight.Attached) (n : Nat) :
    w.Bounded (w.sight.compute n) :=
  hw.bounded_of_steady hc.steady n

theorem World.Valid.bounded {w : World} (hw : w.Valid) (n : Nat) :
    w.Bounded (w.sight.compute n) :=
  hw.closed.bounded hw.tracked.attached n

end ViewBinding
