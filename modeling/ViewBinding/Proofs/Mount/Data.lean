import ViewBinding.Proofs.Look.Reading

/-! Data without computed properties, and two pieces of such data that differ in what their values
are but not in their keys and sorts. -/

namespace ViewBinding

variable {d d₁ d₂ : Sight} {P : Ref .object → Prop} {R : Ref .object → Ref .object → Prop}
  {u v : Value} {o₁ o₂ : Ref .object}

/-- Values of one sort; where both are objects, these are related. -/
def Value.Alike (R : Ref .object → Ref .object → Prop) (u v : Value) : Prop :=
  u.sort = v.sort ∧ ∀ o o', u = .object o → v = .object o' → R o o'

namespace Sight

def field (d : Sight) (o : Ref .object) (key : String) : Value :=
  match d.slot? o key with
  | some (.cell c) => d.value c
  | _ => .null

/-- What a path leads to if there are no computed properties on its way. -/
def follow (d : Sight) (p : Path) : List String → Value → Except Fault Value
  | [], v => .ok v
  | segment :: rest, v =>
    match p.owner v segment with
    | .ok o => d.follow p rest (d.field o segment)
    | .error f => .error f

def PlainOn (d : Sight) (P : Ref .object → Prop) : Prop :=
  ∀ o, P o → ∀ key, d.slot? o key = none ∨
    ∃ c, d.slot? o key = some (.cell c) ∧ ∀ o', d.value c = .object o' → P o'

/-- Whether related objects have the same keys and values of the same sorts, all in cells. -/
def Resembles (d₁ d₂ : Sight) (R : Ref .object → Ref .object → Prop) : Prop :=
  ∀ o₁ o₂, R o₁ o₂ → ∀ key, (d₁.slot? o₁ key = none ∧ d₂.slot? o₂ key = none) ∨
    ∃ c₁ c₂, d₁.slot? o₁ key = some (.cell c₁) ∧ d₂.slot? o₂ key = some (.cell c₂) ∧
      (d₁.value c₁).Alike R (d₂.value c₂)

theorem field_congr (hs : d₂.slot? = d₁.slot?) (hv : d₂.value = d₁.value) :
    d₂.field = d₁.field := by
  funext o key
  rw [field, field, hs, hv]

theorem follow_congr (hs : d₂.slot? = d₁.slot?) (hv : d₂.value = d₁.value) (p : Path)
    (segments : List String) (v : Value) : d₂.follow p segments v = d₁.follow p segments v := by
  induction segments generalizing v with
  | nil => rfl
  | cons segment rest ih => simp only [follow, field_congr hs hv, ih]

theorem PlainOn.congr (h : d₁.PlainOn P) (hs : d₂.slot? = d₁.slot?) (hv : d₂.value = d₁.value) :
    d₂.PlainOn P := by
  intro o ho key
  rw [hs, hv]
  exact h o ho key

end Sight

theorem Value.eq_object {o : Ref .object} (h : v.object? = some o) : v = .object o := by
  cases v <;> cases h
  rfl

theorem Path.owner_of_object?_eq_none (p : Path) (segment : String) (h : v.object? = none) :
    p.owner v segment = .error (.notAnObject p.text segment v.sort) := by
  cases v <;> first | rfl | cases h

theorem Value.Alike.object (h : u.Alike R v) {o : Ref .object} (hu : u = .object o) :
    ∃ o', v = .object o' ∧ R o o' := by
  subst hu
  cases v with
  | object o' => exact ⟨o', rfl, h.2 o o' rfl rfl⟩
  | _ => exact nomatch h.1

theorem Value.Alike.symm (h : u.Alike R v) : v.Alike (fun o o' => R o' o) u :=
  ⟨h.1.symm, fun o o' hv hu => h.2 o' o hu hv⟩

namespace Sight.Resembles

theorem symm (h : d₁.Resembles d₂ R) : d₂.Resembles d₁ fun o o' => R o' o := by
  intro o₂ o₁ ho key
  obtain ⟨h₁, h₂⟩ | ⟨c₁, c₂, h₁, h₂, ha⟩ := h o₁ o₂ ho key
  · exact .inl ⟨h₂, h₁⟩
  · exact .inr ⟨c₂, c₁, h₂, h₁, ha.symm⟩

theorem plainOn (h : d₁.Resembles d₂ R) : d₁.PlainOn fun o => ∃ o', R o o' := by
  rintro o ⟨o', ho⟩ key
  obtain ⟨h₁, -⟩ | ⟨c₁, c₂, h₁, -, ha⟩ := h o o' ho key
  · exact .inl h₁
  · exact .inr ⟨c₁, h₁, fun u hu => (ha.object hu).imp fun _ => And.right⟩

theorem field (h : d₁.Resembles d₂ R) (ho : R o₁ o₂) (key : String) :
    (d₁.field o₁ key).Alike R (d₂.field o₂ key) := by
  obtain ⟨h₁, h₂⟩ | ⟨c₁, c₂, h₁, h₂, ha⟩ := h o₁ o₂ ho key
  · rw [Sight.field, Sight.field, h₁, h₂]
    exact ⟨rfl, fun _ _ h => nomatch h⟩
  · rw [Sight.field, Sight.field, h₁, h₂]
    exact ha

theorem owner (hv : u.Alike R v) (p : Path) (segment : String) :
    (∃ f, p.owner u segment = .error f ∧ p.owner v segment = .error f) ∨
      ∃ o o', p.owner u segment = .ok o ∧ p.owner v segment = .ok o' ∧ R o o' := by
  cases hu : u.object? with
  | some o =>
    have hu := Value.eq_object hu
    obtain ⟨o', rfl, ho⟩ := hv.object hu
    subst hu
    exact .inr ⟨o, o', rfl, rfl, ho⟩
  | none =>
    have hn : v.object? = none := by
      cases hv' : v.object? with
      | none => rfl
      | some o' =>
        obtain ⟨o, rfl, -⟩ := hv.symm.object (Value.eq_object hv')
        cases hu
    refine .inl ⟨_, p.owner_of_object?_eq_none segment hu, ?_⟩
    rw [p.owner_of_object?_eq_none segment hn, hv.1]

theorem follow (h : d₁.Resembles d₂ R) (p : Path) (segments : List String) (hv : u.Alike R v) :
    (∃ f, d₁.follow p segments u = .error f ∧ d₂.follow p segments v = .error f) ∨
      ∃ u' v', d₁.follow p segments u = .ok u' ∧ d₂.follow p segments v = .ok v' ∧
        u'.Alike R v' := by
  induction segments generalizing u v with
  | nil => exact .inr ⟨u, v, rfl, rfl, hv⟩
  | cons segment rest ih =>
    rw [Sight.follow, Sight.follow]
    obtain ⟨f, h₁, h₂⟩ | ⟨o, o', h₁, h₂, ho⟩ := owner hv p segment
    · rw [h₁, h₂]
      exact .inl ⟨f, rfl, rfl⟩
    · rw [h₁, h₂]
      exact ih (h.field ho segment)

end Sight.Resembles

section Reads

variable {w : World} {compute : Computed → Reading Value}

variable (compute) in
theorem Sight.PlainOn.read_apply (h : w.sight.PlainOn P) {o : Ref .object} (ho : P o) (key : String)
    (e : Evaluation) : (∀ o', w.sight.field o key = .object o' → P o') ∧
      ∃ m : Mark, Object.read compute o key e w =
        some ((.ok (w.sight.field o key), (m.leave (e, w)).1), (m.leave (e, w)).2) := by
  obtain hn | ⟨c, hc, hp⟩ := h o ho key
  · have hf : w.sight.field o key = .null := by rw [field, hn]
    refine ⟨fun o' h' => Value.noConfusion (hf.symm.trans h'), .read (.waiting o key), ?_⟩
    rw [Object.read, Reading.getWorld_bind, show w.slot? o key = none from hn, hf]
    dsimp only
    rw [Reading.bind_apply, Reading.register_apply]
    rfl
  · have hf : w.sight.field o key = w.sight.value c := by rw [field, hc]
    refine ⟨fun o' h' => hp o' (hf.symm.trans h'), .read (.cell c), ?_⟩
    rw [Object.read, Reading.getWorld_bind, show w.slot? o key = some (.cell c) from hc, hf]
    dsimp only
    rw [Cell.read, Reading.bind_apply, Reading.register_apply,
      ← Mark.sight_leave (.read (.cell c)) (e, w)]
    rfl

variable (compute) in
theorem Sight.PlainOn.follow_apply (h : w.sight.PlainOn P) (p : Path) (segments : List String)
    (hv : ∀ o, v = .object o → P o) (e : Evaluation) : ∃ ms, p.follow compute segments v e w =
      some ((w.sight.follow p segments v, (Mark.leaveAll ms (e, w)).1),
        (Mark.leaveAll ms (e, w)).2) := by
  induction segments generalizing v e w with
  | nil => exact ⟨[], rfl⟩
  | cons segment rest ih =>
    cases ho : v.object? with
    | none =>
      refine ⟨[], ?_⟩
      rw [Path.follow, Sight.follow, Path.owner_of_object?_eq_none p segment ho]
      rfl
    | some o =>
      obtain rfl := Value.eq_object ho
      obtain ⟨hp, m, hr⟩ := h.read_apply compute (hv o rfl) segment e
      have hs := Mark.sight_leave m (e, w)
      obtain ⟨ms, hms⟩ := ih (hs ▸ h) hp (m.leave (e, w)).1
      refine ⟨m :: ms, ?_⟩
      show (Object.read compute o segment >>= fun v => p.follow compute rest v) e w = _
      rw [Reading.bind_apply, hr]
      dsimp only
      rw [hms, hs]
      rfl

end Reads

end ViewBinding
