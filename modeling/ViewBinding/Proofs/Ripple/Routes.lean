import ViewBinding.Proofs.Documents.Doubles
import ViewBinding.Proofs.Ripple.Pass

/-! Paths through plain data. A write to the end of such a path leaves the way there as it is, so
what was written is what the path leads to then. -/

namespace ViewBinding

variable {w w' : World} {v : Value} {o o' o'' root : Ref .object} {c : Ref .cell} {key : String}
  {segments rest : List String} {compute : Computed → Reading Value} {p : Path} {source : Source}

namespace World

/-- Whether a value unfolds to a plain document of finite depth: it contains itself nowhere. What is
computed is not contained in an object. -/
inductive Finite (w : World) : Value → Prop
  | null : Finite w .null
  | bool (b : Bool) : Finite w (.bool b)
  | number (x : Float) : Finite w (.number x)
  | string (s : String) : Finite w (.string s)
  | array {a : Ref .array} {vs : List Value} : (∀ v ∈ vs, Finite w v) → Finite w (.array a vs)
  | object {o : Ref .object} :
      (∀ key c, w.slot? o key = some (.cell c) → Finite w (w.cells.get c).value) →
      Finite w (.object o)

end World

theorem Layout.Fits.field_of_slot {l : Layout} {slots : String → Option Slot}
    {fields : List (String × Document)} {S : Set Location} (h : l.Fits slots fields S)
    (hs : slots key = some (.cell c)) :
    ∃ d, Document.field? fields key = some d ∧ c = l.cell key := by
  cases hk : Document.field? fields key with
  | none => exact absurd (hs.symm.trans (h.missing key hk)) (by simp)
  | some d =>
    have he := hs.symm.trans (h.cell key d hk)
    cases he
    exact ⟨d, rfl, rfl⟩

namespace World

mutual

theorem Holds.finite : ∀ {v : Value} {d : Document} {S : Set Location}, w.Holds v d S → w.Finite v
  | _, _, _, .null => .null
  | _, _, _, .bool b => .bool b
  | _, _, _, .number n => .number n.toFloat
  | _, _, _, .string s => .string s
  | _, _, _, .array _ h => .array h.finite
  | _, _, _, .object l _ _ _ _ hf hc => by
    have hfields := fun key d hk => (hc key d hk).finite
    refine .object fun key c hs => ?_
    obtain ⟨d, hk, rfl⟩ := hf.field_of_slot hs
    exact hfields key d hk

theorem HoldsAll.finite : ∀ {vs : List Value} {ds : List Document} {S : Set Location},
    w.HoldsAll vs ds S → ∀ v ∈ vs, w.Finite v
  | _, _, _, .nil => fun _ h => absurd h List.not_mem_nil
  | _, _, _, .cons h hs => by
    have hfirst := h.finite
    have hrest := hs.finite
    intro v hv
    rcases List.mem_cons.1 hv with rfl | hv
    · exact hfirst
    · exact hrest v hv

end

/-- In a run in which nothing but new plain data is written, the data of the view-model is finite at
every moment. -/
theorem Doubles.finite {P : Step → Prop} {m : Ref .model} {d : Document}
    (hP : ¬ViewBinding.Writable P) (hd : ¬Definable P) (h : Doubles P m w d) :
    w.Finite (.object (w.models.get m).data) := by
  obtain ⟨⟨-, S, -, hholds⟩, -⟩ := h.backs hP hd
  exact hholds.finite

theorem Finite.of_eq (h : w.Finite v) (hs : w'.slot? = w.slot?) (hc : w'.cells = w.cells) :
    w'.Finite v := by
  induction h with
  | null => exact .null
  | bool b => exact .bool b
  | number x => exact .number x
  | string s => exact .string s
  | array _ ih => exact .array ih
  | object _ ih =>
    refine .object fun key c hslot => ?_
    rw [hs] at hslot
    rw [hc]
    exact ih key c hslot

/-- Whether names lead from one object to another through properties that hold values. -/
inductive Route (w : World) : Ref .object → List String → Ref .object → Prop
  | nil (o : Ref .object) : Route w o [] o
  | cons {o o' o'' : Ref .object} {key : String} {rest : List String} {c : Ref .cell} :
      w.slot? o key = some (.cell c) → (w.cells.get c).value = .object o' →
      Route w o' rest o'' → Route w o (key :: rest) o''

theorem Route.append (h : w.Route o segments o') (h' : w.Route o' rest o'') :
    w.Route o (segments ++ rest) o'' := by
  induction h with
  | nil => exact h'
  | cons hs hv _ ih => exact .cons hs hv (ih h')

theorem Route.of_eq (h : w.Route o segments o') (hs : w'.slot? = w.slot?)
    (hc : w'.cells = w.cells) : w'.Route o segments o' := by
  induction h with
  | nil => exact .nil _
  | cons hslot hvalue _ ih => exact .cons (by rw [hs, hslot]) (by rw [hc, hvalue]) ih

theorem Finite.acyclic (h : w.Finite v) (hv : v = .object o) (hs : segments ≠ []) :
    ¬w.Route o segments o := by
  induction h generalizing o segments with
  | @object o₁ _ ih =>
    cases hv
    intro hroute
    cases hroute with
    | nil => exact hs rfl
    | @cons _ o₂ _ key rest c hslot hvalue hrest =>
      -- The cycle begins one step later as well.
      refine ih key c hslot hvalue ?_ (hrest.append (.cons hslot hvalue (.nil o₂)))
      simp
  | _ => cases hv

theorem Route.finite (h : w.Route o segments o') (hf : w.Finite (.object o)) :
    w.Finite (.object o') := by
  induction h with
  | nil => exact hf
  | cons hs hv _ ih =>
    cases hf with
    | object hf =>
      have hcell := hf _ _ hs
      rw [hv] at hcell
      exact ih hcell

theorem Route.within (h : w.Route o segments o') (hw : w.Valid) (ho : o.index < w.objects.size) :
    o'.index < w.objects.size := by
  induction h with
  | nil => exact ho
  | @cons o₁ o₂ _ key _ c _ hv _ ih =>
    refine ih ?_
    have hvalue := hw.value c
    rw [hv] at hvalue
    exact hvalue o₂ rfl

theorem Route.follow (h : w.Route o segments o') (compute : Computed → Reading Value) (p : Path)
    (rest : List String) : p.follow compute (segments ++ rest) (.object o) {} w =
      p.follow compute rest (.object o') {} w := by
  induction h with
  | nil => rfl
  | @cons o₁ o₂ _ key _ c hs hv _ ih =>
    have hread : Object.read compute o₁ key {} w = some ((.ok (.object o₂), {}), w) := by
      rw [Object.read, Reading.getWorld_bind, hs, ← hv]
      rfl
    show (Object.read compute o₁ key >>= fun u => p.follow compute (_ ++ rest) u) {} w = _
    rw [Reading.bind_apply, hread]
    exact ih

theorem Route.follow_once (h : w.Route o segments o') (compute : Computed → Reading Value)
    (p : Path) : (p.follow compute segments (.object o)).once w = some (.ok (.object o'), w) := by
  have hfollow := h.follow compute p []
  rw [List.append_nil] at hfollow
  exact Reading.once_apply hfollow

theorem Route.find (h : w.Route root p.parents o) :
    (Site.path p root).find compute w = (w.property? o p.last).map (·, w) := by
  simp only [Site.find, h.follow_once compute p]
  rfl

theorem Route.resolve (h : w.Route root p.parents o) {u : Value}
    (hs : Object.read compute o p.last {} w = some ((.ok u, {}), w)) :
    (p.resolve compute root).once w = some (.ok u, w) := by
  have hfollow := h.follow compute p [p.last]
  have hlast : p.follow compute [p.last] (.object o) {} w = some ((.ok u, {}), w) := by
    show (Object.read compute o p.last >>= fun u => p.follow compute [] u) {} w = _
    rw [Reading.bind_apply, hs]
    rfl
  rw [p.parents_append_last, hlast] at hfollow
  exact Reading.once_apply hfollow

theorem Route.assign_same (h : w.Route root p.parents o) (hs : w.slot? o p.last = some (.cell c))
    {s : String} (hv : (w.cells.get c).value = .string s) (update : Subscriber → Action Unit) :
    p.assign compute update root (.string s) w = some (.ok false, w) := by
  have hwrite : Object.write update o p.last (.string s) w = some (.ok false, w) := by
    rw [Object.write_cell hs, Cell.write_apply, hv]
    simp [Value.same]
  rw [Path.assign, Action.bind_apply, h.follow_once compute p]
  exact hwrite

theorem slot?_of_property? (h : w.property? o key = some (.cell c)) :
    w.slot? o key = some (.cell c) := by
  unfold property? at h
  split at h
  · cases h
    assumption
  · cases h
  · cases h

theorem read_of_property (hs : w.property? o key = some source) :
    Object.read compute o key {} w = some ((.ok (w.sight.field o key), {}), w) := by
  unfold property? at hs
  rw [Object.read, Reading.getWorld_bind, Sight.field]
  cases hslot : w.slot? o key with
  | none =>
    rw [show w.sight.slot? o key = none from hslot]
    rfl
  | some slot =>
    rw [hslot] at hs
    cases slot with
    | computed q => cases hs
    | cell c =>
      rw [show w.sight.slot? o key = some (.cell c) from hslot]
      rfl

theorem Route.kept (h : w.Route root segments o) (hw : w.Valid) (hf : w.Finite (.object root))
    (hroot : root.index < w.objects.size) (hs : w.property? o key = some source)
    (hk : ∀ other, source ≠ other → other.Kept w w') : w'.Route root segments o := by
  induction h with
  | nil => exact .nil _
  | @cons o₁ o₂ o₃ key' rest c hslot hvalue hrest ih =>
    have hc := hw.cell o₁ key' c hslot
    have ho₂ : o₂.index < w.objects.size := by
      have hv := hw.value c
      rw [hvalue] at hv
      exact hv o₂ rfl
    have hf₂ : w.Finite (.object o₂) :=
      (Route.cons hslot hvalue (.nil o₂)).finite hf
    have hwaiting : source ≠ .waiting o₁ key' := by
      rintro rfl
      unfold property? at hs
      split at hs
      · cases hs
      · cases hs
      · rename_i hn
        cases hs
        exact absurd (hslot.symm.trans hn) (by simp)
    -- The cell on the way is not the one at the end, or else the way were a cycle.
    have hcell : source ≠ .cell c := by
      rintro rfl
      unfold property? at hs
      split at hs
      · cases hs
        exact hf₂.acyclic rfl (by simp) (hrest.append (.cons ‹_› hvalue (.nil o₂)))
      · cases hs
      · cases hs
    have hslot' := hk _ hwaiting hroot
    have hvalue' := hk _ hcell hc
    exact .cons (hslot'.trans hslot) (hvalue'.trans hvalue) (ih hf₂ ho₂ hs)

theorem Route.keeps (h : w.Route root p.parents o) (hw : w.Valid) (hf : w.Finite (.object root))
    (hroot : root.index < w.objects.size) (hs : w.property? o p.last = some source)
    (hk : ∀ other, source ≠ other → other.Kept w w') (hv : source.Keeps w' v) :
    w'.Route root p.parents o ∧ ∃ c, w'.slot? o p.last = some (.cell c) ∧
      (w'.cells.get c).value = v := by
  refine ⟨h.kept hw hf hroot hs hk, ?_⟩
  unfold property? at hs
  split at hs
  · rename_i c hslot
    cases hs
    have hslot' := hk (.waiting o p.last) (by simp) (h.within hw hroot)
    exact ⟨c, hslot'.trans hslot, hv⟩
  · cases hs
  · cases hs
    exact hv

end World

end ViewBinding
