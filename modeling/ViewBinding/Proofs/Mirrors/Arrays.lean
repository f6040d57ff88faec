import ViewBinding.Proofs.Course.Laws

/-! The arrays of a world. An array is never changed, so two arrays with one identity have the same
items, and values that are the same are shown by the same text, up to the sign of zero. -/

namespace ViewBinding

abbrev Arrays := List (List Value)

variable {T T' : Arrays} {u v : Value} {w w' : World} {P : Step → Prop}

namespace Value

def Known (T : Arrays) (v : Value) : Prop :=
  ∀ i items, v = .array i items → T[i.index]? = some items

theorem Known.mono (h : v.Known T) (hT : T <+: T') : v.Known T' := fun i items hv => by
  obtain ⟨more, rfl⟩ := hT
  have hi := h i items hv
  rw [List.getElem?_append_left (List.getElem?_eq_some_iff.1 hi).1]
  exact hi

theorem known_null : null.Known T := fun _ _ h => nomatch h

theorem known_bool (b : Bool) : (bool b).Known T := fun _ _ h => nomatch h

theorem known_number (x : Float) : (number x).Known T := fun _ _ h => nomatch h

theorem known_string (s : String) : (string s).Known T := fun _ _ h => nomatch h

theorem known_object (o : Ref .object) : (object o).Known T := fun _ _ h => nomatch h

/-- Whether a text shows a value, up to the sign of zero. -/
def ShownBy (v : Value) (text : String) : Prop :=
  text = v.text ∨ ∃ x : Float, v = .number x ∧ (x == 0) = true ∧ (text = "0" ∨ text = "-0")

end Value

section Numbers

open Float.Model (UnpackedFloat)

theorem UnpackedFloat.eq_of_beq {a b : UnpackedFloat} (h : a.beq b = true) :
    a = b ∨ ∃ s t, a = .zero s ∧ b = .zero t := by
  cases a with
  | notANumber => cases b <;> cases h
  | infinity s =>
    left
    cases b with
    | infinity t =>
      cases s <;> cases t
      · rfl
      · cases h
      · cases h
      · rfl
    | _ => cases s <;> cases h
  | zero s =>
    cases b with
    | zero t => exact .inr ⟨s, t, rfl, rfl⟩
    | notANumber => cases h
    | infinity t => cases t <;> cases h
    | finite t m e hm => cases t <;> cases h
  | finite s m e hm =>
    left
    cases b with
    | notANumber => cases s <;> cases h
    | infinity t => cases s <;> cases t <;> cases h
    | zero t => cases s <;> cases h
    | finite t m' e' hm' =>
      -- Numbers of one sign are compared by exponent, then by significand; negative ones the
      -- other way round.
      have hcompare : s = t ∧ (compare e e').then (compare m m') = .eq := by
        cases s <;> cases t
        · exact ⟨rfl, Ordering.swap_eq_eq.1 (Option.some.inj (beq_iff_eq.1 h))⟩
        · cases h
        · cases h
        · exact ⟨rfl, Option.some.inj (beq_iff_eq.1 h)⟩
      obtain ⟨rfl, hc⟩ := hcompare
      obtain ⟨he, hm⟩ := Ordering.then_eq_eq.1 hc
      obtain rfl := Std.LawfulEqCmp.eq_of_compare he
      obtain rfl := Std.LawfulEqCmp.eq_of_compare hm
      rfl

theorem Decimal.text_congr {x y : Float} (h : x.toModel.unpack = y.toModel.unpack)
    (infinity : String) : Decimal.text infinity x = Decimal.text infinity y := by
  rw [Decimal.text, Decimal.text, h]

theorem Float.beq_zero {x : Float} {s : UnpackedFloat.Sign} (h : x.toModel.unpack = .zero s) :
    (x == 0) = true := by
  show x.toModel.unpack.beq (0 : Float).toModel.unpack = true
  rw [h]
  rfl

theorem Value.shownBy_of_beq {x y : Float} (h : (x == y) = true) :
    (Value.number y).ShownBy (Value.number x).text := by
  obtain h | ⟨s, t, hx, hy⟩ := UnpackedFloat.eq_of_beq (a := x.toModel.unpack) h
  · exact .inl (Decimal.text_congr h _)
  · refine .inr ⟨y, rfl, Float.beq_zero hy, ?_⟩
    show Decimal.text "Infinity" x = "0" ∨ Decimal.text "Infinity" x = "-0"
    rw [Decimal.text, hx]
    cases s
    · exact .inr rfl
    · exact .inl rfl

theorem Decimal.text_of_isNaN {x : Float} (h : x.isNaN = true) (infinity : String) :
    Decimal.text infinity x = "NaN" := by
  have hu : x.toModel.unpack.isNaN = true := h
  rw [Decimal.text]
  cases hx : x.toModel.unpack with
  | notANumber => rfl
  | _ => rw [hx] at hu; cases hu

end Numbers

/-- Values that agree are shown by one text, up to the sign of zero, if arrays with one identity are
one. -/
theorem Value.shownBy_of_agrees (h : u.Agrees v) (hu : u.Known T) (hv : v.Known T) :
    v.ShownBy u.text := by
  obtain h | ⟨x, y, rfl, rfl, hx, hy⟩ := h
  · cases u with
    | null =>
      cases v with
      | null => exact .inl rfl
      | _ => cases h
    | bool a =>
      cases v with
      | bool b => exact .inl (congrArg (fun b => (Value.bool b).text) (beq_iff_eq.1 h))
      | _ => cases h
    | number x =>
      cases v with
      | number y => exact shownBy_of_beq h
      | _ => cases h
    | string s =>
      cases v with
      | string t => exact .inl (beq_iff_eq.1 h)
      | _ => cases h
    | array i items =>
      cases v with
      | array j items' =>
        -- Arrays agree by identity, and one that is known has the same items for ever.
        obtain rfl : i = j := beq_iff_eq.1 h
        have hi := (hu i items rfl).symm.trans (hv i items' rfl)
        rw [Option.some.inj hi]
        exact .inl rfl
      | _ => cases h
    | object o =>
      cases v with
      | object o' => exact .inl rfl
      | _ => cases h
  · left
    show Decimal.text _ x = Decimal.text _ y
    rw [Decimal.text_of_isNaN hx, Decimal.text_of_isNaN hy]

namespace World

/-- Whether the arrays in the data, those that watchers saw and those that have a name are among the
arrays that were made. -/
structure Knows (w : World) (T : Arrays) : Prop where
  next : w.nextArray.index = T.length
  cell : ∀ c, (w.cells.get c).value.Known T
  seen : ∀ r, (w.watchers.get r).value.Known T
  saved : ∀ (name : String) v, w.names.values[name]? = some v → v.Known T

namespace Knows

theorem of_same (h : w.Knows T) (hn : w'.nextArray = w.nextArray)
    (hc : ∀ c, (w'.cells.get c).value = (w.cells.get c).value)
    (hr : ∀ r, (w'.watchers.get r).value = (w.watchers.get r).value)
    (hv : w'.names.values = w.names.values) : w'.Knows T where
  next := by rw [hn, h.next]
  cell c := by
    rw [hc]
    exact h.cell c
  seen r := by
    rw [hr]
    exact h.seen r
  saved name v hs := h.saved name v (by rwa [hv] at hs)

theorem setRegistry (h : w.Knows T) (source : Source) (registry : Registry) :
    (w.setRegistry source registry).Knows T := by
  cases source with
  | cell c =>
    refine h.of_same rfl (fun c' => ?_) (fun _ => rfl) rfl
    obtain e | ⟨-, -, e⟩ :=
      w.cells.get_modify_cases c c' fun cell : Cell => { cell with registry }
    · exact congrArg Cell.value e
    · exact (congrArg Cell.value e :)
  | waiting o key => exact h.of_same rfl (fun _ => rfl) (fun _ => rfl) rfl
  | registry r => exact h.of_same rfl (fun _ => rfl) (fun _ => rfl) rfl

theorem addCell (h : w.Knows T) (hv : v.Known T) : (w.addCell v).2.Knows T where
  next := h.next
  cell c := by
    rw [World.addCell, Store.get_add]
    split
    · exact hv
    · exact h.cell c
  seen := h.seen
  saved := h.saved

theorem store (h : w.Knows T) (c : Ref .cell) (hv : v.Known T) : (w.store c v).Knows T where
  next := h.next
  cell c' := by
    obtain e | ⟨-, -, e⟩ :=
      w.cells.get_modify_cases c c' fun cell : Cell => { cell with value := v }
    · exact (congrArg (fun cell : Cell => cell.value.Known T) e).mpr (h.cell c')
    · exact (congrArg (fun cell : Cell => cell.value.Known T) e).mpr hv
  seen := h.seen
  saved := h.saved

theorem remember (h : w.Knows T) (r : Ref .watcher) (hv : v.Known T) :
    (w.remember r v).Knows T where
  next := h.next
  cell := h.cell
  seen r' := by
    obtain e | ⟨-, e⟩ := w.remember_cases r r' v
    · exact (congrArg (fun watcher : Watcher => watcher.value.Known T) e).mpr (h.seen r')
    · exact (congrArg (fun watcher : Watcher => watcher.value.Known T) e).mpr hv
  saved := h.saved

theorem addWatcher (h : w.Knows T) {watcher : Watcher} (hv : watcher.value.Known T) :
    (w.addWatcher watcher).Knows T where
  next := h.next
  cell := h.cell
  seen r := by
    rw [World.addWatcher, Store.get_add]
    split
    · exact hv
    · exact h.seen r
  saved := h.saved

theorem addArray (h : w.Knows T) (items : List Value) :
    (w.addArray items).2.Knows (T ++ [items]) ∧ (w.addArray items).1.Known (T ++ [items]) := by
  have hT : T <+: T ++ [items] := List.prefix_append T [items]
  refine ⟨⟨?_, fun c => (h.cell c).mono hT, fun r => (h.seen r).mono hT,
    fun name v hs => (h.saved name v hs).mono hT⟩, fun i items' he => ?_⟩
  · rw [List.length_append, ← h.next]
    rfl
  · cases he
    rw [h.next, List.getElem?_append_right (Nat.le_refl _), Nat.sub_self]
    rfl

mutual

theorem observe : ∀ (d : Document) {w : World} {T : Arrays}, w.Knows T →
    ∃ T', T <+: T' ∧ (World.observe d w).2.Knows T' ∧ (World.observe d w).1.Known T'
  | .null, _, T, h => ⟨T, List.prefix_refl T, h, Value.known_null⟩
  | .bool _, _, T, h => ⟨T, List.prefix_refl T, h, Value.known_bool _⟩
  | .number _, _, T, h => ⟨T, List.prefix_refl T, h, Value.known_number _⟩
  | .string _, _, T, h => ⟨T, List.prefix_refl T, h, Value.known_string _⟩
  | .array items, w, T, h => by
    obtain ⟨T', hT, h'⟩ := observeItems items h
    have ha := h'.addArray (World.observeItems items w).1
    exact ⟨_, hT.trans (List.prefix_append ..), ha.1, ha.2⟩
  | .object fields, w, T, h => by
    obtain ⟨T', hT, h'⟩ := observeFields fields ∅ h
    exact ⟨T', hT, h'.of_same rfl (fun _ => rfl) (fun _ => rfl) rfl, Value.known_object _⟩

theorem observeItems : ∀ (ds : List Document) {w : World} {T : Arrays}, w.Knows T →
    ∃ T', T <+: T' ∧ (World.observeItems ds w).2.Knows T'
  | [], _, T, h => ⟨T, List.prefix_refl T, h⟩
  | d :: ds, _, T, h => by
    obtain ⟨T₁, hT₁, h₁, -⟩ := observe d h
    obtain ⟨T₂, hT₂, h₂⟩ := observeItems ds h₁
    exact ⟨T₂, hT₁.trans hT₂, h₂⟩

theorem observeFields : ∀ (fields : List (String × Document)) (slots : Keyed Slot) {w : World}
    {T : Arrays}, w.Knows T → ∃ T', T <+: T' ∧ (World.observeFields fields slots w).2.Knows T'
  | [], _, _, T, h => ⟨T, List.prefix_refl T, h⟩
  | (key, d) :: fields, slots, w, T, h => by
    obtain ⟨T₁, hT₁, h₁, hv⟩ := observe d h
    obtain ⟨T₂, hT₂, h₂⟩ := observeFields fields
      (slots.insert key (.cell (World.observe d w).2.cells.fresh)) (h₁.addCell hv)
    exact ⟨T₂, hT₁.trans hT₂, h₂⟩

end

end Knows

theorem knows_empty : ({} : World).Knows [] where
  next := rfl
  cell c := by
    rw [show ({} : World).cells.get c = {} from Store.get_of_size_le _ (Nat.zero_le _)]
    exact Value.known_null
  seen r := by
    rw [show ({} : World).watchers.get r = default from Store.get_of_size_le _ (Nat.zero_le _)]
    exact Value.known_null
  saved name v hs := by simp at hs

end World
end ViewBinding
