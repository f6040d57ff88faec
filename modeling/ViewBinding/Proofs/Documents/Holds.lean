import Mathlib.Data.Set.Lattice
import Mathlib.Order.CompletePartialOrder
import ViewBinding.Proofs.Documents.Spec
import ViewBinding.Proofs.Growth

/-! Data that holds a plain document. Every object and every cell below a value is there only once,
so a write of one property is a write of one place of the document. -/

namespace ViewBinding

/-- Where a part of a document is kept. -/
inductive Location
  | object (o : Ref .object)
  | cell (c : Ref .cell)
  | array (a : Ref .array)

namespace Location

def Within (w : World) : Location → Prop
  | object o => o.index < w.objects.size
  | cell c => c.index < w.cells.size
  | array a => a.index < w.nextArray.index

def Same (w w' : World) : Location → Prop
  | object o => ∀ key, w'.slot? o key = w.slot? o key
  | cell c => (w'.cells.get c).value = (w.cells.get c).value
  | array _ => True

def fresh (w w' : World) : Set Location := {l | ¬l.Within w ∧ l.Within w'}

end Location

structure Layout where
  cell : String → Ref .cell
  below : String → Set Location

namespace Layout

def place (l : Layout) (key : String) : Set Location := insert (.cell (l.cell key)) (l.below key)

def put (l : Layout) (key : String) (c : Ref .cell) (below : Set Location) : Layout where
  cell := Function.update l.cell key c
  below := Function.update l.below key below

/-- Whether the properties of an object are the fields of a document, each in a cell of its own with
a place apart from all others. -/
structure Fits (l : Layout) (slots : String → Option Slot) (fields : List (String × Document))
    (S : Set Location) : Prop where
  missing : ∀ key, Document.field? fields key = none → slots key = none
  cell : ∀ key d, Document.field? fields key = some d → slots key = some (.cell (l.cell key))
  sub : ∀ key d, Document.field? fields key = some d → l.place key ⊆ S
  own : ∀ key d, Document.field? fields key = some d → .cell (l.cell key) ∉ l.below key
  apart : ∀ key key' d d', Document.field? fields key = some d →
    Document.field? fields key' = some d' → key ≠ key' → Disjoint (l.place key) (l.place key')

end Layout

mutual

inductive World.Holds (w : World) : Value → Document → Set Location → Prop
  | null {S : Set Location} : Holds w .null .null S
  | bool {S : Set Location} (b : Bool) : Holds w (.bool b) (.bool b) S
  | number {S : Set Location} (n : Numeral) : Holds w (.number n.toFloat) (.number n) S
  | string {S : Set Location} (s : String) : Holds w (.string s) (.string s) S
  | array {S : Set Location} {a : Ref .array} {vs : List Value} {ds : List Document} :
      .array a ∈ S → HoldsAll w vs ds S → Holds w (.array a vs) (.array ds) S
  | object {S T : Set Location} {o : Ref .object} {fields : List (String × Document)}
      (l : Layout) : o.index < w.objects.size → .object o ∈ S → T ⊆ S → .object o ∉ T →
      l.Fits (w.slot? o) fields T →
      (∀ key d, Document.field? fields key = some d →
        Holds w (w.cells.get (l.cell key)).value d (l.below key)) →
      Holds w (.object o) (.object fields) S

inductive World.HoldsAll (w : World) : List Value → List Document → Set Location → Prop
  | nil {S : Set Location} : HoldsAll w [] [] S
  | cons {S : Set Location} {v : Value} {d : Document} {vs : List Value} {ds : List Document} :
      Holds w v d S → HoldsAll w vs ds S → HoldsAll w (v :: vs) (d :: ds) S

end

namespace Layout

variable {l : Layout} {slots slots' : String → Option Slot} {fields : List (String × Document)}
  {S S' B : Set Location} {key key' : String} {c : Ref .cell}

theorem place_put_self : (l.put key c B).place key = insert (.cell c) B := by
  simp only [place, put, Function.update_self]

theorem place_put_of_ne (h : key' ≠ key) : (l.put key c B).place key' = l.place key' := by
  simp only [place, put, Function.update_of_ne h]

theorem Fits.put (h : l.Fits slots fields S) (d : Document) (hc : .cell c ∉ B)
    (hB : insert (.cell c) B ⊆ S') (hS : S ⊆ S')
    (hd : ∀ key' d', key' ≠ key → Document.field? fields key' = some d' →
      Disjoint (insert (.cell c) B) (l.place key'))
    (hself : slots' key = some (.cell c)) (hother : ∀ key' ≠ key, slots' key' = slots key') :
    (l.put key c B).Fits slots' (fields ++ [(key, d)]) S' := by
  have hne {key' : String} (e : key' ≠ key) :
      Document.field? (fields ++ [(key, d)]) key' = Document.field? fields key' := by
    rw [Document.field?_concat, if_neg (Ne.symm e)]
  constructor
  · intro key' hk
    by_cases e : key' = key
    · subst e
      rw [Document.field?_concat, if_pos rfl] at hk
      cases hk
    · rw [hother key' e]
      exact h.missing key' ((hne e).symm.trans hk)
  · intro key' d' hk
    by_cases e : key' = key
    · subst e
      simpa only [Layout.put, Function.update_self] using hself
    · simp only [Layout.put, Function.update_of_ne e]
      exact (hother key' e).trans (h.cell key' d' ((hne e).symm.trans hk))
  · intro key' d' hk
    by_cases e : key' = key
    · subst e
      rwa [place_put_self]
    · rw [place_put_of_ne e]
      exact (h.sub key' d' ((hne e).symm.trans hk)).trans hS
  · intro key' d' hk
    by_cases e : key' = key
    · subst e
      simpa only [Layout.put, Function.update_self] using hc
    · simp only [Layout.put, Function.update_of_ne e]
      exact h.own key' d' ((hne e).symm.trans hk)
  -- Only the one place has moved, so two others are as far apart as they were.
  · intro key₁ key₂ d₁ d₂ h₁ h₂ hk
    by_cases e₁ : key₁ = key
    · subst e₁
      rw [place_put_self, place_put_of_ne hk.symm]
      exact hd key₂ d₂ hk.symm ((hne hk.symm).symm.trans h₂)
    · have h₁' := (hne e₁).symm.trans h₁
      rw [place_put_of_ne e₁]
      by_cases e₂ : key₂ = key
      · subst e₂
        rw [place_put_self]
        exact (hd key₁ d₁ e₁ h₁').symm
      · rw [place_put_of_ne e₂]
        exact h.apart key₁ key₂ d₁ d₂ h₁' ((hne e₂).symm.trans h₂) hk

end Layout

namespace World

variable {w w' w'' : World} {S S' : Set Location}

/-- What is at some locations has not changed, and everything that was made is still there. -/
structure Leaves (w w' : World) (S : Set Location) : Prop where
  objects : w.objects.size ≤ w'.objects.size
  cells : w.cells.size ≤ w'.cells.size
  arrays : w.nextArray.index ≤ w'.nextArray.index
  same : ∀ l ∈ S, l.Same w w'

namespace Leaves

theorem of_eq (ho : w'.objects = w.objects) (hc : w'.cells = w.cells)
    (ha : w.nextArray.index ≤ w'.nextArray.index) : w.Leaves w' S := by
  refine ⟨Nat.le_of_eq (by rw [ho]), Nat.le_of_eq (by rw [hc]), ha, fun l _ => ?_⟩
  cases l with
  | object o =>
    intro key
    rw [slot?, slot?, ho]
  | cell c => exact congrArg (fun cells : Store .cell Cell => (cells.get c).value) hc
  | array a => trivial

theorem refl (w : World) (S : Set Location) : w.Leaves w S := of_eq rfl rfl (Nat.le_refl _)

theorem mono (h : w.Leaves w' S) (hS : S' ⊆ S) : w.Leaves w' S' :=
  { h with same := fun l hl => h.same l (hS hl) }

theorem trans (h : w.Leaves w' S) (h' : w'.Leaves w'' S) : w.Leaves w'' S where
  objects := Nat.le_trans h.objects h'.objects
  cells := Nat.le_trans h.cells h'.cells
  arrays := Nat.le_trans h.arrays h'.arrays
  same l hl := by
    have hs := h.same l hl
    have hs' := h'.same l hl
    cases l with
    | object o => exact fun key => (hs' key).trans (hs key)
    | cell c => exact hs'.trans hs
    | array a => trivial

theorem within (h : w.Leaves w' S) {l : Location} (hl : l.Within w) : l.Within w' := by
  cases l with
  | object o => exact Nat.lt_of_lt_of_le hl h.objects
  | cell c => exact Nat.lt_of_lt_of_le hl h.cells
  | array a => exact Nat.lt_of_lt_of_le hl h.arrays

end Leaves

mutual

theorem Holds.mono : ∀ {v : Value} {d : Document} {S S' : Set Location},
    w.Holds v d S → S ⊆ S' → w.Holds v d S'
  | _, _, _, _, .null, _ => .null
  | _, _, _, _, .bool b, _ => .bool b
  | _, _, _, _, .number n, _ => .number n
  | _, _, _, _, .string s, _ => .string s
  | _, _, _, _, .array ha h, hS => .array (hS ha) (h.mono hS)
  | _, _, _, _, .object l ho hm hT hn hf hc, hS => .object l ho (hS hm) (hT.trans hS) hn hf hc

theorem HoldsAll.mono : ∀ {vs : List Value} {ds : List Document} {S S' : Set Location},
    w.HoldsAll vs ds S → S ⊆ S' → w.HoldsAll vs ds S'
  | _, _, _, _, .nil, _ => .nil
  | _, _, _, _, .cons h hs, hS => .cons (h.mono hS) (hs.mono hS)

end

mutual

/-- A value holds the same document as long as nothing changes where it is kept. -/
theorem Holds.frame : ∀ {v : Value} {d : Document} {S : Set Location},
    w.Holds v d S → w.Leaves w' S → w'.Holds v d S
  | _, _, _, .null, _ => .null
  | _, _, _, .bool b, _ => .bool b
  | _, _, _, .number n, _ => .number n
  | _, _, _, .string s, _ => .string s
  | _, _, _, .array ha h, hw => .array ha (h.frame hw)
  | _, _, _, .object l ho hm hT hn hf hc, hw => by
    have hslots : w'.slot? _ = w.slot? _ := funext (hw.same _ hm)
    refine .object l (Nat.lt_of_lt_of_le ho hw.objects) hm hT hn (hslots ▸ hf) fun key d hk => ?_
    have hplace := (hf.sub key d hk).trans hT
    have hvalue := hw.same _ (hplace (Set.mem_insert _ _))
    rw [hvalue]
    exact (hc key d hk).frame (hw.mono ((Set.subset_insert _ _).trans hplace))

theorem HoldsAll.frame : ∀ {vs : List Value} {ds : List Document} {S : Set Location},
    w.HoldsAll vs ds S → w.Leaves w' S → w'.HoldsAll vs ds S
  | _, _, _, .nil, _ => .nil
  | _, _, _, .cons h hs, hw => .cons (h.frame hw) (hs.frame hw)

end

theorem Holds.frame_cell {c : Ref .cell} {d : Document} (h : w.Holds (w.cells.get c).value d S)
    (hw : w.Leaves w' (insert (.cell c) S)) : w'.Holds (w'.cells.get c).value d S := by
  have hvalue := hw.same _ (Set.mem_insert _ _)
  rw [hvalue]
  exact h.frame (hw.mono (Set.subset_insert _ _))

theorem holds_put {l : Layout} {fields : List (String × Document)} {key : String} {c : Ref .cell}
    {d : Document} (hc : ∀ key' d', key' ≠ key → Document.field? fields key' = some d' →
      w.Holds (w.cells.get (l.cell key')).value d' (l.below key'))
    (hnew : w.Holds (w.cells.get c).value d S) (key' : String) (d' : Document)
    (hk : Document.field? (fields ++ [(key, d)]) key' = some d') :
    w.Holds (w.cells.get ((l.put key c S).cell key')).value d' ((l.put key c S).below key') := by
  rw [Document.field?_concat] at hk
  by_cases e : key = key'
  · subst e
    rw [if_pos rfl] at hk
    cases hk
    simpa only [Layout.put, Function.update_self] using hnew
  · rw [if_neg e] at hk
    simp only [Layout.put, Function.update_of_ne (Ne.symm e)]
    exact hc key' d' (Ne.symm e) hk

end World

end ViewBinding
