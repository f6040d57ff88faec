import Mathlib.Data.Fintype.EquivFin
import Mathlib.Data.Fintype.Order
import Mathlib.Order.WellFounded
import ViewBinding.Proofs.Snapshots.Depicts

/-! Data that does not contain itself unfolds to a document, whatever it shares. -/

namespace ViewBinding

open Relation

inductive Value.Contains : Value → Value → Prop
  | self (v : Value) : Contains v v
  | item {a : Ref .array} {vs : List Value} {v u : Value} :
      v ∈ vs → Contains v u → Contains (.array a vs) u

namespace World

variable {w : World} {root : Ref .object}

/-- Whether an object is the value of a property of another one, or in an array that is. -/
def Inside (w : World) (o o' : Ref .object) : Prop :=
  ∃ key c, w.slot? o key = some (.cell c) ∧ (w.cells.get c).value.Contains (.object o')

/-- Data that is all there, from a root on: objects and cells that were made, with finite numbers,
without computed properties, and with no object inside itself. -/
structure PlainData (w : World) (root : Ref .object) : Prop where
  made : ∀ o, ReflTransGen w.Inside root o → o.index < w.objects.size ∧
    ∀ key c, w.slot? o key = some (.cell c) → c.index < w.cells.size
  uncomputed : ∀ o, ReflTransGen w.Inside root o → ∀ key p, w.slot? o key ≠ some (.computed p)
  finite : ∀ o, ReflTransGen w.Inside root o → ∀ key c x, w.slot? o key = some (.cell c) →
    (w.cells.get c).value.Contains (.number x) → x.isFinite = true
  acyclic : ∀ o, ReflTransGen w.Inside root o → ¬TransGen w.Inside o o

mutual

theorem exists_depicts_value : ∀ (v : Value),
    (∀ x, v.Contains (.number x) → x.isFinite = true) →
    (∀ o, v.Contains (.object o) → ∃ d, w.Depicts (.object o) d) → ∃ d, w.Depicts v d
  | .null, _, _ => ⟨_, .null⟩
  | .bool b, _, _ => ⟨_, .bool b⟩
  | .number x, hn, _ => by
    obtain ⟨n, hx⟩ := Document.ofFloat_number (hn x (.self _))
    exact ⟨_, .number hx⟩
  | .string s, _, _ => ⟨_, .string s⟩
  | .array a vs, hn, ho => by
    obtain ⟨ds, hds⟩ := exists_depicts_items vs (fun v hv x hx => hn x (.item hv hx))
      fun v hv o h => ho o (.item hv h)
    exact ⟨_, .array a hds⟩
  | .object o, _, ho => ho o (.self _)

theorem exists_depicts_items : ∀ (vs : List Value),
    (∀ v ∈ vs, ∀ x, v.Contains (.number x) → x.isFinite = true) →
    (∀ v ∈ vs, ∀ o, v.Contains (.object o) → ∃ d, w.Depicts (.object o) d) →
      ∃ ds, w.DepictsAll vs ds
  | [], _, _ => ⟨_, .nil⟩
  | v :: vs, hn, ho => by
    obtain ⟨d, hd⟩ := exists_depicts_value v (hn v List.mem_cons_self) (ho v List.mem_cons_self)
    obtain ⟨ds, hds⟩ := exists_depicts_items vs (fun v hv => hn v (List.mem_cons_of_mem _ hv))
      fun v hv => ho v (List.mem_cons_of_mem _ hv)
    exact ⟨_, .cons hd hds⟩

end

namespace PlainData

/-- There are only so many objects, and none is inside itself, so one comes to an end on every way
inside. -/
theorem wellFounded (h : w.PlainData root) :
    WellFounded fun b a : {o // ReflTransGen w.Inside root o} => TransGen w.Inside a.1 b.1 := by
  have hinj : Function.Injective fun o : {o // ReflTransGen w.Inside root o} =>
      (⟨o.1.index, (h.made o.1 o.2).1⟩ : Fin w.objects.size) := by
    intro a b hab
    have hindex : a.1.index = b.1.index := congrArg Fin.val hab
    apply Subtype.ext
    rcases a with ⟨⟨i⟩, _⟩
    rcases b with ⟨⟨j⟩, _⟩
    exact congrArg Ref.mk hindex
  have : Finite {o // ReflTransGen w.Inside root o} := Finite.of_injective _ hinj
  have : IsTrans {o // ReflTransGen w.Inside root o} fun b a => TransGen w.Inside a.1 b.1 :=
    ⟨fun _ _ _ hab hbc => hbc.trans hab⟩
  have : Std.Irrefl fun b a : {o // ReflTransGen w.Inside root o} =>
      TransGen w.Inside a.1 b.1 := ⟨fun o ho => h.acyclic o.1 o.2 ho⟩
  exact Finite.wellFounded_of_trans_of_irrefl _

theorem depicts_step (h : w.PlainData root) {o : Ref .object} (ho : ReflTransGen w.Inside root o)
    (hinside : ∀ o', w.Inside o o' → ∃ d, w.Depicts (.object o') d) :
    ∃ d, w.Depicts (.object o) d := by
  have hproperty : ∀ key, ∃ c d, ∀ slot, w.slot? o key = some slot →
      (slot = .cell c ∧ c.index < w.cells.size) ∧ w.Depicts (w.cells.get c).value d := by
    intro key
    cases hk : w.slot? o key with
    | none => exact ⟨default, .null, fun _ hs => nomatch hs⟩
    | some slot =>
      cases slot with
      | computed p => exact absurd hk (h.uncomputed o ho key p)
      | cell c =>
        obtain ⟨d, hd⟩ := exists_depicts_value (w.cells.get c).value
          (fun x hx => h.finite o ho key c x hk hx) fun o' ho' => hinside o' ⟨key, c, hk, ho'⟩
        refine ⟨c, d, fun slot hs => ?_⟩
        cases hs
        exact ⟨⟨rfl, (h.made o ho).2 key c hk⟩, hd⟩
  choose cell doc hcell using hproperty
  exact ⟨_, .object cell doc (h.made o ho).1 (fun key slot hk => (hcell key slot hk).1)
    fun key slot hk => (hcell key slot hk).2⟩

/-- Data that is all there unfolds to a document. -/
theorem depicts (h : w.PlainData root) : ∃ d, w.Depicts (.object root) d := by
  have hall : ∀ o : {o // ReflTransGen w.Inside root o}, ∃ d, w.Depicts (.object o.1) d := by
    intro o
    induction o using h.wellFounded.induction with
    | h o ih =>
      apply h.depicts_step o.2
      intro o' ho'
      exact ih ⟨o', o.2.tail ho'⟩ (.single ho')
  exact hall ⟨root, .refl⟩

end PlainData

end World

end ViewBinding
