import Mathlib.Data.List.Forall2
import Mathlib.Tactic.Common

/-! Lists of which the second is found in the first, element by element and in order, among others
that count for nothing; and lists that have such a list in common. -/

namespace ViewBinding

variable {α β : Type}

/-- Whether the elements of the second list are related in order to those of the first that are no
extras. -/
inductive Interlaced (P : α → Prop) (R : α → β → Prop) : List α → List β → Prop
  | nil : Interlaced P R [] []
  | pair {a : α} {b : β} {as : List α} {bs : List β} : R a b → Interlaced P R as bs →
      Interlaced P R (a :: as) (b :: bs)
  | extra {a : α} {as : List α} {bs : List β} : P a → Interlaced P R as bs →
      Interlaced P R (a :: as) bs

namespace Interlaced

variable {P P' : α → Prop} {R R' : α → β → Prop} {as as' : List α} {bs bs' : List β} {a : α} {b : β}

theorem mono (h : Interlaced P R as bs) (hP : ∀ a, P a → P' a) (hR : ∀ a b, R a b → R' a b) :
    Interlaced P' R' as bs := by
  induction h with
  | nil => exact .nil
  | pair hr _ ih => exact .pair (hR _ _ hr) ih
  | extra hp _ ih => exact .extra (hP _ hp) ih

theorem append (h : Interlaced P R as bs) (h' : Interlaced P R as' bs') :
    Interlaced P R (as ++ as') (bs ++ bs') := by
  induction h with
  | nil => exact h'
  | pair hr _ ih => exact .pair hr ih
  | extra hp _ ih => exact .extra hp ih

theorem snoc (h : Interlaced P R as bs) (hr : R a b) : Interlaced P R (as ++ [a]) (bs ++ [b]) :=
  h.append (.pair hr .nil)

theorem snocExtra (h : Interlaced P R as bs) (hp : P a) : Interlaced P R (as ++ [a]) bs := by
  simpa using h.append (.extra hp .nil)

theorem filter (h : Interlaced P R as bs) {f : α → Bool} {g : β → Bool}
    (hf : ∀ a b, R a b → f a = g b) : Interlaced P R (as.filter f) (bs.filter g) := by
  induction h with
  | nil => exact .nil
  | @pair a b as bs hr _ ih =>
    cases ha : f a with
    | false =>
      rwa [List.filter_cons_of_neg (by simp [ha]),
        List.filter_cons_of_neg (by simp [← hf _ _ hr, ha])]
    | true =>
      rw [List.filter_cons_of_pos ha, List.filter_cons_of_pos (hf _ _ hr ▸ ha)]
      exact .pair hr ih
  | @extra a as bs hp _ ih =>
    cases ha : f a with
    | false => rwa [List.filter_cons_of_neg (by simp [ha])]
    | true =>
      rw [List.filter_cons_of_pos ha]
      exact .extra hp ih

theorem mem_iff (h : Interlaced P R as bs) (hP : ¬P a)
    (hR : ∀ c d, R c d → (c = a ↔ d = b)) : a ∈ as ↔ b ∈ bs := by
  induction h with
  | nil => simp
  | pair hr _ ih => rw [List.mem_cons, List.mem_cons, ih, eq_comm, hR _ _ hr, eq_comm]
  | @extra c as bs hp _ ih =>
    have hc : a ≠ c := fun e => hP (e ▸ hp)
    rw [List.mem_cons, ih, or_iff_right hc]

theorem erase [DecidableEq α] [DecidableEq β] (h : Interlaced P R as bs) (hP : ¬P a)
    (hR : ∀ c d, R c d → (c = a ↔ d = b)) : Interlaced P R (as.erase a) (bs.erase b) := by
  induction h with
  | nil => exact .nil
  | @pair c d as bs hr ht ih =>
    by_cases hc : c = a
    · obtain rfl := hc
      obtain rfl := (hR _ _ hr).1 rfl
      simpa using ht
    · have hd : d ≠ b := fun e => hc ((hR _ _ hr).2 e)
      rw [List.erase_cons_tail (by simpa using hc), List.erase_cons_tail (by simpa using hd)]
      exact .pair hr ih
  | @extra c as bs hp _ ih =>
    have hc : c ≠ a := fun e => hP (e ▸ hp)
    rw [List.erase_cons_tail (by simpa using hc)]
    exact .extra hp ih

theorem eraseExtra [DecidableEq α] (h : Interlaced P R as bs) (hR : ∀ d, ¬R a d) :
    Interlaced P R (as.erase a) bs := by
  induction h with
  | nil => exact .nil
  | @pair c d as bs hr _ ih =>
    have hc : c ≠ a := fun e => hR d (e ▸ hr)
    rw [List.erase_cons_tail (by simpa using hc)]
    exact .pair hr ih
  | @extra c as bs hp ht ih =>
    by_cases hc : c = a
    · obtain rfl := hc
      simpa using ht
    · rw [List.erase_cons_tail (by simpa using hc)]
      exact .extra hp ih

end Interlaced

/-- Whether the elements of two lists that are no extras are related in order. -/
inductive Meshed (P : α → Prop) (Q : β → Prop) (R : α → β → Prop) : List α → List β → Prop
  | nil : Meshed P Q R [] []
  | pair {a : α} {b : β} {as : List α} {bs : List β} : R a b → Meshed P Q R as bs →
      Meshed P Q R (a :: as) (b :: bs)
  | left {a : α} {as : List α} {bs : List β} : P a → Meshed P Q R as bs → Meshed P Q R (a :: as) bs
  | right {b : β} {as : List α} {bs : List β} : Q b → Meshed P Q R as bs →
      Meshed P Q R as (b :: bs)

theorem Meshed.mono {P : α → Prop} {Q : β → Prop} {R S : α → β → Prop} {as : List α} {bs : List β}
    (h : Meshed P Q R as bs) (hS : ∀ a b, R a b → S a b) : Meshed P Q S as bs := by
  induction h with
  | nil => exact .nil
  | pair hr _ ih => exact .pair (hS _ _ hr) ih
  | left hp _ ih => exact .left hp ih
  | right hq _ ih => exact .right hq ih

theorem Interlaced.mesh {γ : Type} {P : α → Prop} {Q : β → Prop} {R : α → γ → Prop}
    {S : β → γ → Prop} {as : List α} {bs : List β} {cs : List γ} (h : Interlaced P R as cs)
    (h' : Interlaced Q S bs cs) : Meshed P Q (fun a b => ∃ c, R a c ∧ S b c) as bs := by
  induction h generalizing bs with
  | nil =>
    generalize hcs : ([] : List γ) = cs at h'
    induction h' with
    | nil => exact .nil
    | pair => cases hcs
    | extra hq _ ih => exact .right hq (ih hcs)
  | @pair a c as cs hr _ ih =>
    generalize hcs : c :: cs = ds at h'
    induction h' with
    | nil => cases hcs
    | pair hs hbs =>
      cases hcs
      exact .pair ⟨c, hr, hs⟩ (ih hbs)
    | extra hq _ ihb => exact .right hq (ihb hcs)
  | extra hp _ ih => exact .left hp (ih h')

end ViewBinding
