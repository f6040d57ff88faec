import ViewBinding.Proofs.Guests.Pairing
import ViewBinding.Proofs.Valid

/-! The same world in two runs, of which the first has guests, and what keeps two worlds the same.
-/

namespace ViewBinding

namespace Store

variable {k : Kind} {α : Type}

def refs (s : Store k α) : List (Ref k) := (List.range s.size).map Ref.mk

theorem refs_add (s : Store k α) (a : α) : (s.add a).refs = s.refs ++ [s.fresh] := by
  rw [refs, size_add, List.range_succ, List.map_append]
  rfl

theorem refs_modify (s : Store k α) (r : Ref k) (f : α → α) : (s.modify r f).refs = s.refs := by
  rw [refs, size_modify, refs]

def Twin [Inhabited α] (p : Pairing) (A : α → α → Prop) (s s' : Store k α) : Prop :=
  ∀ r r', p.pair r r' → A (s.get r) (s'.get r')

namespace Twin

variable [Inhabited α] {p q : Pairing} {A B : α → α → Prop} {s s' : Store k α} {r r' : Ref k}
  {f g : α → α} {a b : α}

theorem mono (h : Twin p A s s') (hq : ∀ r r' : Ref k, q.pair r r' → p.pair r r')
    (hA : ∀ a b, A a b → B a b) : Twin q B s s' := fun r r' hr => hA _ _ (h r r' (hq r r' hr))

theorem other {j : Kind} {a b : Ref j} (h : Twin p A s s') (hk : k ≠ j)
    (hA : ∀ a b, A a b → B a b) :
    Twin (p.join a b) B s s' := h.mono (fun _ _ => (Pairing.pair_join_of_ne hk).1) hA

theorem modify (h : Twin p A s s') (hp : p.OneToOne) (hr : p.pair r r') (hs : r.index < s.size)
    (hs' : r'.index < s'.size) (hA : A (f (s.get r)) (g (s'.get r'))) :
    Twin p A (s.modify r f) (s'.modify r' g) := by
  intro c c' hc
  rw [get_modify _ _ _ _ hs, get_modify _ _ _ _ hs']
  by_cases e : r = c
  · rw [if_pos e, if_pos ((hp hr hc).1 e)]
    exact hA
  · rw [if_neg e, if_neg fun e' => e ((hp hr hc).2 e')]
    exact h c c' hc

theorem modifyLeft (h : Twin p A s s')
    (hA : ∀ r', p.pair r r' → A (s.get r) (s'.get r') → A (f (s.get r)) (s'.get r')) :
    Twin p A (s.modify r f) s' := by
  intro c c' hc
  obtain e | ⟨rfl, -, e⟩ := s.get_modify_cases r c f
  · rw [e]
    exact h c c' hc
  · rw [e]
    exact hA c' hc (h r c' hc)

theorem add (h : Twin p A s s') (hp : ∀ r r' : Ref k, p.pair r r' → r.index < s.size ∧
      r'.index < s'.size) (hq : ∀ r r' : Ref k, q.pair r r' → p.pair r r' ∨ r = s.fresh ∧
      r' = s'.fresh) (hA : ∀ a b, A a b → B a b) (hab : B a b) : Twin q B (s.add a) (s'.add b) := by
  intro c c' hc
  obtain hc | ⟨rfl, rfl⟩ := hq c c' hc
  · rw [get_add_of_lt _ _ (hp c c' hc).1, get_add_of_lt _ _ (hp c c' hc).2]
    exact hA _ _ (h c c' hc)
  · rw [get_add, get_add, if_pos rfl, if_pos rfl]
    exact hab

theorem addLeft (h : Twin p A s s') (hp : ∀ r r' : Ref k, p.pair r r' → r.index < s.size) :
    Twin p A (s.add a) s' := by
  intro c c' hc
  rw [get_add_of_lt _ _ (hp c c' hc)]
  exact h c c' hc

end Twin

end Store

def World.count (w : World) : Kind → Nat
  | .object => w.objects.size
  | .cell => w.cells.size
  | .array => w.nextArray.index
  | .watcher => w.watchers.size
  | .model => w.models.size
  | _ => 0

/-- Whether a pairing is one of things that were made, where `n` and `n'` count what was made in the
two runs. View-models have the same identities in both. -/
structure Pairing.Fits (p : Pairing) (n n' : Kind → Nat) : Prop where
  oneToOne : p.OneToOne
  apart : ∀ {r r' : Ref .watcher}, p.guest r → ¬p.pair r r'
  made : ∀ {k : Kind} {a b : Ref k}, p.pair a b → a.index < n k ∧ b.index < n' k
  guest : ∀ {r : Ref .watcher}, p.guest r → r.index < n .watcher
  model : ∀ {m m' : Ref .model}, p.pair m m' → m = m'

variable (G : List String) (p : Pairing)

structure World.TwinElse (w w' : World) : Prop where
  registriesSize : w.registries.size = w'.registries.size
  registries : ∀ r, (w.registries.get r).Twin p (w'.registries.get r)
  reactionsSize : w.reactions.size = w'.reactions.size
  reactions : ∀ r, (w.reactions.get r).Twin G (w'.reactions.get r)
  modelsSize : w.models.size = w'.models.size
  view : w.view = w'.view
  names : w.names.Twin G p w'.names
  modelsInUse : w.modelsInUse = w'.modelsInUse
  used : ∀ m ∈ w.modelsInUse, p.pair m m
  subscribersInUse : Interlaced p.stranger p.same w.subscribersInUse w'.subscribersInUse
  knownNodes : w.knownNodes = w'.knownNodes
  trace : Effect.Twins G p (w.trace.filterMap Happening.effect?)
    (w'.trace.filterMap Happening.effect?)

/-- The same world in two runs. -/
structure World.Twin (w w' : World) : Prop extends World.TwinElse G p w w' where
  fits : p.Fits w.count w'.count
  objects : Store.Twin p (Object.Twin p) w.objects w'.objects
  cells : Store.Twin p (Cell.Twin p) w.cells w'.cells
  watchers : Store.Twin p (Watcher.Twin G p) w.watchers w'.watchers
  guests : ∀ r, p.guest r → (w.watchers.get r).Guest G
  listed : Interlaced p.guest p.pair w.watchers.refs w'.watchers.refs
  models : Store.Twin p (ViewModel.Twin G p) w.models w'.models

def Source.Twin : Source → Source → Prop
  | .cell c, .cell c' => p.pair c c'
  | .waiting o key, .waiting o' key' => p.pair o o' ∧ key = key'
  | .registry r, .registry r' => r = r'
  | _, _ => False

variable {G p} {q : Pairing} {w w' v v' : World}

theorem Source.Twin.mono (hq : p ≤ q) {s s' : Source} (h : s.Twin p s') : s.Twin q s' := by
  cases s <;> cases s' <;>
    first
      | exact hq.pair h
      | exact ⟨hq.pair h.1, h.2⟩
      | exact h

theorem World.TwinElse.mono (hq : p ≤ q) (h : World.TwinElse G p w w') :
    World.TwinElse G q w w' where
  registriesSize := h.registriesSize
  registries r := (h.registries r).mono hq
  reactionsSize := h.reactionsSize
  reactions := h.reactions
  modelsSize := h.modelsSize
  view := h.view
  names := h.names.mono hq
  modelsInUse := h.modelsInUse
  used m hm := hq.pair (h.used m hm)
  subscribersInUse := h.subscribersInUse.mono (fun _ => Pairing.stranger_mono hq) fun _ _ =>
    Pairing.same_mono hq
  knownNodes := h.knownNodes
  trace := h.trace.mono hq

/-! What is the same can be read alike. -/

namespace World.Twin

variable {o o' : Ref .object} {c c' : Ref .cell} {m : Ref .model} {r r' : Ref .watcher}
  {s s' : Subscriber} {source source' : Source}

theorem slot? (h : w.Twin G p w') (ho : p.pair o o') (key : String) :
    Option.Rel (Slot.Twin p) (w.slot? o key) (w'.slot? o' key) := (h.objects o o' ho).slots key

theorem value (h : w.Twin G p w') (hc : p.pair c c') :
    (w.cells.get c).value.Twin p (w'.cells.get c').value := (h.cells c c' hc).value

theorem registry (h : w.Twin G p w') (hs : source.Twin p source') :
    (w.registry source).Twin p (w'.registry source') := by
  cases source <;> cases source' <;> first | exact False.elim hs | skip
  · exact (h.cells _ _ hs).registry
  · obtain ⟨ho, rfl⟩ := hs
    exact (h.objects _ _ ho).waiting _
  · obtain rfl := hs
    exact h.registries _

theorem modelAlive (h : w.Twin G p w') (m : Ref .model) : w.modelAlive m = w'.modelAlive m := by
  rw [World.modelAlive, World.modelAlive, h.names.models, h.modelsInUse]

theorem pair_of_modelAlive (h : w.Twin G p w') (hm : w.modelAlive m) : p.pair m m := by
  obtain hm | hm := (World.modelAlive_iff m).1 hm
  · obtain ⟨name, hn⟩ := (Holder.holds_iff _ m).1 hm
    exact h.names.made name m hn
  · exact h.used m hm

theorem stranger_not_same (h : w.Twin G p w') (hs : p.stranger s) : ¬p.same s s' := by
  cases s with
  | reaction r => cases hs
  | watcher r =>
    cases s' with
    | reaction r' => exact id
    | watcher r' => exact h.fits.apart hs

theorem holds_watcher (h : w.Twin G p w') (hr : p.pair r r') :
    w.names.watchers.holds r = w'.names.watchers.holds r' := by
  rw [Bool.eq_iff_iff, Holder.holds_iff, Holder.holds_iff]
  refine exists_congr fun id => ?_
  by_cases hid : id ∈ G
  · obtain ⟨hg, hn⟩ := h.names.guests id hid
    rw [hn]
    exact ⟨fun hi => absurd hr (h.fits.apart (hg r hi)), fun hi => nomatch hi⟩
  · have hrel := h.names.watchers id hid
    generalize w.names.watchers.held[id]? = a at hrel ⊢
    generalize w'.names.watchers.held[id]? = b at hrel ⊢
    cases hrel with
    | none => simp
    | some hab => simpa using h.fits.oneToOne hab hr

theorem alive (h : w.Twin G p w') (hs : p.same s s') : w.alive s = w'.alive s' := by
  have hin : s ∈ w.subscribersInUse ↔ s' ∈ w'.subscribersInUse :=
    h.subscribersInUse.mem_iff (fun hg => h.stranger_not_same hg hs) fun _ _ hc =>
      Pairing.same_iff h.fits.oneToOne hc hs
  cases s <;> cases s' <;> first | exact False.elim hs | skip
  · rename_i r r'
    rw [Bool.eq_iff_iff, World.alive_iff, World.alive_iff, hin, h.holds_watcher hs,
      (h.watchers r r' hs).model, h.modelAlive]
    refine or_congr_right (or_congr_right (and_congr_right fun hm => ?_))
    have hmm := h.models _ _ (h.pair_of_modelAlive (h.modelAlive _ ▸ hm))
    exact hmm.watchers.mem_iff (fun hg => h.fits.apart hg hs) fun _ _ hc => h.fits.oneToOne hc hs
  · obtain rfl := hs
    rename_i r
    have hin' : w.subscribersInUse.contains (.reaction r) =
        w'.subscribersInUse.contains (.reaction r) := by
      rw [Bool.eq_iff_iff, List.contains_iff_mem, List.contains_iff_mem]
      exact hin
    simp only [World.alive, hin', h.names.reactions]

end World.Twin

end ViewBinding
