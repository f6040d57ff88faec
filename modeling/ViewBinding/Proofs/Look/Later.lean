import ViewBinding.Proofs.Look

/-! The marks of a look tell all that it depends on. While the cells it read keep their values, the
properties it missed stay missing and no view-model it needs is gone, it finds the same again; and
if a view-model is gone, it finds the same or fails for that reason on marks that it left before. -/

namespace ViewBinding

/-- What becomes of a sight in time: properties stay what they are, and a view-model that is gone
does not come back. -/
structure Sight.Later (d d' : Sight) : Prop where
  slot : ∀ o key slot, d.slot? o key = some slot → d'.slot? o key = some slot
  alive : ∀ o key p, d.slot? o key = some (.computed p) → d'.alive p.model → d.alive p.model
  root : ∀ m, d.alive m → d'.root m = d.root m

structure Sight.Keeps (d d' : Sight) (ms : List Mark) : Prop where
  cell : ∀ c, .read (.cell c) ∈ ms → d'.value c = d.value c
  missing : ∀ o key, .read (.waiting o key) ∈ ms → d.slot? o key = none → d'.slot? o key = none

theorem Sight.Later.refl (d : Sight) : d.Later d :=
  ⟨fun _ _ _ h => h, fun _ _ _ _ h => h, fun _ _ => rfl⟩

theorem Sight.Keeps.refl (d : Sight) (ms : List Mark) : d.Keeps d ms :=
  ⟨fun _ _ => rfl, fun _ _ _ h => h⟩

theorem Sight.Keeps.mono {d d' : Sight} {ms ns : List Mark} (h : d.Keeps d' ms) (hs : ns ⊆ ms) :
    d.Keeps d' ns :=
  ⟨fun c hc => h.cell c (hs hc), fun o key hk => h.missing o key (hs hk)⟩

def Sight.Loses (d d' : Sight) : Prop := ∃ m, d.alive m = true ∧ d'.alive m = false

def Look.Lasts {α : Type} (d d' : Sight) (l l' : Look α) : Prop :=
  ∀ r ms, l.run = some (r, ms) → d.Keeps d' ms → ∃ r' ms', l'.run = some (r', ms') ∧
    (r' = r ∧ ms' = ms ∨ r' = .error .detached ∧ ms' ⊆ ms ∧ d.Loses d')

namespace Look.Lasts

variable {α β : Type} {d d' : Sight}

theorem refl (l : Look α) : Lasts d d' l l := fun r ms h _ => ⟨r, ms, h, .inl ⟨rfl, rfl⟩⟩

theorem bind {l l' : Look α} {f f' : α → Look β} (hl : Lasts d d' l l')
    (hf : ∀ a, Lasts d d' (f a) (f' a)) : Lasts d d' (l >>= f) (l' >>= f') := by
  intro r ms h hk
  rw [run_bind, Option.bind_eq_some_iff] at h
  obtain ⟨⟨g | a, ms₁⟩, h₁, h₂⟩ := h
  · obtain ⟨rfl, rfl⟩ : .error g = r ∧ ms₁ = ms := by simpa using h₂
    obtain ⟨r', ms', h', ⟨rfl, rfl⟩ | ⟨rfl, hs, hm⟩⟩ := hl _ _ h₁ hk
    · exact ⟨.error g, ms', by simp [h'], .inl ⟨rfl, rfl⟩⟩
    · exact ⟨.error .detached, ms', by simp [h'], .inr ⟨rfl, hs, hm⟩⟩
  · rw [next_ok, Option.map_eq_some_iff] at h₂
    obtain ⟨⟨r₂, ms₂⟩, h₂, he⟩ := h₂
    obtain ⟨rfl, rfl⟩ : r₂ = r ∧ ms₁ ++ ms₂ = ms := by simpa using he
    obtain ⟨r', ms', h', ⟨rfl, rfl⟩ | ⟨rfl, hs, hm⟩⟩ :=
      hl _ _ h₁ (hk.mono (List.subset_append_left ..))
    · obtain ⟨r'', ms'', h'', hr⟩ := hf a _ _ h₂ (hk.mono (List.subset_append_right ..))
      refine ⟨r'', ms' ++ ms'', by simp [h', h''], ?_⟩
      obtain ⟨rfl, rfl⟩ | ⟨rfl, hs, hm⟩ := hr
      · exact .inl ⟨rfl, rfl⟩
      · refine .inr ⟨rfl, List.append_subset.2 ⟨List.subset_append_left .., ?_⟩, hm⟩
        exact List.Subset.trans hs (List.subset_append_right ..)
    · exact ⟨.error .detached, ms', by simp [h'],
        .inr ⟨rfl, List.Subset.trans hs (List.subset_append_left ..), hm⟩⟩

end Look.Lasts

def Sight.Shows (d : Sight) (p : Computed) : Prop := ∃ o key, d.slot? o key = some (.computed p)

def Sight.Tracked (d : Sight) : Prop := ∀ p, d.Shows p → p.body.Tracked

theorem Sight.Tracked.steady {d : Sight} (h : d.Tracked) : d.Steady :=
  fun o key p hp => (h p ⟨o, key, hp⟩).steady

section

variable {d d' : Sight} {compute compute' : Computed → Look Value}

theorem Cell.look_lasts (c : Ref .cell) : Look.Lasts d d' (Cell.look d c) (Cell.look d' c) := by
  intro r ms h hk
  obtain ⟨rfl, rfl⟩ : .ok (d.value c) = r ∧ [Mark.read (.cell c)] = ms := by
    simpa [Cell.look] using h
  refine ⟨_, _, ?_, .inl ⟨rfl, rfl⟩⟩
  simp [Cell.look, hk.cell c (List.mem_singleton.2 rfl)]

theorem Object.look_lasts (hd : d.Later d')
    (hc : ∀ p, d.Shows p → Look.Lasts d d' (compute p) (compute' p)) (o : Ref .object)
    (key : String) :
    Look.Lasts d d' (Object.look d compute o key) (Object.look d' compute' o key) := by
  cases h : d.slot? o key with
  | none =>
    intro r ms hr hk
    obtain ⟨rfl, rfl⟩ : .ok .null = r ∧ [Mark.read (.waiting o key)] = ms := by
      simpa [Object.look, h] using hr
    refine ⟨_, _, ?_, .inl ⟨rfl, rfl⟩⟩
    simp [Object.look, hk.missing o key (List.mem_singleton.2 rfl) h]
  | some slot =>
    simp only [Object.look, h, hd.slot o key slot h]
    cases slot with
    | cell c => exact Cell.look_lasts c
    | computed p => exact hc p ⟨o, key, h⟩

theorem Path.lookFrom_lasts (hd : d.Later d')
    (hc : ∀ p, d.Shows p → Look.Lasts d d' (compute p) (compute' p)) (p : Path)
    (segments : List String) (v : Value) :
    Look.Lasts d d' (p.lookFrom d compute segments v) (p.lookFrom d' compute' segments v) := by
  induction segments generalizing v with
  | nil => exact .refl _
  | cons segment rest ih =>
    exact .bind (.refl _) fun o => .bind (Object.look_lasts hd hc o segment) ih

theorem ViewModel.look_lasts (hd : d.Later d')
    (hc : ∀ p, d.Shows p → Look.Lasts d d' (compute p) (compute' p)) {m : Ref .model}
    (hm : d.alive m) (path : String) :
    Look.Lasts d d' (ViewModel.look d compute m path) (ViewModel.look d' compute' m path) := by
  refine .bind (.refl _) fun p => ?_
  rw [hd.root m hm]
  exact Path.lookFrom_lasts hd hc p p.segments _

theorem Frame.look_own (m : Ref .model) (path : String) :
    Frame.look d compute { model := m } none path = ViewModel.look d compute m path := by
  ext1
  show ((ViewModel.look d compute m path).run.map fun (r, ns) => (r, [] ++ ns)) = _
  simp

mutual

theorem Expr.look_lasts (hd : d.Later d')
    (hc : ∀ p, d.Shows p → Look.Lasts d d' (compute p) (compute' p)) {m : Ref .model}
    (hm : d.alive m) : ∀ x : Expr, x.Tracked → Look.Lasts d d' (x.look d compute { model := m })
      (x.look d' compute' { model := m })
  | .data doc, _ => by
    simp only [Expr.look]
    exact .refl _
  | .number _, _ => .refl _
  | .get model path, h => by
    cases (show model = none from h)
    simp only [Expr.look, Frame.look_own]
    exact ViewModel.look_lasts hd hc hm path
  | .peek _ _, h => nomatch h
  | .property object key, h =>
    .bind (look_lasts hd hc hm object h.1) fun u => .bind (look_lasts hd hc hm key h.2) fun k => by
      cases u.object? with
      | none => exact .refl _
      | some o => exact Object.look_lasts hd hc o k.text
  | .root _, h => nomatch h
  | .saved _, h => nomatch h
  | .array _, h => h.1.elim
  | .concat parts, h => .bind (lookAll_lasts hd hc hm parts h) fun _ => .refl _
  | .add a b, h =>
    .bind (look_lasts hd hc hm a h.1) fun _ => .bind (look_lasts hd hc hm b h.2) fun _ => .refl _
  | .mul a b, h =>
    .bind (look_lasts hd hc hm a h.1) fun _ => .bind (look_lasts hd hc hm b h.2) fun _ => .refl _
  | .less a b, h =>
    .bind (look_lasts hd hc hm a h.1) fun _ => .bind (look_lasts hd hc hm b h.2) fun _ => .refl _
  | .same a b, h =>
    .bind (look_lasts hd hc hm a h.1) fun _ => .bind (look_lasts hd hc hm b h.2) fun _ => .refl _
  | .cond test yes no, h =>
    .bind (look_lasts hd hc hm test h.1) fun v => by
      cases v.isTrue with
      | true => exact look_lasts hd hc hm yes h.2.1
      | false => exact look_lasts hd hc hm no h.2.2
  | .sort e, h => .bind (look_lasts hd hc hm e h) fun _ => .refl _
  | .fail _, _ => .refl _
  | .tracking, h => nomatch h
  | .registrations, h => nomatch h
  | .argument _, _ => .refl _

theorem Expr.lookAll_lasts (hd : d.Later d')
    (hc : ∀ p, d.Shows p → Look.Lasts d d' (compute p) (compute' p)) {m : Ref .model}
    (hm : d.alive m) : ∀ xs : List Expr, Expr.EachAll Expr.Inward xs →
      Look.Lasts d d' (Expr.lookAll d compute { model := m } xs)
        (Expr.lookAll d' compute' { model := m } xs)
  | [], _ => .refl _
  | x :: xs, h =>
    .bind (look_lasts hd hc hm x h.1) fun _ =>
      .bind (lookAll_lasts hd hc hm xs h.2) fun _ => .refl _

end

end

theorem Sight.compute_lasts {d d' : Sight} (hd : d.Later d') (ht : d.Tracked) {n n' : Nat}
    (hn : n ≤ n') {p : Computed} (hp : d.Shows p) :
    Look.Lasts d d' (d.compute n p) (d'.compute n' p) := by
  induction n generalizing n' p with
  | zero =>
    intro r ms h
    simp [Sight.compute] at h
  | succ n ih =>
    cases n' with
    | zero => omega
    | succ n' =>
      rw [Sight.compute, Sight.compute]
      by_cases h : d.alive p.model
      · by_cases h' : d'.alive p.model
        · have ho (q : Computed) (hq : d.Shows q) := ih (Nat.le_of_succ_le_succ hn) hq
          rw [if_pos h, if_pos h']
          exact .bind (.refl _) fun _ => Expr.look_lasts hd ho h p.body (ht p hp)
        · rw [if_pos h, if_neg h']
          intro r ms _ _
          refine ⟨.error .detached, [], rfl, .inr ⟨rfl, List.nil_subset _, p.model, h, ?_⟩⟩
          exact Bool.eq_false_iff.2 h'
      · obtain ⟨o, key, hs⟩ := hp
        have h' : ¬d'.alive p.model := fun ha => h (hd.alive o key p hs ha)
        rw [if_neg h, if_neg h']
        exact .refl _

/-- What a path leads to lasts as its marks tell. -/
theorem Path.look_lasts {d d' : Sight} (hd : d.Later d') (ht : d.Tracked) {n n' : Nat} (hn : n ≤ n')
    (p : Path) (root : Ref .object) :
    Look.Lasts d d' (p.look d (d.compute n) root) (p.look d' (d'.compute n') root) :=
  Path.lookFrom_lasts hd (fun _ hq => Sight.compute_lasts hd ht hn hq) p p.segments _

end ViewBinding
