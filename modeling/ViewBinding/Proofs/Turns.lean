import ViewBinding.Proofs.Freshness

/-! The turns that subscribers take in a notification, if their scripts leave the data alone: what
each watcher finds on its turn is what it would find at the end. -/

namespace ViewBinding

variable {S T L : List Subscriber} {w w' w'' : World} {n : Nat} {r : Ref .watcher}

/-- A change that leaves the data alone that is there, and what watchers saw last, except for those
in `S`. -/
structure World.Idle (S : List Subscriber) (w w' : World) : Prop where
  objects : w.objects.size ≤ w'.objects.size
  cells : w.cells.size ≤ w'.cells.size
  models : w.models.size ≤ w'.models.size
  watchers : w.watchers.size ≤ w'.watchers.size
  slot? : ∀ o key, o.index < w.objects.size → w'.slot? o key = w.slot? o key
  value : ∀ c, c.index < w.cells.size → (w'.cells.get c).value = (w.cells.get c).value
  root : ∀ m, m.index < w.models.size → (w'.models.get m).data = (w.models.get m).data
  named : ∀ m, m.index < w.models.size → (w'.names.models.holds m ↔ w.names.models.holds m)
  used : w'.modelsInUse = w.modelsInUse
  model : ∀ r, r.index < w.watchers.size → (w'.watchers.get r).model = (w.watchers.get r).model
  path : ∀ r, r.index < w.watchers.size → (w'.watchers.get r).path = (w.watchers.get r).path
  callback : ∀ r, r.index < w.watchers.size →
    (w'.watchers.get r).callback = (w.watchers.get r).callback
  seen : ∀ r, r.index < w.watchers.size → .watcher r ∉ S →
    (w'.watchers.get r).value = (w.watchers.get r).value

namespace World

namespace Idle

theorem of_eq (hs : w'.sight = w.sight) (ho : w'.objects.size = w.objects.size)
    (hc : w'.cells.size = w.cells.size) (hr : w'.watchers = w.watchers) (hm : w'.models = w.models)
    (hn : w'.names.models = w.names.models) (hu : w'.modelsInUse = w.modelsInUse) :
    w.Idle [] w' where
  objects := Nat.le_of_eq ho.symm
  cells := Nat.le_of_eq hc.symm
  models := Nat.le_of_eq (congrArg Store.size hm.symm)
  watchers := Nat.le_of_eq (congrArg Store.size hr.symm)
  slot? o key _ := congrFun (congrFun (congrArg Sight.slot? hs) o) key
  value c _ := congrFun (congrArg Sight.value hs) c
  root m _ := by rw [hm]
  named m _ := by rw [hn]
  used := hu
  model r _ := by rw [hr]
  path r _ := by rw [hr]
  callback r _ := by rw [hr]
  seen r _ _ := by rw [hr]

theorem refl (w : World) : w.Idle [] w := of_eq rfl rfl rfl rfl rfl rfl rfl

theorem trans (h : w.Idle S w') (h' : w'.Idle T w'') : w.Idle (S ++ T) w'' where
  objects := Nat.le_trans h.objects h'.objects
  cells := Nat.le_trans h.cells h'.cells
  models := Nat.le_trans h.models h'.models
  watchers := Nat.le_trans h.watchers h'.watchers
  slot? o key ho := (h'.slot? o key (Nat.lt_of_lt_of_le ho h.objects)).trans (h.slot? o key ho)
  value c hc := (h'.value c (Nat.lt_of_lt_of_le hc h.cells)).trans (h.value c hc)
  root m hm := (h'.root m (Nat.lt_of_lt_of_le hm h.models)).trans (h.root m hm)
  named m hm := (h'.named m (Nat.lt_of_lt_of_le hm h.models)).trans (h.named m hm)
  used := h'.used.trans h.used
  model r hr := (h'.model r (Nat.lt_of_lt_of_le hr h.watchers)).trans (h.model r hr)
  path r hr := (h'.path r (Nat.lt_of_lt_of_le hr h.watchers)).trans (h.path r hr)
  callback r hr := (h'.callback r (Nat.lt_of_lt_of_le hr h.watchers)).trans (h.callback r hr)
  seen r hr hs := by
    rw [List.mem_append, not_or] at hs
    exact (h'.seen r (Nat.lt_of_lt_of_le hr h.watchers) hs.2).trans (h.seen r hr hs.1)

theorem mono (h : w.Idle S w') (hs : S ⊆ T) : w.Idle T w' :=
  { h with seen := fun r hr ht => h.seen r hr fun hS => ht (hs hS) }

theorem modelAlive (h : w.Idle S w') {m : Ref .model} (hm : m.index < w.models.size) :
    w'.modelAlive m ↔ w.modelAlive m := by
  rw [modelAlive_iff, modelAlive_iff, h.named m hm, h.used]

theorem later (h : w.Idle S w') (hw : w.Valid) : w.sight.Later w'.sight where
  slot o key slot hs := by
    have ho : o.index < w.objects.size := by
      by_contra ho
      have hn : w.slot? o key = none := by
        have he : (default : Object).slots = ∅ := rfl
        simp [World.slot?, w.objects.get_of_size_le (Nat.le_of_not_lt ho), he]
      exact nomatch hn.symm.trans hs
    exact (h.slot? o key ho).trans hs
  alive o key p hp := (h.modelAlive (hw.computed o key p hp).1).1
  root m hm := h.root m (hw.lt_of_modelAlive hm)

theorem look {α : Type} {l l' : Look α} (h : w.Idle S w') (hw : w.Valid)
    (hl : Look.Lasts w.sight w'.sight l l') {Q : α → Prop} (hq : l.Within w Q)
    {res : Except Fault α} {ms : List Mark} (hr : l.run = some (res, ms)) :
    l'.run = some (res, ms) := by
  have hk : w.sight.Keeps w'.sight ms :=
    { cell := fun c hc => h.value c ((hq _ _ hr).1 _ hc)
      missing := fun o key hm hn => (h.slot? o key ((hq _ _ hr).1 _ hm)).trans hn }
  obtain ⟨_, _, hr', ⟨rfl, rfl⟩ | ⟨-, -, m, hm, hm'⟩⟩ := hl _ _ hr hk
  · exact hr'
  · exact absurd ((h.modelAlive (hw.lt_of_modelAlive hm)).2 hm) (Bool.eq_false_iff.1 hm')

end Idle

theorem look_within (hw : w.Valid) (hr : r.index < w.watchers.size) :
    (w.look n r).Within w (Value.Within w.objects.size) := by
  refine Path.lookFrom_within hw.closed (hw.bounded n) _ _ fun o ho => ?_
  obtain rfl := Option.some.inj ho
  exact hw.root _ (hw.model r hr)

/-- What the path of a watcher leads to is not changed by what leaves the data alone. -/
theorem Idle.look_eq (h : w.Idle S w') (hw : w.Valid) (hr : r.index < w.watchers.size)
    {res : Except Fault Value} {ms : List Mark} (hl : (w.look n r).run = some (res, ms)) :
    (w'.look n r).run = some (res, ms) := by
  rw [World.look, h.model r hr, h.path r hr, h.root _ (hw.model r hr)]
  exact h.look hw (Path.look_lasts (h.later hw) hw.tracked (Nat.le_refl n) _ _)
    (look_within hw hr) hl

theorem Relisted.idle (h : w.Relisted w') : w.Idle [] w' :=
  .of_eq h.sight h.objects h.cells h.watchers h.models (congrArg Names.models h.names) h.modelsInUse

theorem idle_afterTurn (s : Subscriber) (p : Except Fault Unit × World) :
    p.2.Idle [] (World.afterTurn s p) := by
  obtain ⟨_ | _, w⟩ := p <;> exact .of_eq rfl rfl rfl rfl rfl rfl rfl

theorem idle_remember (w : World) (r : Ref .watcher) (v : Value) :
    w.Idle [.watcher r] (w.remember r v) := by
  have hsz : (w.remember r v).watchers.size = w.watchers.size := Store.size_modify ..
  refine { (Idle.refl w).mono (List.nil_subset [Subscriber.watcher r]) with
    watchers := Nat.le_of_eq hsz.symm
    model := fun r' _ => w.model_remember r r' v
    path := fun r' _ => w.path_remember r r' v
    callback := fun r' _ => ?_
    seen := fun r' _ hr' => ?_ }
  · obtain e | ⟨-, e⟩ := w.remember_cases r r' v <;> rw [e]
  · obtain e | ⟨rfl, -⟩ := w.remember_cases r r' v
    · rw [e]
    · exact absurd (List.mem_singleton_self _) hr'

theorem Idle.using {m : Ref .model} (h : (w.useModel m).Idle S w') :
    w.Idle S (w'.releaseModel m) where
  objects := h.objects
  cells := h.cells
  models := h.models
  watchers := h.watchers
  slot? := h.slot?
  value := h.value
  root := h.root
  named := h.named
  used := by
    show w'.modelsInUse.erase m = w.modelsInUse
    rw [h.used]
    exact List.erase_cons_head ..
  model := h.model
  path := h.path
  callback := h.callback
  seen := h.seen

theorem sight_useModel {m : Ref .model} (hm : w.modelAlive m) : (w.useModel m).sight = w.sight := by
  have ha : (w.useModel m).modelAlive = w.modelAlive := by
    funext m'
    exact Bool.eq_iff_iff.2 (modelAlive_useModel hm m')
  show ({ w.sight with alive := (w.useModel m).modelAlive } : Sight) = w.sight
  rw [ha]
  rfl

end World

namespace Watcher

/-- The change with which the callback of a watcher starts on an update, and the world it starts in,
if it does. -/
def starts (compute : Computed → Reading Value) (r : Ref .watcher) (w : World) :
    Option (Change × World) :=
  let m := (w.watchers.get r).model
  if w.modelAlive m then
    match evaluate compute r (w.useModel m) with
    | some (.ok new, w') =>
      let old := (w'.watchers.get r).value
      if old.same new then none else some ({ new, old }, w'.remember r new)
    | _ => none
  else none

theorem modelAlive_of_starts {compute : Computed → Reading Value} {q : Change × World}
    (h : starts compute r w = some q) : w.modelAlive (w.watchers.get r).model := by
  by_contra hm
  rw [starts, if_neg hm] at h
  cases h

theorem valid_of_starts (hw : w.Valid) (hr : r.index < w.watchers.size) {c : Change} {w₁ : World}
    (h : starts (Engine.ofFuel n).compute r w = some (c, w₁)) : w₁.Valid := by
  simp only [starts] at h
  split at h
  · have hu := World.passes_useModel hw ‹_›
    split at h
    · obtain ⟨hn, -, hv⟩ := evaluate_notes hu.valid hr ‹_›
      split at h
      · cases h
      · cases h
        exact (World.passes_remember (hn.valid hu.valid) r (hv _ rfl)).valid
    · cases h
  · cases h

/-- On an update a watcher finds nothing new, or its callback starts. -/
theorem update_cases (hw : w.Valid) (hr : r.index < w.watchers.size) {res : Except Fault Unit}
    (h : update (Engine.ofFuel n) r w = some (res, w')) :
    (starts (Engine.ofFuel n).compute r w = none ∧ w.Idle [] w' ∧ w'.view = w.view ∧
      (w.modelAlive (w.watchers.get r).model → ∃ res ms, (w.look n r).run = some (res, ms) ∧
        ∀ v, res = .ok v → (w.watchers.get r).value.same v)) ∨
    ∃ new w₁ ms p, starts (Engine.ofFuel n).compute r w =
        some ({ new, old := (w.watchers.get r).value }, w₁) ∧
      (w.look n r).run = some (.ok new, ms) ∧ ¬(w.watchers.get r).value.same new ∧
      (w.useModel (w.watchers.get r).model).Idle [.watcher r] w₁ ∧ w₁.sight = w.sight ∧
      w₁.view = w.view ∧
      (w.watchers.get r).callback.perform (Engine.ofFuel n) r (w.watchers.get r).model
        { new, old := (w.watchers.get r).value } w₁ = some p ∧
      w' = p.2.releaseModel (w.watchers.get r).model := by
  have hlook {look : Except Fault Value} {w₁ : World}
      (hm : w.modelAlive (w.watchers.get r).model)
      (hev : evaluate (Engine.ofFuel n).compute r (w.useModel (w.watchers.get r).model) =
        some (look, w₁)) : (w.useModel (w.watchers.get r).model).Noted w₁ ∧
          w₁.view = w.view ∧ ∃ ms, (w.look n r).run = some (look, ms) := by
    have hu := World.passes_useModel hw hm
    have hn := (evaluate_notes hu.valid hr hev).1
    rw [evaluate_apply hu.valid.tracked.steady, Option.map_eq_some_iff] at hev
    obtain ⟨⟨look', ms⟩, hl, he⟩ := hev
    obtain ⟨rfl, hw₁⟩ := Prod.mk.inj he
    refine ⟨hn, by rw [← hw₁, Mark.view_leaveAll]; rfl, ms, ?_⟩
    rw [← hl, World.look, World.look, World.sight_useModel hm]
    rfl
  cases Updated.of_update h with
  | gone hm => exact .inl ⟨if_neg hm, .refl w, rfl, fun h => absurd h hm⟩
  | fails hm hev =>
    obtain ⟨hn, hview, ms, hl⟩ := hlook hm hev
    refine .inl ⟨by simp [starts, hm, hev], hn.idle.using, hview, fun _ => ⟨_, ms, hl, ?_⟩⟩
    intro v hv
    cases hv
  | same hm hev hsame =>
    obtain ⟨hn, hview, ms, hl⟩ := hlook hm hev
    refine .inl ⟨by simp [starts, hm, hev, hsame], hn.idle.using, hview, fun _ => ⟨_, ms, hl, ?_⟩⟩
    intro v hv
    cases hv
    rwa [hn.watchers] at hsame
  | @calls new w₁ w₂ _ hm hev hsame hp =>
    obtain ⟨hn, hview, ms, hl⟩ := hlook hm hev
    have hwatcher : w₁.watchers.get r = w.watchers.get r := by rw [hn.watchers]; rfl
    rw [hwatcher] at hsame hp
    exact .inr ⟨new, w₁.remember r new, ms, _, by simp [starts, hm, hev, hwatcher, hsame], hl,
      by simp [hsame], hn.idle.trans (World.idle_remember w₁ r new),
      hn.sight.trans (World.sight_useModel hm), hview, hp, rfl⟩

end Watcher

/-- Whether what a subscriber starts on its turn leaves the data alone. -/
def Subscriber.Calm (e : Engine) (s : Subscriber) (w : World) : Prop :=
  match s with
  | .watcher r => ∀ change w₁, Watcher.starts e.compute r w = some (change, w₁) →
    ∀ p, (w.watchers.get r).callback.perform e r (w.watchers.get r).model change w₁ = some p →
      w₁.Idle [] p.2
  | .reaction r => ∀ p, Subscriber.update e (.reaction r) w = some p → w.Idle [] p.2

def CalmTurns (e : Engine) : List Subscriber → World → Prop
  | [], _ => True
  | s :: rest, w => s.Calm e w ∧
    ∀ p, s.update e w = some p → CalmTurns e rest (World.afterTurn s p)

/-- The watcher whose callback starts on the turn of a subscriber, if one does, with its change. -/
def Subscriber.fires (e : Engine) (s : Subscriber) (w : World) : List (Ref .watcher × Change) :=
  match s with
  | .watcher r => ((Watcher.starts e.compute r w).map fun p => (r, p.1)).toList
  | .reaction _ => []

def fired (e : Engine) : List Subscriber → World → List (Ref .watcher × Change)
  | [], _ => []
  | s :: rest, w => s.fires e w ++
      ((s.update e w).elim [] fun p => fired e rest (World.afterTurn s p))

theorem fired_cons {e : Engine} {s : Subscriber} {p : Except Fault Unit × World}
    (h : s.update e w = some p) (rest : List Subscriber) :
    fired e (s :: rest) w = s.fires e w ++ fired e rest (World.afterTurn s p) := by
  rw [fired, h]
  rfl

theorem Subscriber.eq_of_mem_fires {e : Engine} {s : Subscriber} {c : Change}
    (h : (r, c) ∈ s.fires e w) : s = .watcher r := by
  cases s with
  | reaction r => cases h
  | watcher r' =>
    obtain ⟨q, -, hq⟩ := Option.map_eq_some_iff.1 (Option.mem_toList.1 h)
    cases hq
    rfl

theorem mem_of_fired {e : Engine} {c : Change} (h : (r, c) ∈ fired e L w) : .watcher r ∈ L := by
  induction L generalizing w with
  | nil => cases h
  | cons s rest ih =>
    rw [fired] at h
    obtain h | h := List.mem_append.1 h
    · rw [Subscriber.eq_of_mem_fires h]
      exact List.mem_cons_self
    · cases hp : s.update e w with
      | none =>
        rw [hp] at h
        cases h
      | some p =>
        rw [hp] at h
        exact List.mem_cons_of_mem s (ih h)

/-- What is known of those who fired while the subscribers in `L` took turns: they did so in order,
with what their paths lead to and what they saw before, and nobody was left out who saw something
new. -/
structure Fans (n : Nat) (L : List Subscriber) (w w' : World) (fs : List (Ref .watcher × Change)) :
    Prop where
  order : (fs.map fun p => Subscriber.watcher p.1).Sublist L
  change : ∀ r c, (r, c) ∈ fs → c.old = (w.watchers.get r).value ∧ ¬c.old.same c.new ∧
    ∃ ms, (w'.look n r).run = some (.ok c.new, ms)
  complete : ∀ r, .watcher r ∈ L → w.modelAlive (w.watchers.get r).model → ∀ k v ms,
    (w'.look k r).run = some (.ok v, ms) → ¬(w.watchers.get r).value.same v → r ∈ fs.map Prod.fst

namespace Subscriber

variable {s : Subscriber}

theorem Calm.idle (hc : s.Calm (Engine.ofFuel n) w) (hw : w.Valid) (hs : s.Made w)
    {p : Except Fault Unit × World} (h : s.update (Engine.ofFuel n) w = some p) :
    w.Idle [s] (World.afterTurn s p) := by
  have hi : w.Idle [s] p.2 := by
    cases s with
    | reaction r => exact (hc p h).mono (List.nil_subset _)
    | watcher r =>
      obtain ⟨-, hi, -⟩ | ⟨new, w₁, ms, q, hst, -, -, hi, -, -, hq, he⟩ :=
        Watcher.update_cases hw hs h
      · exact hi.mono (List.nil_subset _)
      · rw [he]
        exact (hi.trans (hc _ w₁ hst q hq)).using
  exact hi.trans (World.idle_afterTurn s p)

theorem change_of_fires (hw : w.Valid) (hs : s.Made w) {p : Except Fault Unit × World}
    (h : s.update (Engine.ofFuel n) w = some p) {c : Change}
    (hc : (r, c) ∈ s.fires (Engine.ofFuel n) w) :
    s = .watcher r ∧ c.old = (w.watchers.get r).value ∧
      ¬c.old.same c.new ∧ ∃ ms, (w.look n r).run = some (.ok c.new, ms) := by
  cases s with
  | reaction r => cases hc
  | watcher r' =>
    obtain ⟨hst, -⟩ | ⟨new, w₁, ms, q, hst, hl, hn, -⟩ := Watcher.update_cases hw hs h
    · rw [fires, hst] at hc
      cases hc
    · rw [fires, hst] at hc
      cases List.mem_singleton.1 hc
      exact ⟨rfl, rfl, hn, ms, hl⟩

theorem mem_fires (hw : w.Valid) (hr : r.index < w.watchers.size)
    (hm : w.modelAlive (w.watchers.get r).model) {p : Except Fault Unit × World}
    (h : Subscriber.update (Engine.ofFuel n) (.watcher r) w = some p) :
    (∃ res ms, (w.look n r).run = some (res, ms) ∧
      ∀ v, res = .ok v → (w.watchers.get r).value.same v) ∨
      r ∈ (fires (Engine.ofFuel n) (.watcher r) w).map Prod.fst := by
  obtain ⟨-, -, -, hl⟩ | ⟨new, w₁, ms, q, hst, -⟩ := Watcher.update_cases hw hr h
  · exact .inl (hl hm)
  · rw [fires, hst]
    exact .inr (List.mem_singleton_self r)

end Subscriber

theorem CalmTurns.idle (hc : CalmTurns (Engine.ofFuel n) L w) (hw : w.Valid)
    (hs : ∀ s ∈ L, s.Made w) {k : Except Fault Nat}
    (h : updateEach (Subscriber.update (Engine.ofFuel n)) L w = some (k, w')) : w.Idle L w' := by
  have hu := Subscriber.update_settling (Engine.calls n)
  induction L generalizing w k with
  | nil =>
    cases h
    exact .refl _
  | cons s rest ih =>
    obtain ⟨p, k', hp, hk, -⟩ := updateEach_cons_eq_some h
    have hmade := hs s List.mem_cons_self
    have hpass := (hu.turn hw hmade hp).1
    exact (hc.1.idle hw hmade hp).trans (ih (hc.2 p hp) hpass.valid
      (fun t ht => (hs t (List.mem_cons_of_mem s ht)).passes hpass) hk)

/-- Just those fire who have something new to see. -/
theorem CalmTurns.fans (hc : CalmTurns (Engine.ofFuel n) L w) (hw : w.Valid)
    (hs : ∀ s ∈ L, s.Made w) (hn : L.Nodup) {k : Except Fault Nat}
    (h : updateEach (Subscriber.update (Engine.ofFuel n)) L w = some (k, w')) :
    Fans n L w w' (fired (Engine.ofFuel n) L w) := by
  have hu := Subscriber.update_settling (Engine.calls n)
  have hw' := (updateEach_passes hu hw hs h).1.valid
  induction L generalizing w k with
  | nil =>
    cases h
    exact ⟨.slnil, fun r c h => (nomatch h), fun r h => (nomatch h)⟩
  | cons s rest ih =>
    have hall := hc.idle hw hs h
    obtain ⟨p, k', hp, hk, -⟩ := updateEach_cons_eq_some h
    have hmade := hs s List.mem_cons_self
    have hi := hc.1.idle hw hmade hp
    have hpass := (hu.turn hw hmade hp).1
    obtain ⟨hns, hnr⟩ := List.nodup_cons.1 hn
    have hf := ih (hc.2 p hp) hpass.valid
      (fun t ht => (hs t (List.mem_cons_of_mem s ht)).passes hpass) hnr hk
    rw [fired_cons hp]
    refine ⟨?_, fun r c hrc => ?_, fun r hr hm k v ms hl hv => ?_⟩
    · rw [List.map_append, ← List.singleton_append]
      refine List.Sublist.append ?_ hf.order
      cases s with
      | reaction r => exact List.nil_sublist _
      | watcher r =>
        rw [Subscriber.fires]
        cases Watcher.starts (Engine.ofFuel n).compute r w with
        | none => exact List.nil_sublist _
        | some q => exact List.Sublist.refl _
    · obtain hrc | hrc := List.mem_append.1 hrc
      · obtain ⟨rfl, ho, hne, ms, hl⟩ := Subscriber.change_of_fires hw hmade hp hrc
        exact ⟨ho, hne, ms, hall.look_eq hw hmade hl⟩
      -- Its value was not touched by the turn of somebody else.
      · have hr := mem_of_fired hrc
        obtain ⟨ho, hne, hl⟩ := hf.change r c hrc
        refine ⟨ho.trans (hi.seen r (hs _ (List.mem_cons_of_mem s hr)) ?_), hne, hl⟩
        rintro h
        exact hns (List.mem_singleton.1 h ▸ hr)
    · rw [List.map_append, List.mem_append]
      obtain rfl | hr := List.mem_cons.1 hr
      · obtain ⟨res, ms', hl', hsame⟩ | hmem := Subscriber.mem_fires hw hmade hm hp
        · have e := World.look_unique hw' (hall.look_eq hw hmade hl') hl
          exact absurd (hsame v e) hv
        · exact .inl hmem
      · have hlt : r.index < w.watchers.size := hs _ (List.mem_cons_of_mem s hr)
        have hr' : .watcher r ∉ [s] := fun h => hns (List.mem_singleton.1 h ▸ hr)
        refine .inr (hf.complete r hr ?_ k v ms hl ?_)
        · rw [hi.model r hlt]
          exact (hi.modelAlive (hw.model r hlt)).2 hm
        · rwa [hi.seen r hlt hr']

end ViewBinding
