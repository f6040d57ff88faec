import ViewBinding.Proofs.Assigns.Consults
import ViewBinding.Proofs.Ledger

/-! What reading leaves alone. It may make new data, and it registers its subscriber, but it changes
nothing that was there, whatever expressions are worked out on the way and however it ends. -/

namespace ViewBinding

variable {α β : Type} {b v v' w : World} {source : Source} {s : Subscriber} {m : Ref .model}

/-- Whether an identity was given out after some others and before the rest. -/
def Ref.Between {k : Kind} (r : Ref k) (lo hi : Nat) : Prop := lo ≤ r.index ∧ r.index < hi

theorem Ref.not_between_of_lt {k : Kind} {r : Ref k} {lo hi : Nat} (h : r.index < lo) :
    ¬r.Between lo hi := fun hb => Nat.not_le.2 h hb.1

theorem Ref.not_between_of_le {k : Kind} {r : Ref k} {lo hi : Nat} (h : hi ≤ r.index) :
    ¬r.Between lo hi := fun hb => Nat.not_le.2 hb.2 h

def Subscriber.Between (b v : World) : Subscriber → Prop
  | .watcher r => r.Between b.watchers.size v.watchers.size
  | .reaction _ => False

instance (b v : World) : DecidablePred (Subscriber.Between b v)
  | .watcher _ => inferInstanceAs (Decidable (_ ∧ _))
  | .reaction _ => inferInstanceAs (Decidable False)

theorem Subscriber.Between.mono (h : s.Between b v) (hv : v.watchers.size ≤ v'.watchers.size) :
    s.Between b v' := by
  cases s with
  | watcher r => exact ⟨h.1, Nat.lt_of_lt_of_le h.2 hv⟩
  | reaction r => exact h

namespace World

/-- What binding a view to a view-model leaves alone: all data and all watchers that were there, and
all other view-models. Only watchers that were made since come to a registry, behind those who were
there. -/
structure Spared (b : World) (m : Ref .model) (v : World) : Prop where
  objects : b.objects.size ≤ v.objects.size
  cells : b.cells.size ≤ v.cells.size
  watchers : b.watchers.size ≤ v.watchers.size
  models : b.models.size ≤ v.models.size
  registries : v.registries.size = b.registries.size
  slot : ∀ o, o.index < b.objects.size → ∀ key, v.slot? o key = b.slot? o key
  value : ∀ c, c.index < b.cells.size → (v.cells.get c).value = (b.cells.get c).value
  watcher : ∀ r, r.index < b.watchers.size → v.watchers.get r = b.watchers.get r
  model : ∀ m', m' ≠ m → m'.index < b.models.size → v.models.get m' = b.models.get m'
  joined : ∀ source, ∃ more, (v.registry source).order = (b.registry source).order ++ more ∧
    ∀ s ∈ more, s.Between b v
  members : ∀ (source : Source) s, ¬s.Between b v →
    (s ∈ (v.registry source).members ↔ s ∈ (b.registry source).members)
  names : v.names = b.names
  modelsInUse : v.modelsInUse = b.modelsInUse
  subscribersInUse : v.subscribersInUse = b.subscribersInUse

namespace Spared

theorem refl (b : World) (m : Ref .model) : b.Spared m b where
  objects := Nat.le_refl _
  cells := Nat.le_refl _
  watchers := Nat.le_refl _
  models := Nat.le_refl _
  registries := rfl
  slot _ _ _ := rfl
  value _ _ := rfl
  watcher _ _ := rfl
  model _ _ _ := rfl
  joined _ := ⟨[], (List.append_nil _).symm, List.forall_mem_nil _⟩
  members _ _ _ := .rfl
  names := rfl
  modelsInUse := rfl
  subscribersInUse := rfl

theorem rejoined (h : b.Spared m v) (hr : ∀ source, v'.registry source = v.registry source)
    (hw : v.watchers.size ≤ v'.watchers.size) :
    (∀ source, ∃ more, (v'.registry source).order = (b.registry source).order ++ more ∧
      ∀ s ∈ more, s.Between b v') ∧
    ∀ (source : Source) s, ¬s.Between b v' →
      (s ∈ (v'.registry source).members ↔ s ∈ (b.registry source).members) := by
  refine ⟨fun source => ?_, fun source s hs => ?_⟩
  · obtain ⟨more, horder, hmore⟩ := h.joined source
    rw [hr]
    exact ⟨more, horder, fun s hs => (hmore s hs).mono hw⟩
  · rw [hr]
    exact h.members source s fun hb => hs (hb.mono hw)

theorem grown (h : b.Spared m v) (hg : v.Grown v') : b.Spared m v' where
  objects := Nat.le_trans h.objects hg.objects
  cells := Nat.le_trans h.cells hg.cells
  watchers := by rw [hg.watchers]; exact h.watchers
  models := Nat.le_trans h.models hg.models
  registries := by rw [hg.registries]; exact h.registries
  slot o ho key := by
    rw [slot?, hg.object o (Nat.lt_of_lt_of_le ho h.objects)]
    exact h.slot o ho key
  value c hc := by
    rw [hg.cell c (Nat.lt_of_lt_of_le hc h.cells)]
    exact h.value c hc
  watcher r hr := by rw [hg.watchers]; exact h.watcher r hr
  model m' hne hm := by
    rw [hg.model m' (Nat.lt_of_lt_of_le hm h.models)]
    exact h.model m' hne hm
  joined := (h.rejoined hg.registry_eq (Nat.le_of_eq (by rw [hg.watchers]))).1
  members := (h.rejoined hg.registry_eq (Nat.le_of_eq (by rw [hg.watchers]))).2
  names := hg.names.trans h.names
  modelsInUse := hg.modelsInUse.trans h.modelsInUse
  subscribersInUse := hg.subscribersInUse.trans h.subscribersInUse

theorem setRegistry (h : b.Spared m v) (hs : s.Between b v) {registry : Registry}
    (hr : (v.registry source).add? s = some registry) :
    b.Spared m (v.setRegistry source registry) := by
  have hframe := SameFrame.setRegistry v source registry
  have hbetween (t : Subscriber) : t.Between b (v.setRegistry source registry) ↔ t.Between b v := by
    cases t <;> simp only [Subscriber.Between, hframe.watchers]
  refine
    { objects := ?_, cells := ?_, watchers := hframe.watchers ▸ h.watchers
      models := hframe.models ▸ h.models, registries := ?_, slot := fun o ho key => ?_
      value := fun c hc => ?_, watcher := hframe.watchers ▸ h.watcher
      model := hframe.models ▸ h.model
      joined := fun source' => ?_, members := fun source' t ht => ?_
      names := hframe.names.trans h.names, modelsInUse := hframe.modelsInUse.trans h.modelsInUse
      subscribersInUse := hframe.subscribersInUse.trans h.subscribersInUse }
  · cases source <;> simpa only [World.setRegistry, Store.size_modify] using h.objects
  · cases source <;> simpa only [World.setRegistry, Store.size_modify] using h.cells
  · cases source <;> simpa only [World.setRegistry, Store.size_modify] using h.registries
  · rw [slot?_setRegistry]
    exact h.slot o ho key
  · exact (congrFun (congrArg Sight.value (v.sight_setRegistry source registry)) c).trans
      (h.value c hc)
  · obtain ⟨more, horder, hmore⟩ := h.joined source'
    simp only [hbetween]
    obtain e | ⟨rfl, -, e⟩ := registry_setRegistry_cases source source' registry
    · rw [e]
      exact ⟨more, horder, hmore⟩
    · refine ⟨more ++ [s], ?_, List.forall_mem_append.2 ⟨hmore, List.forall_mem_singleton.2 hs⟩⟩
      rw [e, Registry.order_add? hr, horder, List.append_assoc]
  · rw [hbetween] at ht
    obtain e | ⟨rfl, -, e⟩ := registry_setRegistry_cases source source' registry
    · rw [e]
      exact h.members source' t ht
    · rw [e, Registry.mem_members_add? hr, ← h.members source t ht]
      exact or_iff_right fun hts => ht (hts ▸ hs)

theorem addWatcher (h : b.Spared m v) (watcher : Watcher) : b.Spared m (v.addWatcher watcher) ∧
      v.watchers.fresh.Between b.watchers.size (v.addWatcher watcher).watchers.size := by
  have hsize : v.watchers.size ≤ (v.addWatcher watcher).watchers.size := by
    rw [size_addWatcher]
    exact Nat.le_succ _
  obtain ⟨hjoined, hmembers⟩ := h.rejoined (registry_addWatcher v watcher) hsize
  refine ⟨{ h with
    watchers := Nat.le_trans h.watchers hsize, watcher := fun r hr => ?_
    joined := hjoined, members := hmembers }, h.watchers, ?_⟩
  · exact (v.watchers.get_add_of_lt _ (Nat.lt_of_lt_of_le hr h.watchers)).trans (h.watcher r hr)
  · rw [size_addWatcher]
    exact Nat.lt_succ_self _

theorem remember (h : b.Spared m v) {r : Ref .watcher}
    (hr : r.Between b.watchers.size v.watchers.size) (u : Value) : b.Spared m (v.remember r u) := by
  have hsize := size_remember v r u
  obtain ⟨hjoined, hmembers⟩ := h.rejoined (registry_remember v r u) (Nat.le_of_eq hsize.symm)
  refine { h with
    watchers := hsize ▸ h.watchers, watcher := fun r' hr' => ?_
    joined := hjoined, members := hmembers }
  obtain e | ⟨rfl, -⟩ := v.remember_cases r r' u
  · rw [e]
    exact h.watcher r' hr'
  · exact absurd hr.1 (Nat.not_le.2 hr')

theorem keepWatcher (h : b.Spared m v) (r : Ref .watcher) : b.Spared m (v.keepWatcher m r) :=
  { h with
    models := Nat.le_trans h.models (Nat.le_of_eq (Store.size_modify ..).symm)
    model := fun m' hne hm =>
      (v.models.get_modify_of_ne _ fun he => hne he.symm).trans (h.model m' hne hm) }

theorem tell (h : b.Spared m v) (x : Happening) : b.Spared m (v.tell x) := { h with }

theorem view (h : b.Spared m v) (view : View) : b.Spared m { v with view } := { h with }

end Spared

end World

def Action.Spares (b : World) (m : Ref .model) (x : Action α) : Prop :=
  ∀ v r v', b.Spared m v → x v = some (r, v') → b.Spared m v'

namespace Reading

/-- Whether a reading leaves alone what was there, if it is for nobody or for a watcher that was
made since. -/
def Spares (b : World) (m : Ref .model) (x : Reading α) : Prop :=
  ∀ e v r e' v', b.Spared m v → (∀ s, e.subscriber = some s → s.Between b v) →
    x e v = some ((r, e'), v') →
    b.Spared m v' ∧ e'.subscriber = e.subscriber ∧ v'.watchers.size = v.watchers.size

namespace Spares

variable {x : Reading α}

theorem pure (a : α) : (Pure.pure a : Reading α).Spares b m := by
  intro e v r e' v' hv _ h
  cases h
  exact ⟨hv, rfl, rfl⟩

theorem throw (f : Fault) : (MonadExcept.throw f : Reading α).Spares b m := by
  intro e v r e' v' hv _ h
  cases h
  exact ⟨hv, rfl, rfl⟩

theorem ofExcept (r : Except Fault α) : (MonadExcept.ofExcept r : Reading α).Spares b m := by
  cases r with
  | error f => exact throw f
  | ok a => exact pure a

theorem bind {f : α → Reading β} (hx : x.Spares b m) (hf : ∀ a, (f a).Spares b m) :
    (x >>= f).Spares b m := by
  intro e v r e' v' hv hs h
  rw [bind_apply] at h
  split at h
  · cases h
  · cases h
    exact hx e v _ _ _ hv hs ‹_›
  · obtain ⟨hv₁, he₁, hn₁⟩ := hx e v _ _ _ hv hs ‹_›
    obtain ⟨hv₂, he₂, hn₂⟩ := hf _ _ _ r e' v' hv₁
      (fun s h => (hs s (he₁ ▸ h)).mono (Nat.le_of_eq hn₁.symm)) h
    exact ⟨hv₂, he₂.trans he₁, hn₂.trans hn₁⟩

theorem getWorld {f : World → Reading α} (h : ∀ w, (f w).Spares b m) :
    (getThe World >>= f).Spares b m := fun e v => h v e v

theorem getEvaluation {f : Evaluation → Reading α} (h : ∀ e, (f e).Spares b m) :
    (getThe Evaluation >>= f).Spares b m := fun e v => h e e v

theorem modifyGet {g : World → α × World} (h : ∀ w : World, w.Grown (g w).2) :
    (modifyGetThe World g : Reading α).Spares b m := by
  intro e v r e' v' hv _ hr
  cases hr
  exact ⟨hv.grown (h v), rfl, by rw [(h v).watchers]⟩

theorem tell (x : Happening) : (Reading.ofAction (Action.tell x)).Spares b m := by
  intro e v r e' v' hv _ hr
  cases hr
  exact ⟨hv.tell x, rfl, rfl⟩

theorem once (hx : x.Spares b m) : (Reading.ofAction x.once).Spares b m := by
  intro e v r e' v' hv _ h
  obtain ⟨⟨r', v₁⟩, hr, he⟩ := Option.map_eq_some_iff.1 h
  cases he
  rw [once_eq_map, Option.map_eq_some_iff] at hr
  obtain ⟨⟨⟨r', e'⟩, v₁⟩, hr, he⟩ := hr
  cases he
  obtain ⟨hv', -, hn⟩ := hx _ _ _ _ _ hv (fun s hs => by cases hs) hr
  exact ⟨hv', rfl, hn⟩

theorem register (source : Source) : (Reading.register source).Spares b m := by
  rintro ⟨s?, n⟩ v r e' v' hv hs h
  cases s? with
  | none =>
    cases h
    exact ⟨hv, rfl, rfl⟩
  | some s =>
    rw [World.register_eq] at h
    split at h
    · cases h
      have hframe := World.SameFrame.setRegistry v source ‹_›
      exact ⟨hv.setRegistry (hs s rfl) ‹_›, rfl, by rw [hframe.watchers]⟩
    · cases h
      exact ⟨hv, rfl, rfl⟩

theorem cell (c : Ref .cell) : (Cell.read c).Spares b m :=
  .bind (.register _) fun _ => .getWorld fun _ => .pure _

section

variable {compute : Computed → Reading Value}

section

variable (hc : ∀ p, (compute p).Spares b m)
include hc

theorem object (o : Ref .object) (key : String) : (Object.read compute o key).Spares b m := by
  refine .getWorld fun w => ?_
  cases w.slot? o key with
  | none => exact .bind (.register _) fun _ => .pure _
  | some slot =>
    cases slot with
    | cell c => exact .cell c
    | computed p => exact hc p

theorem follow (p : Path) (segments : List String) (u : Value) :
    (p.follow compute segments u).Spares b m := by
  induction segments generalizing u with
  | nil => exact .pure _
  | cons segment rest ih =>
    exact .bind (.ofExcept _) fun o => .bind (object hc o segment) fun u => ih u

theorem model (m' : Ref .model) (path : String) : (ViewModel.read compute m' path).Spares b m :=
  .bind (.ofExcept _) fun p => .getWorld fun _ => follow hc p _ _

theorem frame (f : Frame) (name : Option String) (path : String) :
    (f.read compute name path).Spares b m :=
  .getWorld fun _ => .bind (.ofExcept _) fun m => model hc m path

end

mutual

theorem expr (hc : ∀ p, (compute p).Spares b m) (f : Frame) :
    ∀ x : Expr, (x.eval compute f).Spares b m
  | .data d => .modifyGet fun w => (World.observe_grown d w).1
  | .number _ => .pure _
  | .get name path => frame hc f name path
  | .peek name path => .once (frame hc f name path)
  | .property object key =>
    .bind (expr hc f object) fun u => .bind (expr hc f key) fun k => by
      cases u.object? with
      | none => exact .throw _
      | some o => exact Spares.object hc o k.text
  | .root _ => .getWorld fun _ => .bind (.ofExcept _) fun _ => .pure _
  | .saved name => .getWorld fun w => by
      cases w.names.values[name]? with
      | none => exact .throw _
      | some u => exact .pure u
  | .array items =>
    .bind (exprs hc f items) fun us => .modifyGet fun w => World.Grown.addArray w us
  | .concat parts => .bind (exprs hc f parts) fun _ => .pure _
  | .add x y => .bind (expr hc f x) fun _ => .bind (expr hc f y) fun _ => .pure _
  | .mul x y => .bind (expr hc f x) fun _ => .bind (expr hc f y) fun _ => .pure _
  | .less x y => .bind (expr hc f x) fun _ => .bind (expr hc f y) fun _ => .pure _
  | .same x y => .bind (expr hc f x) fun _ => .bind (expr hc f y) fun _ => .pure _
  | .cond test yes no => .bind (expr hc f test) fun u => by
      cases hu : u.isTrue with
      | true => exact expr hc f yes
      | false => exact expr hc f no
  | .sort x => .bind (expr hc f x) fun _ => .pure _
  | .fail _ => .throw _
  | .tracking => .getEvaluation fun _ => .pure _
  | .registrations => .getEvaluation fun _ => .pure _
  | .argument _ => .pure _

theorem exprs (hc : ∀ p, (compute p).Spares b m) (f : Frame) :
    ∀ xs : List Expr, (Expr.evalAll compute f xs).Spares b m
  | [] => .pure _
  | x :: xs => .bind (expr hc f x) fun _ => .bind (exprs hc f xs) fun _ => .pure _

end

theorem computed (hc : ∀ p, (compute p).Spares b m) (p : Computed) :
    (p.eval compute).Spares b m := by
  have hbody : (Reading.ofAction (Action.tell (.computed p)) >>= fun _ =>
      p.body.eval compute { model := p.model }).Spares b m :=
    .bind (.tell _) fun _ => expr hc _ p.body
  refine .getWorld fun w => ?_
  cases w.modelAlive p.model with
  | true => exact hbody
  | false => exact .bind (.throw _) fun _ => hbody

end

theorem ofFuel (n : Nat) (p : Computed) : ((Engine.ofFuel n).compute p).Spares b m := by
  induction n generalizing p with
  | zero => exact fun _ _ _ _ _ _ _ h => nomatch h
  | succ n ih => exact computed ih p

end Spares

end Reading

end ViewBinding
