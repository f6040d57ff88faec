import ViewBinding.Proofs.Strata.Rise

/-! Surveys of all that a deed leads to. An engine with which a deed comes to an end shows whatever
the deed leads to with any engine, so a search that ends is complete. -/

namespace ViewBinding

variable {α β γ : Type} {w w' : World} {n k : Nat} {f : Frame}

namespace Action

def Grows (x : Engine → Action α) : Prop := ∀ e e', e.Below e' → (x e).Below (x e')

theorem Grows.agree {x : Engine → Action α} (hx : Grows x) {p q : Except Fault α × World}
    (hp : x (.ofFuel n) w = some p) (hq : x (.ofFuel k) w = some q) : p = q := by
  have hp' := hx _ _ (Engine.ofFuel_below (Nat.le_max_left n k)) w p hp
  have hq' := hx _ _ (Engine.ofFuel_below (Nat.le_max_right n k)) w q hq
  exact Option.some.inj (hp'.symm.trans hq')

theorem Grows.after {x : Engine → Action α} (hx : Grows x) (hn : (x (.ofFuel n) w).isSome)
    {next next' : α → World → List β} {y : β}
    (hy : ∀ a w', x (.ofFuel n) w = some (.ok a, w') → y ∈ next a w' → y ∈ next' a w')
    (h : y ∈ (x (.ofFuel k)).after w next) : y ∈ (x (.ofFuel n)).after w next' := by
  obtain ⟨p, hp⟩ := Option.isSome_iff_exists.1 hn
  cases hk : x (.ofFuel k) w with
  | none =>
    rw [Action.after, hk] at h
    exact absurd h List.not_mem_nil
  | some q =>
    obtain rfl := hx.agree hp hk
    obtain ⟨r, w'⟩ := p
    rw [Action.after, hk] at h
    rw [Action.after, hp]
    cases r with
    | error g => exact absurd h List.not_mem_nil
    | ok a => exact hy a w' hp h

theorem mem_elim {x : Engine → Option γ} {g : γ → List β} {y : β}
    (hx : ∀ e e', e.Below e' → ∀ p, x e = some p → x e' = some p)
    (hn : (x (.ofFuel n)).isSome) (h : y ∈ (x (.ofFuel k)).elim [] g) :
    y ∈ (x (.ofFuel n)).elim [] g := by
  obtain ⟨p, hp⟩ := Option.isSome_iff_exists.1 hn
  cases hk : x (.ofFuel k) with
  | none =>
    rw [hk] at h
    exact absurd h List.not_mem_nil
  | some q =>
    have hp' := hx _ _ (Engine.ofFuel_below (Nat.le_max_left n k)) p hp
    have hq' := hx _ _ (Engine.ofFuel_below (Nat.le_max_right n k)) q hk
    obtain rfl : p = q := Option.some.inj (hp'.symm.trans hq')
    rwa [hp, ← hk]

theorem isSome_of_bind {x : Action α} {g : α → Action β} (h : ((x >>= g) w).isSome) :
    (x w).isSome := by
  rw [bind_apply] at h
  cases hx : x w with
  | none => rw [hx] at h; cases h
  | some p => rfl

theorem isSome_bind {x : Action α} {g : α → Action β} {a : α} (hx : x w = some (.ok a, w'))
    (h : ((x >>= g) w).isSome) : (g a w').isSome := by
  rw [bind_apply, hx] at h
  exact h

end Action

namespace Script

theorem isSome_withModel {name : Option String} {x : Ref .model → Action α} {m : Ref .model}
    (hm : f.findModel w name = .ok m) (h : (withModel f name x w).isSome) :
    (x m (w.useModel m)).isSome := by
  have h' : (Action.usingModel m (x m) w).isSome := by
    rw [withModel, Action.get_bind, hm] at h
    exact h
  rw [Action.usingModel_apply] at h'
  cases hx : x m (w.useModel m) with
  | none => rw [hx] at h'; cases h'
  | some p => rfl

theorem inModel_sub {name : Option String} {next next' : Ref .model → World → List β} {y : β}
    (hy : ∀ m, f.findModel w name = .ok m → y ∈ next m (w.useModel m) →
      y ∈ next' m (w.useModel m))
    (h : y ∈ inModel f name w next) : y ∈ inModel f name w next' := by
  unfold inModel at h ⊢
  split at h
  · exact hy _ ‹_› h
  · exact absurd h List.not_mem_nil

theorem value_grows (x : Expr) : Action.Grows fun e => value e f x :=
  fun _ _ he => Action.Below.value he f x

theorem inObject_sub {place : Place} {x : Ref .object → Action α}
    {next next' : Ref .object → World → List β} {y : β}
    (hn : (withObject (.ofFuel n) f place x w).isSome)
    (hy : ∀ o w', (x o w').isSome → y ∈ next o w' → y ∈ next' o w')
    (h : y ∈ inObject (.ofFuel k) f place w next) :
    y ∈ inObject (.ofFuel n) f place w next' := by
  cases place with
  | of expr =>
    refine (value_grows expr).after (Action.isSome_of_bind hn) (fun v w' hv h => ?_) h
    have hx := Action.isSome_bind hv hn
    cases ho : v.object? with
    | none =>
      rw [ho] at h
      exact absurd h List.not_mem_nil
    | some o =>
      rw [ho] at h hx
      exact hy o w' hx h
  | root name =>
    exact inModel_sub (fun m hm h => hy _ _ (isSome_withModel hm hn) h) h

end Script

/-- What a step leads to with any engine it leads to with one with which it comes to an end. -/
theorem Step.parts_sub {s : Step} {y : Deed × World} (hn : (s.run (.ofFuel n) f w).isSome)
    (h : y ∈ s.parts (.ofFuel k) f w) : y ∈ s.parts (.ofFuel n) f w := by
  cases s with
  | write name path x =>
    simp only [parts] at h ⊢
    refine Script.inModel_sub (fun m hm h => ?_) h
    exact (Script.value_grows x).after (Action.isSome_of_bind (Script.isSome_withModel hm hn))
      (fun _ _ _ h => h) h
  | setProperty place key x =>
    simp only [parts] at h ⊢
    refine Script.inObject_sub hn (fun o w' hx h => ?_) h
    exact (Script.value_grows x).after (Action.isSome_of_bind hx) (fun _ _ _ h => h) h
  | assign place path x =>
    simp only [parts] at h ⊢
    refine Script.inObject_sub hn (fun o w' hx h => ?_) h
    cases hp : Path.parse path with
    | error g =>
      rw [hp] at h
      exact absurd h List.not_mem_nil
    | ok p =>
      rw [hp] at h hx
      exact (Script.value_grows x).after (Action.isSome_of_bind hx) (fun _ _ _ h => h) h
  | setCell id x =>
    cases hc : w.names.cells[id]? with
    | none =>
      simp only [parts, hc] at h
      exact absurd h List.not_mem_nil
    | some c =>
      have hf : Script.findCell id w = some (.ok c, w) := by
        rw [Script.findCell, Action.get_bind, hc]
        rfl
      rw [run, Script.setCell, Action.bind_apply, hf] at hn
      simp only [parts, hc] at h ⊢
      exact (Script.value_grows x).after (Action.isSome_of_bind hn) (fun _ _ _ h => h) h
  | cond test yes no =>
    exact (Script.value_grows test).after (Action.isSome_of_bind hn) (fun _ _ _ h => h) h
  | loop times steps =>
    cases times with
    | zero => exact absurd h List.not_mem_nil
    | succ times =>
      obtain rfl | h := List.mem_cons.1 h
      · exact List.mem_cons_self
      · have hr : (Step.runAll (.ofFuel n) f steps w).isSome :=
          Action.isSome_of_bind (Action.isSome_of_bind hn)
        have hg : Action.Grows fun e => Step.runAll e f steps :=
          fun _ _ he => Step.runAll_below he f steps
        exact List.mem_cons_of_mem _ (hg.after hr (fun _ _ _ h => h) h)
  | _ => exact h

namespace Deed

theorem parts_sub {d : Deed} {y : Deed × World} (hn : (d.act (.ofFuel n) w).isSome)
    (h : y ∈ d.parts (.ofFuel k) w) : y ∈ d.parts (.ofFuel n) w := by
  cases d with
  | session steps =>
    cases steps with
    | nil => exact h
    | cons s rest =>
      obtain rfl | h := List.mem_cons.1 h
      · exact List.mem_cons_self
      · refine List.mem_cons_of_mem _ ?_
        have hg (e e' : Engine) (he : e.Below e') (p : Outcome × World) (hp : w.step e s = some p) :
            w.step e' s = some p := by
          rw [World.step_apply, Option.map_eq_some_iff] at hp ⊢
          obtain ⟨q, hq, rfl⟩ := hp
          exact ⟨q, Step.run_below he {} s _ q hq, rfl⟩
        refine Action.mem_elim hg ?_ h
        have hn' : ((w.steps (.ofFuel n) (s :: rest)).map _).isSome := hn
        rw [World.steps_cons] at hn'
        cases hs : w.step (.ofFuel n) s with
        | none => rw [hs] at hn'; cases hn'
        | some p => rfl
  | script f steps =>
    cases steps with
    | nil => exact h
    | cons s rest =>
      obtain rfl | h := List.mem_cons.1 h
      · exact List.mem_cons_self
      · have hg : Action.Grows fun e => s.run e f := fun _ _ he => Step.run_below he f s
        exact List.mem_cons_of_mem _
          (hg.after (Action.isSome_of_bind hn) (fun _ _ _ h => h) h)
  | step f s => exact Step.parts_sub hn h
  | listen event listeners =>
    cases listeners with
    | nil => exact h
    | cons l rest =>
      obtain rfl | h := List.mem_cons.1 h
      · exact List.mem_cons_self
      · have hg : Action.Grows fun e => l.response.perform e event :=
          fun _ _ he => Action.Below.respond he event l.response
        exact List.mem_cons_of_mem _
          (hg.after (Action.isSome_of_bind hn) (fun _ _ _ h => h) h)
  | assign p root v =>
    have hg : Action.Grows fun e => (p.follow e.compute p.parents (.object root)).once :=
      fun _ _ he => (Reading.Below.follow he.compute p _ _).once
    exact hg.after (Action.isSome_of_bind hn) (fun _ _ _ h => h) h
  | turns ss =>
    cases ss with
    | nil => exact h
    | cons s rest =>
      obtain rfl | h := List.mem_cons.1 h
      · exact List.mem_cons_self
      · refine List.mem_cons_of_mem _ ?_
        refine Action.mem_elim (fun e e' he => Action.Below.update he s w) ?_ h
        have hn' : (updateEach (Subscriber.update (.ofFuel n)) (s :: rest) w).isSome := hn
        rw [updateEach_cons] at hn'
        cases hs : s.update (.ofFuel n) w with
        | none => rw [hs] at hn'; cases hn'
        | some p => rfl
  | turn s =>
    cases s with
    | reaction r => exact h
    | watcher r =>
      simp only [parts, Watcher.starts] at h ⊢
      by_cases hm : w.modelAlive (w.watchers.get r).model
      · have hn' : (Watcher.update (.ofFuel n) r w).isSome := hn
        rw [Watcher.update_apply] at hn'
        simp only [hm, if_true] at hn' h ⊢
        have hg : Action.Grows fun e => Watcher.evaluate e.compute r :=
          fun _ _ he => Action.Below.evaluateWatcher he.compute r
        cases he : Watcher.evaluate (Engine.ofFuel n).compute r
            (w.useModel (w.watchers.get r).model) with
        | none => rw [he] at hn'; cases hn'
        | some p =>
          cases hk : Watcher.evaluate (Engine.ofFuel k).compute r
              (w.useModel (w.watchers.get r).model) with
          | none => rw [hk] at h; exact absurd h List.not_mem_nil
          | some q =>
            obtain rfl := hg.agree he hk
            rwa [hk] at h
      · simp only [hm] at h
        exact absurd h List.not_mem_nil
  | respond event response => cases response <;> exact h
  | perform r m change callback => cases callback <;> exact h
  | _ => exact h

/-- Whether a condition holds of all that `next` leads to, all of which is less than `depth` steps
away. -/
def survey (next : Deed × World → List (Deed × World)) (check : Deed × World → Bool) :
    Nat → Deed × World → Bool
  | 0, _ => false
  | depth + 1, x => check x && (next x).all (survey next check depth)

section Survey

variable {next : Deed × World → List (Deed × World)} {check : Deed × World → Bool}
  {R : Deed × World → Deed × World → Prop} {x y : Deed × World} {depth : Nat}
  (hR : ∀ x y, check x → R x y → y ∈ next x)
include hR

theorem survey_next (h : survey next check depth x) (hy : R x y) :
    check x ∧ ∃ d, depth = d + 1 ∧ survey next check d y := by
  cases depth with
  | zero => cases h
  | succ d =>
    simp only [survey, Bool.and_eq_true, List.all_eq_true] at h
    exact ⟨h.1, d, rfl, h.2 y (hR x y h.1 hy)⟩

/-- What a survey shows holds of all that there is. -/
theorem check_of_survey (h : survey next check depth x) (hy : Relation.ReflTransGen R x y) :
    check y := by
  have hs : ∃ d, survey next check d y := by
    induction hy with
    | refl => exact ⟨depth, h⟩
    | tail _ hyz ih =>
      obtain ⟨d, hd⟩ := ih
      obtain ⟨-, d', -, hd'⟩ := survey_next hR hd hyz
      exact ⟨d', hd'⟩
  obtain ⟨d, hd⟩ := hs
  cases d with
  | zero => cases hd
  | succ d =>
    simp only [survey, Bool.and_eq_true] at hd
    exact hd.1

theorem acc_of_survey (h : survey next check depth x) : Acc (fun y x => R x y) x := by
  induction depth generalizing x with
  | zero => cases h
  | succ d ih =>
    refine ⟨x, fun y hy => ?_⟩
    obtain ⟨-, d', he, hd'⟩ := survey_next hR h hy
    obtain rfl := Nat.succ.inj he
    exact ih hd'

end Survey

def starts (n : Nat) (x : Deed × World) : List (Deed × World) := x.1.parts (.ofFuel n) x.2

def ends (n : Nat) (x : Deed × World) : Bool := (x.1.act (.ofFuel n) x.2).isSome

theorem mem_starts {x y : Deed × World} (hx : ends n x) (h : Own x y) : y ∈ starts n x := by
  obtain ⟨k, hk⟩ := h
  exact parts_sub hx hk

theorem mem_leads {x y : Deed × World} (hx : ends n x) (h : Leads x y) :
    y ∈ starts n x ++ x.1.fanOut x.2 := by
  obtain h | h := h
  · exact List.mem_append_left _ (mem_starts hx h)
  · exact List.mem_append_right _ h

end Deed

namespace World

mutual

theorem computed_of_observe {o : Ref .object} {key : String} {p : Computed} :
    ∀ (d : Document) (w : World), (observe d w).2.slot? o key = some (.computed p) →
      w.slot? o key = some (.computed p)
  | .null, _, h => h
  | .bool _, _, h => h
  | .number _, _, h => h
  | .string _, _, h => h
  | .array items, w, h => computed_of_observeItems items w h
  | .object fields, w, h => by
    obtain ⟨hf, hc⟩ := computed_of_observeFields fields ∅ w
    simp only [observe, addObject, slot?, Store.get, Store.get?_add] at h
    split at h
    · exact absurd h (hc (fun key p h => by simp at h) key p)
    · exact hf h

theorem computed_of_observeItems {o : Ref .object} {key : String} {p : Computed} :
    ∀ (ds : List Document) (w : World), (observeItems ds w).2.slot? o key = some (.computed p) →
      w.slot? o key = some (.computed p)
  | [], _, h => h
  | d :: ds, w, h => computed_of_observe d w (computed_of_observeItems ds _ h)

theorem computed_of_observeFields {o : Ref .object} {key : String} {p : Computed} :
    ∀ (fields : List (String × Document)) (slots : Keyed Slot) (w : World),
      ((observeFields fields slots w).2.slot? o key = some (.computed p) →
        w.slot? o key = some (.computed p)) ∧
      ((∀ (key : String) p, slots[key]? ≠ some (.computed p)) →
        ∀ (key : String) p, (observeFields fields slots w).1[key]? ≠ some (.computed p))
  | [], _, _ => ⟨id, id⟩
  | (name, d) :: fields, slots, w => by
    obtain ⟨hf, hc⟩ := computed_of_observeFields fields
      (slots.insert name (.cell (observe d w).2.cells.fresh))
      ((observe d w).2.addCell (observe d w).1).2
    refine ⟨fun h => computed_of_observe d w (hf h), fun hs => hc fun key p h => ?_⟩
    rw [Std.ExtTreeMap.getElem?_insert] at h
    split at h
    · cases h
    · exact hs key p h

end

theorem Touches.computed {o : Ref .object} {key : String} {p : Computed}
    (h : Relation.ReflTransGen Touches w w') (hp : w'.slot? o key = some (.computed p)) :
    w.slot? o key = some (.computed p) := by
  induction h with
  | refl => exact hp
  | @tail w₁ _ _ ht ih =>
    refine ih ?_
    cases ht with
    | use m => exact hp
    | tell x => exact hp
    | glance hg =>
      cases hg with
      | @register source _ registry ha ho =>
        have hs : (w₁.setRegistry source registry).sight.slot? o key = w₁.sight.slot? o key := by
          rw [sight_setRegistry]
        exact hs.symm.trans hp
      | observe d => exact computed_of_observe d _ hp
      | array items => exact hp
      | computed hm => exact hp

theorem total_of_anywhere (h : ∀ o key p, w.slot? o key = some (.computed p) →
    ∀ w', ∃ n, ∀ e, ((Engine.ofFuel n).compute p e w').isSome) : w.Total :=
  fun w' ht o key p hp => h o key p (Touches.computed ht hp) w'

def Fixed (w : World) : Bool :=
  w.objects.entries.all fun object => object.slots.toList.all fun (_, slot) =>
    match slot with
    | .cell _ => true
    | .computed p => match p.body with
      | .data (.string _) => true
      | _ => false

theorem total_of_fixed (h : w.Fixed) : w.Total := by
  refine total_of_anywhere fun o key p hp w' => ⟨1, fun e => ?_⟩
  obtain ⟨text, ht⟩ : ∃ text, p.body = .data (.string text) := by
    have hm : (key, Slot.computed p) ∈ (w.objects.get o).slots.toList :=
      Std.ExtTreeMap.mem_toList_iff_getElem?_eq_some.2 hp
    rw [Fixed, Array.all_eq_true'] at h
    have hlt : o.index < w.objects.entries.size := by
      by_contra hn
      have he : (default : Object).slots = ∅ := rfl
      simp [slot?, w.objects.get_of_size_le (Nat.le_of_not_lt hn), he] at hp
    have ho : w.objects.get o ∈ w.objects.entries := by
      have hg : w.objects.get o = w.objects.entries[o.index] := by
        simp [Store.get, Store.get?, hlt]
      rw [hg]
      exact Array.getElem_mem hlt
    have hs := List.all_eq_true.1 (h _ ho) _ hm
    dsimp only at hs
    split at hs
    · exact ⟨_, ‹_›⟩
    · cases hs
  show (Computed.eval _ p e w').isSome
  rw [Computed.eval, Reading.getWorld_bind, ht]
  cases w'.modelAlive p.model <;> rfl

end World

namespace Deed

/-- A watcher writes to a key that another one waits for, and fails then, as the other does. -/
def cascade : List Step :=
  [.build none (some (.data (.object [("a", .string "0")]))) [("c", .data (.string "-"))] [],
    .watcher none "u" "a" [.write none "b" (.get none "a"), .fail "late"],
    .watcher none "x" "b" [.fail "never"]]

def upper : List Source := [.waiting ⟨0⟩ "b", .cell ⟨1⟩]

def writesUp (s : Subscriber) (x : Deed × World) : Bool :=
  ends 4 x && x.1.target?.all fun target => s == .watcher ⟨0⟩ && upper.contains target

def inOrder (x : Deed × World) : Bool :=
  ends 4 x && x.2.Fixed &&
    upper.all (fun source => !(x.2.registry source).order.contains (.watcher ⟨0⟩)) &&
    match x.1 with
    | .step _ (.write _ _ _) => true
    | .step _ (.fail _) => true
    | .step _ _ => false
    | .turn s => survey (starts 4) (writesUp s) 20 x
    | _ => true

theorem stratified_of_survey {start : Deed × World}
    (h : survey (fun x => starts 4 x ++ x.1.fanOut x.2) inOrder 30 start) :
    Stratified (fun source => if source ∈ upper then 1 else 0) 1 start := by
  have hall (x : Deed × World) (hx : Reaches start x) : inOrder x := by
    refine check_of_survey (fun x y hc hy => mem_leads ?_ hy) h hx
    simp only [inOrder, Bool.and_eq_true] at hc
    exact hc.1.1.1
  have hown (s : Subscriber) (w : World) (hx : Reaches start (.turn s, w)) :
      survey (starts 4) (writesUp s) 20 (.turn s, w) := by
    have hc := hall _ hx
    simp only [inOrder, Bool.and_eq_true] at hc
    exact hc.2
  have hup (s : Subscriber) (x y : Deed × World) (hc : writesUp s x) (hy : Own x y) :
      y ∈ starts 4 x := by
    simp only [writesUp, Bool.and_eq_true] at hc
    exact mem_starts hc.1 hy
  have hstep (s : Subscriber) (f : Frame) (step : Step) (w : World)
      (hx : DoneBy start s (.step f step, w)) : step.Modest ∧ ¬step.Shows := by
    have hc := hall _ hx.reaches
    simp only [inOrder, Bool.and_eq_true] at hc
    cases step <;> first | exact ⟨trivial, id⟩ | cases hc.2
  refine ⟨fun source => ?_, fun x hx => ?_, fun s w hx => acc_of_survey (hup s) (hown s w hx),
    fun s f step w hx => (hstep s f step w hx).1,
    fun s f step w hx hs => absurd hs (hstep s f step w hx).2, ?_⟩
  · split <;> omega
  · have hc := hall x hx
    simp only [inOrder, Bool.and_eq_true] at hc
    exact World.total_of_fixed hc.1.1.2
  · rintro s d w source target ⟨w₀, hw₀, hd⟩ ht ⟨x, hx, hs⟩
    have hc := check_of_survey (hup s) (hown s w₀ hw₀) hd
    simp only [writesUp, Bool.and_eq_true, ht, Option.all_some, beq_iff_eq,
      List.contains_iff_mem] at hc
    obtain ⟨-, rfl, htarget⟩ := hc
    -- The first watcher is the only one to write up, and no upper source has it in its registry.
    have hsource : source ∉ upper := by
      intro hu
      have hj := hall x hx
      simp only [inOrder, Bool.and_eq_true, List.all_eq_true] at hj
      have hn := hj.1.2 source hu
      simp only [Bool.not_eq_true', List.contains_eq_mem, decide_eq_false_iff_not] at hn
      exact hn hs
    simp only [if_neg hsource, if_pos htarget]
    exact Nat.zero_lt_one

/-- Setting what the first watcher watches, which writes once more on the way. -/
theorem Stratified.writes_return_cascade : ∃ (w₀ w : World) (outcomes : List Outcome),
    World.ofTrees [] = some w₀ ∧ w₀.steps (Engine.ofFuel 4) cascade = some (outcomes, w) ∧
      Stratified (fun source => if source ∈ upper then 1 else 0) 1
        (.set ⟨0⟩ "a" (.string "1"), w) ∧
      Action.Returns (fun e => ViewModel.write e.compute (Subscriber.update e) ⟨0⟩ "a"
        (.string "1")) w := by
  have hrun : ((World.ofTrees []).bind fun w => (w.steps (Engine.ofFuel 4) cascade).map fun p =>
      survey (fun x => starts 4 x ++ x.1.fanOut x.2) inOrder 30
        (.set ⟨0⟩ "a" (.string "1"), p.2)) = some true := by
    decide +kernel
  obtain ⟨w₀, h₀, h⟩ := Option.bind_eq_some_iff.1 hrun
  obtain ⟨⟨outcomes, w⟩, hw, hs⟩ := Option.map_eq_some_iff.1 h
  have hstrata := stratified_of_survey hs
  exact ⟨w₀, w, outcomes, h₀, hw, hstrata, hstrata.writes_return.1 _ _ _ .refl⟩

end Deed

end ViewBinding
