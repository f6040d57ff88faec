import ViewBinding.Proofs.Strata.Visits

/-! Those who wait for a property that is missing. Whoever adds a property that holds a value takes
them all, and defining a computed property leaves them where they are, so these are the only ones
who ever wait for a property that is there. -/

namespace ViewBinding

def Happening.IsDefinition : Happening → Prop
  | defined _ _ _ => True
  | _ => False

namespace World

variable {P : Step → Prop} {w w' : World} {hs past : List Happening}

/-- Those who are registered for when an object gets a property, in the order they came. -/
def waitingFor (w : World) (o : Ref .object) (key : String) : List Subscriber :=
  (w.registry (.waiting o key)).order

theorem waitingFor_eq (w : World) (o : Ref .object) (key : String) :
    w.waitingFor o key = (((w.objects.get o).waiting[key]?).getD {}).order := rfl

/-- What a change leaves of a property and of those who wait for it: both are as before, or the
property is still missing, or it has come and nobody waits any more. -/
inductive Expects (w w' : World) (o : Ref .object) (key : String) : Prop
  | same : w'.slot? o key = w.slot? o key → w'.waitingFor o key = w.waitingFor o key →
      Expects w w' o key
  | missing : w.slot? o key = none → w'.slot? o key = none → Expects w w' o key
  | came : w.slot? o key = none → w'.waitingFor o key = [] → Expects w w' o key

theorem Expects.trans {w'' : World} {o : Ref .object} {key : String} (h : w.Expects w' o key)
    (h' : w'.Expects w'' o key) : w.Expects w'' o key := by
  cases h' with
  | same hs ho =>
    cases h with
    | same hs' ho' => exact .same (hs.trans hs') (ho.trans ho')
    | missing hn hn' => exact .missing hn (hs.trans hn')
    | came hn he => exact .came hn (ho.trans he)
  | missing hn hn' =>
    cases h with
    | same hs _ => exact .missing (hs.symm.trans hn) hn'
    | missing hs _ => exact .missing hs hn'
    | came hs _ => exact .missing hs hn'
  | came hn he =>
    cases h with
    | same hs _ => exact .came (hs.symm.trans hn) he
    | missing hs _ => exact .came hs he
    | came hs _ => exact .came hs he

theorem Expects.of_objects (h : w'.objects = w.objects) (o : Ref .object) (key : String) :
    w.Expects w' o key := by
  refine .same ?_ ?_
  · rw [slot?, slot?, h]
  · rw [waitingFor_eq, waitingFor_eq, h]

theorem Grown.expects (h : w.Grown w') (o : Ref .object) (key : String) : w.Expects w' o key := by
  rcases Nat.lt_or_ge o.index w.objects.size with hlt | hle
  · refine .same ?_ ?_
    · rw [slot?, slot?, h.object o hlt]
    · rw [waitingFor_eq, waitingFor_eq, h.object o hlt]
  · refine .came (slot?_of_size_le hle key) ?_
    rw [waitingFor_eq, h.newWaiting o key hle]
    rfl

theorem Open.expects {source : Source} (h : w.Open source) (registry : Registry)
    (o : Ref .object) (key : String) : w.Expects (w.setRegistry source registry) o key := by
  have hslot := slot?_setRegistry (w := w) source registry o key
  rcases registry_setRegistry_cases (w := w) source (.waiting o key) registry with
    e | ⟨rfl, -, -⟩
  · exact .same hslot (congrArg Registry.order e)
  · exact .missing h (hslot.trans h)

theorem insert_expects {o : Ref .object} {key : String} (v : Value) (h : w.slot? o key = none)
    (o' : Ref .object) (key' : String) :
    w.Expects ((w.insertCell o key v).takeWaiting o key).2 o' key' := by
  have hslot : ((w.insertCell o key v).takeWaiting o key).2.slot? o' key' =
      (w.insertCell o key v).slot? o' key' :=
    World.slot?_modify_waiting _ o (fun object => object.waiting.erase key) o' key'
  have hcell := w.registry_insertCell o key v (.waiting o' key')
  rcases (w.insertCell o key v).registry_takeWaiting_cases o key (.waiting o' key') with
    e | ⟨e, hnone⟩
  · rcases w.slot?_insertCell_cases o key v o' key' with hs | ⟨rfl, rfl, hs⟩
    · exact .same (hslot.trans hs) (congrArg Registry.order (e.trans hcell))
    · -- The property that came is the one whose registry was taken.
      have hwithin : (Source.waiting o key).Within (w.insertCell o key v) := by
        by_contra hn
        rw [slot?_of_size_le (Nat.le_of_not_lt hn)] at hs
        cases hs
      refine .came h ?_
      have ht := Store.get_modify_self _
        (fun object : Object => { object with waiting := object.waiting.erase key }) hwithin
      rw [waitingFor_eq, takeWaiting, ht, Std.ExtTreeMap.getElem?_erase_self]
      rfl
  · cases e
    exact .came h (congrArg Registry.order hnone)

variable (P) in
/-- What a move does for those who wait: either it defines no computed property, or it defines one
and that is all it does. -/
inductive Tends (w : World) (hs : List Happening) (w' : World) : Prop
  | expects : (∀ x ∈ hs, ¬x.IsDefinition) → (∀ o key, w.Expects w' o key) → Tends w hs w'
  | defines (o : Ref .object) (p : Computed) : Definable P →
      hs = [.defined o p.name (w.waitingFor o p.name)] → w' = w.setComputed o p → Tends w hs w'

theorem Tends.of_objects (hn : ∀ x ∈ hs, ¬x.IsDefinition) (h : w'.objects = w.objects) :
    w.Tends P hs w' := .expects hn fun o key => .of_objects h o key

theorem Glance.expects (h : w.Glance hs w') (o : Ref .object) (key : String) :
    w.Expects w' o key := by
  cases h with
  | register _ ho => exact ho.expects _ o key
  | observe d => exact (observe_grown d w).1.expects o key
  | array => exact .same rfl rfl
  | computed => exact .same rfl rfl

theorem Glances.undefined (h : w.Glances hs w') : ∀ x ∈ hs, ¬x.IsDefinition := by
  intro x hx
  obtain ⟨p, rfl⟩ := Glances.computed h x hx
  exact id

theorem Glances.expects (h : w.Glances hs w') (o : Ref .object) (key : String) :
    w.Expects w' o key :=
  Along.relates (T := fun w w' => w.Expects w' o key) (fun _ _ _ hglance => hglance.expects o key)
    (fun _ => .same rfl rfl) (fun _ _ _ => .trans) h

theorem Makes.expects {watcher : Watcher} {n : Nat} {v : Value} (h : w.Makes watcher n hs v w') :
    (∀ x ∈ hs ++ [.made w.watchers.fresh v], ¬x.IsDefinition) ∧
      ∀ o key, w.Expects w' o key := by
  cases h with
  | intro h _ =>
    refine ⟨List.forall_mem_append.2 ⟨Glances.undefined h, List.forall_mem_singleton.2 id⟩,
      fun o key => ?_⟩
    have hadd : w.Expects (w.addWatcher watcher) o key := .same rfl rfl
    exact (hadd.trans (Glances.expects h o key)).trans (.same rfl rfl)

theorem startCallback_objects (w : World) (r : Ref .watcher) (m : Ref .model) (change : Change)
    (callback : Callback) : (w.startCallback r m change callback).objects = w.objects := by
  cases callback <;> rfl

theorem Callback.start_undefined (r : Ref .watcher) (m : Ref .model) (change : Change)
    (callback : Callback) : ∀ x ∈ callback.start r m change, ¬x.IsDefinition := by
  cases callback <;> simp [Callback.start, Happening.IsDefinition]

theorem Move.tends (h : w.Move P hs w') : w.Tends P hs w' := by
  have nothing : ∀ x ∈ ([] : List Happening), ¬x.IsDefinition := List.forall_mem_nil _
  cases h with
  | glance h => exact .expects (Glances.undefined (.single h)) h.expects
  | watch _ h =>
    exact .expects h.expects.1 fun o key => (h.expects.2 o key).trans (.same rfl rfl)
  | hold _ _ h =>
    exact .expects h.expects.1 fun o key => (h.expects.2 o key).trans (.same rfl rfl)
  | call => exact .of_objects (Callback.start_undefined _ _ _ _) (startCallback_objects ..)
  | insert v _ hn => exact .expects nothing (insert_expects v hn)
  | define o p hp => exact .defines o p hp rfl rfl
  | prune hs =>
    refine .expects nothing fun o key => .same (slot?_setRegistry ..) ?_
    exact congrArg Registry.order (registry_setRegistry_of_ne (hs o key) _)
  | method => exact .of_objects (List.forall_mem_singleton.2 id) rfl
  | write => exact .of_objects (List.forall_mem_singleton.2 id) rfl
  | listen => exact .of_objects (List.forall_mem_singleton.2 id) rfl
  | «show» => exact .of_objects (List.forall_mem_singleton.2 id) rfl
  | _ => exact .of_objects nothing rfl

/-- Who waits for a property that is there, by all that happened so far: those who waited when a
computed property was defined in its place. -/
structure Awaited (past : List Happening) (w : World) : Prop where
  /-- Nobody waited at the definition of a property that is not computed now. -/
  plain : ∀ o key left, (∀ p, w.slot? o key ≠ some (.computed p)) →
    .defined o key left ∈ past → left = []
  waiting : ∀ o key, w.slot? o key ≠ none → ∀ s, s ∈ w.waitingFor o key ↔
    ∃ left, .defined o key left ∈ past ∧ s ∈ left

theorem empty_awaited : Awaited [] {} where
  plain _ _ _ _ h := absurd h List.not_mem_nil
  waiting _ _ h := absurd (slot?_of_size_le (Nat.zero_le _) _) h

theorem Awaited.expects (h : Awaited past w) (hn : ∀ x ∈ hs, ¬x.IsDefinition)
    (he : ∀ o key, w.Expects w' o key) : Awaited (past ++ hs) w' := by
  have hpast (o : Ref .object) (key : String) (left : List Subscriber) :
      Happening.defined o key left ∈ past ++ hs ↔ .defined o key left ∈ past := by
    rw [List.mem_append]
    exact or_iff_left fun hx => hn _ hx trivial
  have hnone {o : Ref .object} {key : String} (hs : w.slot? o key = none) (left : List Subscriber)
      (hd : .defined o key left ∈ past) : left = [] :=
    h.plain o key left (fun p e => nomatch hs.symm.trans e) hd
  constructor
  · intro o key left hs hd
    rw [hpast] at hd
    cases he o key with
    | same hsame _ => exact h.plain o key left (fun p e => hs p (hsame.trans e)) hd
    | missing h _ => exact hnone h left hd
    | came h _ => exact hnone h left hd
  · intro o key hs s
    simp only [hpast]
    cases he o key with
    | same hsame ho =>
      rw [ho]
      exact h.waiting o key (fun e => hs (hsame.trans e)) s
    | missing _ h' => exact absurd h' hs
    | came h' ho =>
      rw [ho]
      refine iff_of_false List.not_mem_nil ?_
      rintro ⟨left, hd, hs⟩
      rw [hnone h' left hd] at hs
      exact List.not_mem_nil hs

theorem waitingFor_setSlot (w : World) (o o' : Ref .object) (key key' : String) (slot : Slot) :
    (w.setSlot o key slot).waitingFor o' key' = w.waitingFor o' key' := by
  rw [waitingFor_eq, waiting_setSlot, waitingFor_eq]

theorem waitingFor_of_size_le {o : Ref .object} (h : w.objects.size ≤ o.index) (key : String) :
    w.waitingFor o key = [] := by
  have hn : ¬(Source.waiting o key).Within w := Nat.not_lt.2 h
  unfold waitingFor
  rw [registry_of_not_within hn]

/-- A definition leaves behind exactly those who wait at that moment. -/
theorem Awaited.define (h : Awaited past w) (o : Ref .object) (p : Computed) :
    Awaited (past ++ [.defined o p.name (w.waitingFor o p.name)]) (w.setComputed o p) := by
  have hd (o' : Ref .object) (key : String) (left : List Subscriber) :
      Happening.defined o' key left ∈ past ++ [.defined o p.name (w.waitingFor o p.name)] ↔
        .defined o' key left ∈ past ∨
          o' = o ∧ key = p.name ∧ left = w.waitingFor o p.name := by
    rw [List.mem_append, List.mem_singleton, Happening.defined.injEq]
  have hother {o' : Ref .object} {key : String} (hs : ¬(o = o' ∧ p.name = key)) :
      (w.setComputed o p).slot? o' key = w.slot? o' key :=
    (w.slot?_setSlot_cases o o' p.name key (.computed p)).resolve_right
      fun ⟨ho, hk, _⟩ => hs ⟨ho, hk⟩
  have hself (hlt : o.index < w.objects.size) : (w.setComputed o p).slot? o p.name = some _ :=
    slot?_setSlot_self hlt p.name (.computed p)
  have hwaiting (o' : Ref .object) (key : String) :
      (w.setComputed o p).waitingFor o' key = w.waitingFor o' key :=
    waitingFor_setSlot w o o' p.name key (.computed p)
  constructor
  · intro o' key left hs hmem
    by_cases e : o = o' ∧ p.name = key
    · obtain ⟨rfl, rfl⟩ := e
      -- No property came about, so there is no such object.
      have hle : w.objects.size ≤ o.index := Nat.le_of_not_lt fun hlt => hs p (hself hlt)
      rcases (hd _ _ _).1 hmem with hmem | ⟨-, -, rfl⟩
      · refine h.plain o _ left (fun q hq => ?_) hmem
        rw [slot?_of_size_le hle] at hq
        cases hq
      · exact waitingFor_of_size_le hle _
    · rw [hother e] at hs
      rcases (hd _ _ _).1 hmem with hmem | ⟨rfl, rfl, -⟩
      · exact h.plain o' key left hs hmem
      · exact absurd ⟨rfl, rfl⟩ e
  · intro o' key hs s
    rw [hwaiting]
    by_cases e : o = o' ∧ p.name = key
    · obtain ⟨rfl, rfl⟩ := e
      constructor
      · intro hs
        exact ⟨_, (hd _ _ _).2 (.inr ⟨rfl, rfl, rfl⟩), hs⟩
      · rintro ⟨left, hmem, hleft⟩
        rcases (hd _ _ _).1 hmem with hmem | ⟨-, -, rfl⟩
        · by_cases hn : w.slot? o p.name = none
          · rw [h.plain o _ left (fun q hq => nomatch hn.symm.trans hq) hmem] at hleft
            exact absurd hleft List.not_mem_nil
          · exact (h.waiting o _ hn s).2 ⟨left, hmem, hleft⟩
        · exact hleft
    · rw [hother e] at hs
      rw [h.waiting o' key hs s]
      refine exists_congr fun left => and_congr_left fun _ => ?_
      rw [hd]
      exact (or_iff_left fun ⟨ho, hk, _⟩ => e ⟨ho.symm, hk.symm⟩).symm

theorem Tends.awaited (h : w.Tends P hs w') (hp : Awaited past w) : Awaited (past ++ hs) w' := by
  cases h with
  | expects hn he => exact hp.expects hn he
  | defines o p _ hs hw =>
    subst hs hw
    exact hp.define o p

/-- Whatever has happened so far, those who wait for a property that is there are those who were
left behind by a definition. -/
theorem Past.awaited (h : w.Past) : Awaited w.trace.toList w :=
  Along.keeps (fun _ _ _ _ h hp => h.tends.awaited hp) [] h empty_awaited

theorem Awaited.cell (h : Awaited past w) {o : Ref .object} {key : String} {c : Ref .cell}
    (hs : w.slot? o key = some (.cell c)) : w.waitingFor o key = [] := by
  rw [List.eq_nil_iff_forall_not_mem]
  intro s hm
  obtain ⟨left, hd, hleft⟩ := (h.waiting o key (by simp [hs]) s).1 hm
  rw [h.plain o key left (fun p hp => nomatch hs.symm.trans hp) hd] at hleft
  exact List.not_mem_nil hleft

theorem Course.undefined (hP : ¬Definable P) (h : w.Course P hs w') :
    ∀ x ∈ hs, ¬x.IsDefinition := by
  induction h with
  | nil => exact List.forall_mem_nil _
  | snoc _ h ih =>
    cases h.tends with
    | expects hn _ => exact List.forall_mem_append.2 ⟨ih, hn⟩
    | defines _ _ hp => exact absurd hp hP

/-- If no step of a run defines computed properties, nobody waits for a property that is there. -/
theorem waitingFor_eq_nil {trees : List Markup} {steps : List Step} {w₀ : World}
    {x : Deed × World} (h₀ : World.ofTrees trees = some w₀)
    (hs : Step.EveryAll (fun s => ¬s.Defines) steps) (hx : Deed.Reaches (.session steps, w₀) x)
    {o : Ref .object} {key : String} (hslot : (Deed.outset x).slot? o key ≠ none) :
    (Deed.outset x).waitingFor o key = [] := by
  obtain ⟨-, hw₀, hnone⟩ := ofTrees_course (P := fun s => ¬s.Defines) h₀
  have hready : Deed.Ready (fun s => ¬s.Defines) (.session steps, w₀) := ⟨hw₀, hs⟩
  obtain ⟨hs, hc⟩ := (hx.encloses (fun _ _ _ _ => id) hready).before
  have htrace : (Deed.outset x).trace.toList = hs := by
    have ht := Course.trace hc
    have hempty : (Deed.outset (.session steps, w₀)).trace = #[] := hnone
    rwa [hempty] at ht
  rw [List.eq_nil_iff_forall_not_mem]
  intro s hm
  obtain ⟨left, hd, -⟩ := ((hx.past h₀).awaited.waiting o key hslot s).1 hm
  rw [htrace] at hd
  exact Course.undefined (fun ⟨s, hs, hd⟩ => hs hd) hc _ hd trivial

/-- At every moment of a run nobody waits for a property that holds a value, and those who wait for
a property that is computed are those who waited for it when a view-model defined it: that
definition left them behind, and they still wait. Runs whose steps define no computed properties
leave nobody behind. -/
theorem waiting_iff_defined {trees : List Markup} {steps : List Step} {w₀ : World}
    {x : Deed × World} (h₀ : World.ofTrees trees = some w₀)
    (hx : Deed.Reaches (.session steps, w₀) x) {o : Ref .object} {key : String} {slot : Slot}
    (hslot : (Deed.outset x).slot? o key = some slot) :
    (∀ s, s ∈ (Deed.outset x).waitingFor o key ↔
        ∃ left, .defined o key left ∈ (Deed.outset x).trace.toList ∧ s ∈ left) ∧
      (∀ c, slot = .cell c → (Deed.outset x).waitingFor o key = []) ∧
      (Step.EveryAll (fun s => ¬s.Defines) steps → (Deed.outset x).waitingFor o key = []) := by
  have hne : (Deed.outset x).slot? o key ≠ none := by simp [hslot]
  have ha := (hx.past h₀).awaited
  refine ⟨ha.waiting o key hne, ?_, fun hs => waitingFor_eq_nil h₀ hs hx hne⟩
  rintro c rfl
  exact ha.cell hslot

/-- A view-model defines a computed property on data that somebody else reads it from already. -/
def forsaken : List Step :=
  [.build (some "a") (some (.data (.object []))) [] [],
    .watcher (some "a") "u" "c" [],
    .build (some "b") (some (.root "a")) [("c", .data (.string "1"))] []]

/-- The watcher still waits for a property that is there, and has not seen it. -/
theorem forsaken_waits : ∃ (w₀ w : World) (outcomes : List Outcome),
    World.ofTrees [] = some w₀ ∧ w₀.steps (Engine.ofFuel 4) forsaken = some (outcomes, w) ∧
      w.slot? ⟨0⟩ "c" ≠ none ∧ w.alive (.watcher ⟨0⟩) ∧
      .watcher ⟨0⟩ ∈ w.waitingFor ⟨0⟩ "c" := by
  have hrun : ((World.ofTrees []).bind fun w => (w.steps (Engine.ofFuel 4) forsaken).map fun p =>
      (p.2.slot? ⟨0⟩ "c").isSome && (p.2.alive (.watcher ⟨0⟩) &&
        (p.2.waitingFor ⟨0⟩ "c").contains (.watcher ⟨0⟩))) = some true := by
    decide +kernel
  obtain ⟨w₀, h₀, h⟩ := Option.bind_eq_some_iff.1 hrun
  obtain ⟨⟨outcomes, w⟩, hw, hc⟩ := Option.map_eq_some_iff.1 h
  simp only [Bool.and_eq_true, List.contains_iff_mem] at hc
  obtain ⟨hslot, ha, hm⟩ := hc
  exact ⟨w₀, w, outcomes, h₀, hw, Option.isSome_iff_ne_none.1 hslot, ha, hm⟩

theorem waiting_iff_defined_forsaken : ∃ (w₀ w : World) (outcomes : List Outcome)
    (left : List Subscriber), World.ofTrees [] = some w₀ ∧
      w₀.steps (Engine.ofFuel 4) forsaken = some (outcomes, w) ∧
      Deed.Reaches (.session forsaken, w₀) (.session [], w) ∧
      .watcher ⟨0⟩ ∈ w.waitingFor ⟨0⟩ "c" ∧
      .defined ⟨0⟩ "c" left ∈ w.trace.toList ∧ .watcher ⟨0⟩ ∈ left := by
  have hrun : ((World.ofTrees []).bind fun w => (w.steps (Engine.ofFuel 4) forsaken).map fun p =>
      (p.2.slot? ⟨0⟩ "c").isSome && (p.2.waitingFor ⟨0⟩ "c").contains (.watcher ⟨0⟩)) =
        some true := by
    decide +kernel
  obtain ⟨w₀, h₀, h⟩ := Option.bind_eq_some_iff.1 hrun
  obtain ⟨⟨outcomes, w⟩, hw, hc⟩ := Option.map_eq_some_iff.1 h
  simp only [Bool.and_eq_true, List.contains_iff_mem, Option.isSome_iff_exists] at hc
  obtain ⟨⟨slot, hslot⟩, hm⟩ := hc
  have hend := Deed.reaches_end hw
  obtain ⟨hiff, -⟩ := waiting_iff_defined h₀ hend hslot
  obtain ⟨left, hd, hleft⟩ := (hiff (.watcher ⟨0⟩)).1 hm
  exact ⟨w₀, w, outcomes, left, h₀, hw, hend, hm, hd, hleft⟩

end World

end ViewBinding
