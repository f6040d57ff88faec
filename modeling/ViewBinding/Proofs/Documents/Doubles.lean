import ViewBinding.Proofs.Documents.Sets

/-! Runs of a view-model that only its own writes change. At every moment the data reads, exports
and answers writes as a plain document does in which the same was set. -/

namespace ViewBinding.World

variable {P : Step → Prop} {w w' : World} {m : Ref .model} {d : Document}

/-- A run in which nothing is written but new data at paths of one view-model, with a plain document
beside it: at first what the view-model is made from, and then whatever is set is set there too. -/
inductive Doubles (P : Step → Prop) (m : Ref .model) : World → Document → Prop
  | create {w w' : World} {fields : List (String × Document)}
      {methods : List (String × List Step)} :
      w.Stored P → (Callable P → Step.EveryMethod P methods) →
      ViewModel.create { data := (observe (.object fields) w).1, methods }
        (observe (.object fields) w).2 = some (.ok m, w') →
      Doubles P m w' (.object fields)
  | mount {w w' : World} {n : Nat} {fields : List (String × Document)}
      {methods : List (String × List Step)} {point : MountPoint} {settings : Settings}
      {name : Option String} :
      w.Stored P → (Callable P → Step.EveryMethod P methods) →
      ViewModel.mount (Engine.ofFuel n).compute point
        { data := (observe (.object fields) w).1, methods } settings (Script.nameModel name)
        (observe (.object fields) w).2 = some (.ok m, w') →
      Doubles P m w' (.object fields)
  | name {w w' : World} {d : Document} {name : Option String} {res : Except Fault Unit} :
      Doubles P m w d → Script.nameModel name m w = some (res, w') → Doubles P m w' d
  | set {w w' : World} {d new : Document} {n : Nat} {path : String} {res : Except Fault Bool} :
      Doubles P m w d →
      ViewModel.write (Engine.ofFuel n).compute (Subscriber.update (Engine.ofFuel n)) m path
        (observe new w).1 (observe new w).2 = some (res, w') →
      Doubles P m w' (d.written path new)
  | step {w w' : World} {d : Document} {n : Nat} {s : Step} {res : Except Fault Answer} :
      Doubles P m w d → s.Every P → s.run (Engine.ofFuel n) {} w = some (res, w') →
      Doubles P m w' d

/-- Whether a write of new data answers as setting it in a plain document does. If it goes on for
too long then so does the update of somebody, at some moment of that write. -/
def Answers (n : Nat) (m : Ref .model) (path : String) (new : Document) (w : World) :
    Except Fault (Option Document) → Prop :=
  let w₁ := (observe new w).2
  let outcome := ViewModel.write (Engine.ofFuel n).compute (Subscriber.update (Engine.ofFuel n)) m
    path (observe new w).1 w₁
  fun
  | .error f => outcome = some (.error f, w₁)
  | .ok none => outcome = some (.ok false, w₁)
  | .ok (some _) => (∀ res w', outcome = some (res, w') → res = .ok true) ∧
      (outcome = none → ∃ s hs w', w₁.alive s ∧ w₁.Course (fun _ => True) hs w' ∧
        Subscriber.update (Engine.ofFuel n) s w' = none)

def addModel (w : World) (model : ViewModel) : World := { w with models := w.models.add model }

theorem observe_object (fields : List (String × Document)) (w : World) :
    (observe (.object fields) w).1 = .object (observeFields fields ∅ w).2.objects.fresh := rfl

theorem backs_addModel (fields : List (String × Document)) (w : World) {model : ViewModel}
    (ho : (observe (.object fields) w).1 = .object model.data) :
    ((observe (.object fields) w).2.addModel model).Backs
      (observe (.object fields) w).2.models.fresh (.object fields) := by
  have hget := (observe (.object fields) w).2.models.get_add model
    (observe (.object fields) w).2.models.fresh
  rw [if_pos rfl] at hget
  refine ⟨?_, Location.fresh w (observe (.object fields) w).2, fun l hl => ?_, ?_⟩
  · unfold addModel
    rw [Store.size_add]
    exact Nat.lt_succ_self _
  · cases l <;> exact hl.2
  · have hholds := observe_holds (.object fields) w
    rw [ho] at hholds
    unfold addModel
    rw [hget]
    exact hholds.frame (.of_eq rfl rfl (Nat.le_refl _))

theorem Backs.useModel (h : w.Backs m d) (m' : Ref .model) : (w.useModel m').Backs m d := by
  obtain ⟨hm, S, hS, hholds⟩ := h
  have hw : w.Leaves (w.useModel m') S := .of_eq rfl rfl (Nat.le_refl _)
  exact ⟨hm, S, fun l hl => hw.within (hS l hl), hholds.frame hw⟩

section New

variable {data : Value} {methods : List (String × List Step)} {o : Ref .object}

theorem Stored.addMethods (hw : w.Stored P) (hm : Callable P → Step.EveryMethod P methods) :
    (w.addModel { data := o, methods := Setup.methodTable { data, methods } }).Stored P :=
  hw.addModel fun hc => Setup.methodTable_forall ((Step.everyMethod_iff _).1 (hm hc))

variable (ho : data = .object o)

include ho

theorem create_plain (w : World) : ViewModel.create { data, methods } w = some
    (.ok w.models.fresh, w.addModel
      { data := o, methods := Setup.methodTable { data, methods } }) := by
  subst ho
  exact ViewModel.create_apply _ w

theorem mount_plain {n : Nat} {point : MountPoint} {settings : Settings} {name : Option String}
    (hw : w.Stored P) (hm : Callable P → Step.EveryMethod P methods)
    (h : ViewModel.mount (Engine.ofFuel n).compute point { data, methods } settings
      (Script.nameModel name) w = some (.ok m, w')) :
    m = w.models.fresh ∧ w'.Stored P ∧ ∃ hs,
      ((w.addModel { data := o, methods := Setup.methodTable { data, methods } }).useModel
        w.models.fresh).Course P hs w' := by
  -- A selector is looked up before anything is made.
  have hnode : ∃ node, (ViewModel.create { data, methods } >>= fun m =>
      Action.usingModel m (settings.compile (Engine.ofFuel n).compute m node >>= fun _ =>
        Script.nameModel name m) >>= fun _ => pure m) w = some (.ok m, w') := by
    cases point with
    | node node => exact ⟨node, h⟩
    | selector text =>
      rw [ViewModel.mount, Action.get_bind] at h
      cases hq : w.view.query text with
      | none =>
        rw [hq] at h
        cases h
      | some node =>
        rw [hq] at h
        exact ⟨node, h⟩
  obtain ⟨node, h⟩ := hnode
  rw [Action.bind_apply, create_plain ho] at h
  obtain ⟨g, -, he⟩ | ⟨_, w₁, hrun, hreply⟩ := Action.bind_eq_some h
  · cases he
  cases hreply
  rw [Action.usingModel_apply] at hrun
  obtain ⟨⟨res, w₂⟩, hcompile, he⟩ := Option.map_eq_some_iff.1 hrun
  cases he
  have hx : Action.Proceeds P ⟨w.models.fresh :: w.uses.models, w.uses.subscribers⟩
      (settings.compile (Engine.ofFuel n).compute w.models.fresh node >>= fun _ =>
        Script.nameModel name w.models.fresh) :=
    .bind (settings.compile_proceeds List.mem_cons_self node) fun _ =>
      Script.nameModel_proceeds name List.mem_cons_self
  have hused : ((w.addModel { data := o, methods := Setup.methodTable { data, methods } }).useModel
      w.models.fresh).Stored P := by
    have hadd : Stored P (w.addModel
        { data := o, methods := Setup.methodTable { data, methods } }) := hw.addMethods hm
    exact ⟨hadd.callback, hadd.methods, hadd.reaction⟩
  obtain ⟨-, hs, hc⟩ := hx _ _ _ rfl hused hcompile
  have hcourse := hc.snoc (.releaseModel w₂ w.models.fresh)
  exact ⟨rfl, Course.stored hcourse hused, _, hcourse⟩

end New

namespace Sets

variable {n : Nat} {outcome : Option (Except Fault Bool × World)}
  {r : Except Fault (Option Document)}

theorem course (h : Sets n m w outcome r) (hw : w.Stored P) {res : Except Fault Bool}
    (ho : outcome = some (res, w')) : (∃ d', r = .ok (some d') ∧ res = .ok true ∧
        ∃ (w₁ : World) (hs : List Happening), w₁.Stored P ∧ w₁.Backs m d' ∧
          w₁.Course P hs w') ∨
      (∀ d', r ≠ .ok (some d')) ∧ w' = w := by
  cases h with
  | fails f he =>
    cases he.symm.trans ho
    exact .inr ⟨fun _ h => (nomatch h), rfl⟩
  | same he =>
    cases he.symm.trans ho
    exact .inr ⟨fun _ h => (nomatch h), rfl⟩
  | @changes o key source v key? d' hs hc hb he =>
    obtain ⟨⟨k, w₂⟩, hk, hres⟩ := Option.map_eq_some_iff.1 (he.symm.trans ho)
    obtain ⟨i, rfl⟩ := updateEach_ok _ hk
    cases hres
    have hturns := hw.turns source v
    obtain ⟨-, hs₂, hc₂⟩ := updateEach_proceeds (Engine.proceeds n) (u := w.uses) _
      (w.uses_turns source v) hturns hk
    obtain ⟨-, hs₃, hc₃⟩ := leaveBehind_course (P := P) w₂ key? i
    exact .inl ⟨d', rfl, rfl, _, _, hturns, hb, hc₂.trans hc₃⟩

theorem unfinished (h : Sets n m w none r) : ∃ s hs w', w.alive s ∧
    w.Course (fun _ => True) hs w' ∧ Subscriber.update (Engine.ofFuel n) s w' = none := by
  generalize ho : (none : Option (Except Fault Bool × World)) = outcome at h
  cases h with
  | fails f he => cases ho.trans he
  | same he => cases ho.trans he
  | @changes o key source v key? d' hs hc hb he =>
    have hwritable : ViewBinding.Writable fun _ => True :=
      ⟨.write none "" .tracking, trivial, trivial⟩
    have hw := stored_of_forall (P := fun _ => True) (fun _ => trivial) w
    obtain ⟨hs₁, hc₁⟩ := turns_course hwritable hs hc
    obtain ⟨s, hmem, hs₂, w', hc₂, hnone⟩ := updateEach_unfinished (Engine.proceeds n)
      (u := w.uses) _ (w.uses_turns source v) (hw.turns source v)
      (Option.map_eq_none_iff.1 (he.symm.trans ho.symm))
    exact ⟨s, _, w', alive_of_mem_due hmem, hc₁.trans hc₂, hnone⟩

end Sets

theorem Doubles.backs (hP : ¬ViewBinding.Writable P) (hd : ¬Definable P) (h : Doubles P m w d) :
    w.Backs m d ∧ w.Stored P := by
  induction h with
  | @create w _ fields methods hw hm h =>
    have hs := SameFrame.stored (observe_sameFrame (.object fields) w).1 hw
    rw [create_plain (observe_object fields w)] at h
    cases h
    exact ⟨backs_addModel fields w (observe_object fields w), hs.addMethods hm⟩
  | @mount w _ n fields methods _ _ _ hw hm h =>
    have hs := SameFrame.stored (observe_sameFrame (.object fields) w).1 hw
    -- Binding the view-model only makes moves that write nothing.
    obtain ⟨rfl, hw', hs', hc⟩ := mount_plain (observe_object fields w) hs hm h
    refine ⟨Backs.course (.useModel (backs_addModel fields w ?_) _) hP hd hc, hw'⟩
    exact observe_object fields w
  | name _ h ih =>
    obtain ⟨⟨hm, S, hS, hholds⟩, hw⟩ := ih
    cases h
    refine ⟨⟨hm, S, fun l hl => ?_, hholds.frame (.of_eq rfl rfl (Nat.le_refl _))⟩, ?_⟩
    · cases l <;> exact hS _ hl
    · exact ⟨hw.callback, hw.methods, hw.reaction⟩
  | @set w w' d new n path res _ h ih =>
    obtain ⟨hb, hw⟩ := ih
    have hs := SameFrame.stored (observe_sameFrame new w).1 hw
    -- Either the write came through and those who were due had their turns, or only the new data
    -- was made, which is apart from all that the document is kept in.
    rcases (hb.sets n path new).course hs h with
      ⟨d', hr, -, w₁, hs₁, hw₁, hb₁, hc₁⟩ | ⟨hr, rfl⟩
    · unfold Document.written
      rw [hr]
      exact ⟨hb₁.course hP hd hc₁, Course.stored hc₁ hw₁⟩
    · have hsame : d.written path new = d := by
        unfold Document.written
        split
        · exact absurd ‹_› (hr _)
        · rfl
      obtain ⟨hm, S, hS, hholds⟩ := hb
      have hl := observe_leaves new w hS
      rw [hsame]
      refine ⟨⟨?_, S, fun l hl' => hl.within (hS l hl'), ?_⟩, hs⟩
      · rw [(observe_sameFrame new w).1.models]
        exact hm
      · rw [(observe_sameFrame new w).1.models]
        exact hholds.frame hl
  | step _ hs h ih =>
    obtain ⟨hb, hw⟩ := ih
    obtain ⟨hs', hc⟩ := run_course hw hs h
    exact ⟨hb.course hP hd hc, Course.stored hc hw⟩

/-- In a run without other writes and without computed properties, a view-model is a plain document:
its data exports as the document does, every path reads what it leads to there, and every write
answers as it does there. -/
theorem Doubles.refines (hP : ¬ViewBinding.Writable P) (hd : ¬Definable P) (h : Doubles P m w d) :
    w.export? (w.models.get m).data = some d.snapshot ∧
      (∀ n path, ∃ r, (ViewModel.read (Engine.ofFuel n).compute m path).once w = some (r, w) ∧
        w.Reflects r (d.get path)) ∧
      ∀ n path new, w.Answers n m path new (d.set path new) := by
  obtain ⟨hb, -⟩ := h.backs hP hd
  obtain ⟨-, S, -, hholds⟩ := id hb
  refine ⟨hholds.exportValue?, fun n path => hb.read _ path, fun n path new => ?_⟩
  have hsets := hb.sets n path new
  have hw := stored_of_forall (P := fun _ => True) (fun _ => trivial) (observe new w).2
  cases hr : d.set path new with
  | error f =>
    rw [hr] at hsets
    cases hsets with
    | fails _ he => exact he
  | ok changed =>
    rw [hr] at hsets
    cases changed with
    | none =>
      cases hsets with
      | same he => exact he
    | some d' =>
      refine ⟨fun res w' ho => ?_, fun ho => ?_⟩
      · rcases hsets.course hw ho with ⟨_, -, hres, -⟩ | ⟨hn, -⟩
        · exact hres
        · exact absurd rfl (hn d')
      · rw [ho] at hsets
        exact hsets.unfinished

def resident : List (String × Document) :=
  [("name", .string "Ann"), ("home", .object [("city", .string "Oslo")])]

theorem refines_resident : ∃ w : World,
    Doubles (fun s => ¬s.Writes ∧ ¬s.Defines) ⟨0⟩ w
      ((Document.object resident).written "home.city" (.string "Rome")) ∧
    1 ≤ w.watchers.size ∧
    w.export? (w.models.get ⟨0⟩).data =
      some ((Document.object resident).written "home.city" (.string "Rome")).snapshot ∧
    (ViewModel.read (Engine.ofFuel 4).compute ⟨0⟩ "home.city").once w =
      some (.ok (.string "Rome"), w) := by
  have hrun : ((ViewModel.create { data := (observe (.object resident) {}).1 }
      (observe (.object resident) {}).2).bind fun p =>
        (Script.nameModel none ⟨0⟩ p.2).bind fun p =>
          ((Step.watch none "u" "home" [.log (.get none "home.city")]).run (Engine.ofFuel 4) {}
            p.2).bind fun p =>
              (ViewModel.write (Engine.ofFuel 4).compute (Subscriber.update (Engine.ofFuel 4)) ⟨0⟩
                "home.city" (observe (.string "Rome") p.2).1 (observe (.string "Rome") p.2).2).map
                  fun p => decide (1 ≤ p.2.watchers.size)) = some true := by
    decide +kernel
  obtain ⟨⟨res, w₁⟩, hcreate, hrun⟩ := Option.bind_eq_some_iff.1 hrun
  obtain ⟨⟨_, w₂⟩, hname, hrun⟩ := Option.bind_eq_some_iff.1 hrun
  obtain ⟨⟨_, w₃⟩, hwatch, hrun⟩ := Option.bind_eq_some_iff.1 hrun
  obtain ⟨⟨_, w₄⟩, hwrite, hsize⟩ := Option.map_eq_some_iff.1 hrun
  have hres : res = .ok ⟨0⟩ := by
    rw [create_plain (observe_object resident {})] at hcreate
    cases hcreate
    rfl
  subst hres
  have h : Doubles (fun s => ¬s.Writes ∧ ¬s.Defines) ⟨0⟩ w₄
      ((Document.object resident).written "home.city" (.string "Rome")) :=
    .set (.step (.name (.create empty_stored (fun _ => by trivial) hcreate) hname)
      (by simp [Step.Every, Step.EveryAll, Step.Writes, Step.Defines]) hwatch) hwrite
  obtain ⟨hexport, hread, -⟩ :=
    h.refines (fun ⟨_, hs, hw⟩ => hs.1 hw) fun ⟨_, hs, hd⟩ => hs.2 hd
  have hget : ((Document.object resident).written "home.city" (.string "Rome")).get "home.city" =
      .ok (.string "Rome") := by rfl
  obtain ⟨r, hr, hreflects⟩ := hread 4 "home.city"
  rw [hget] at hreflects
  refine ⟨w₄, h, of_decide_eq_true hsize, hexport, ?_⟩
  cases r with
  | error f => cases hreflects
  | ok v =>
    rw [hr, hreflects.2.1 _ rfl]

end ViewBinding.World
