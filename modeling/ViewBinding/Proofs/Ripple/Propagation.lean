import ViewBinding.Proofs.Ripple.Echo
import ViewBinding.Proofs.Strata.Survey

/-! Where nobody follows the data but bindings, each write comes to an end in one pass, and so does
what is typed into a node that is bound both ways. -/

namespace ViewBinding

open Deed (Reaches)

variable {w w' : World} {f : Frame} {n : Ref .node} {m : Ref .model} {r : Ref .watcher}
  {path s : String} {v : Value} {o : Ref .object}

/-- From any moment at which nobody follows the data but bindings: a write to a path of a view-model
comes to an end, in one pass, if computed properties are total; and a text that is typed into a node
which is bound both ways is stored, in one pass as well, and comes back to the node once if it is
new, and never if it is not. -/
theorem Moment.propagates_once (h : Moment f w) (hb : w.OnlyBindings) :
    (∀ m path v, m.index < w.models.size → v.Within w.objects.size →
      (∀ x, Reaches (.set m path v, w) x → x.2.Total) →
      ∃ k res w', ∀ j, k ≤ j →
        ViewModel.write (Engine.ofFuel j).compute (Subscriber.update (Engine.ofFuel j)) m path v w =
          some (res, w') ∧ ViewModel.SetsOnce j m path v w res w') ∧
      ∀ n r path s, w.BindsBothWays n r path s → ∀ k w',
        Event.input (Engine.ofFuel k) n s w = some (.ok (), w') → w.TypesOnce k n r path s w' := by
  constructor
  · intro m path v hm hv ht
    obtain ⟨⟨res, w'⟩, k, hk⟩ := Deed.set_return_of_bindings ht h.quiet.valid hb hv .refl
    exact ⟨k, res, w', fun j hj => ⟨hk j hj, h.sets_once hb hm hv (hk j hj)⟩⟩
  · intro n r path s hs k w' hi
    exact h.types_once hb hs hi

def World.onlyBindings (w : World) : Bool :=
  w.subscribersInUse.isEmpty && w.names.reactions.held.values.isEmpty &&
    (List.range w.watchers.size).all fun i =>
      match (w.watchers.get ⟨i⟩).callback with
      | .run _ _ => false
      | _ => true

theorem World.onlyBindings_of_check (hw : w.Valid) (h : w.onlyBindings) : w.OnlyBindings := by
  simp only [onlyBindings, Bool.and_eq_true, List.isEmpty_iff, List.all_eq_true,
    List.mem_range] at h
  obtain ⟨⟨hused, hnamed⟩, hall⟩ := h
  refine ⟨fun r id steps ha hc => ?_, fun r ha => ?_⟩
  · have hr := hall r.index (hw.lt_of_alive ha)
    rw [show (w.watchers.get ⟨r.index⟩).callback = .run id steps from hc] at hr
    cases hr
  · simp [alive, hused, Holder.holds, hnamed] at ha

def World.flat (w : World) (o : Ref .object) : Bool :=
  (w.objects.get o).slots.toList.all fun (_, slot) =>
    match slot with
    | .cell c => (w.cells.get c).value.string?.isSome
    | .computed _ => true

theorem World.finite_of_flat (h : w.flat o) : w.Finite (.object o) := by
  refine .object fun key c hs => ?_
  have hm : (key, Slot.cell c) ∈ (w.objects.get o).slots.toList :=
    Std.ExtTreeMap.mem_toList_iff_getElem?_eq_some.2 hs
  obtain ⟨s, hs⟩ := Option.isSome_iff_exists.1 (List.all_eq_true.1 h _ hm)
  rw [Value.eq_string hs]
  exact .string s

theorem Response.silent_of_idle {models : Store .model ViewModel} {event : Event} {name : String}
    (h : (models.get m).methods[name]? = some []) : (Response.call m name).Silent models event := by
  rintro k w res w' rfl hw
  rw [Response.perform, Action.get_bind] at hw
  split at hw
  · rw [Action.usingModel_apply, ViewModel.call, Action.get_bind] at hw
    have hm : ((w.useModel m).models.get m).methods[name]? = some [] := h
    rw [hm] at hw
    cases k with
    | zero => cases hw
    | succ k =>
      cases hw
      have hcalled := w.shown_tell (.method m name event)
      refine ⟨⟨w.trace.push (.method m name event), ?_⟩, hcalled.trans (List.append_nil _)⟩
      exact congrArg (fun w₁ : World => { w₁ with trace := w.trace.push (.method m name event) })
        (w.releaseModel_useModel m)
  · cases hw
    exact .refl w

/-- A form with an input that shows a property both ways and calls a method, and a paragraph that
shows the property as well. -/
def registration : List Markup :=
  [.element "form" []
    [.element "input" [("directive-model", "a"), ("directive-on:input", "note")] [],
      .element "p" [("directive-text", "a")] []]]

def register (note : List Step) : Step :=
  .mount none (.node 2) (some (.data (.object [("a", .string "x")]))) [("c", .data (.string "-"))]
    [("note", note)] {}

/-- What is checked of the form when it is mounted: its input is bound both ways, and calls the
method. -/
def World.registered (w : World) : Bool :=
  w.bindings ⟨0⟩ == [0] && w.alive (.watcher ⟨0⟩) && (w.watchers.get ⟨0⟩).model == ⟨0⟩ &&
    w.modelAlive ⟨0⟩ && w.flat (w.models.get ⟨0⟩).data &&
    (Path.parse "a").toOption == some (w.watchers.get ⟨0⟩).path &&
    (w.watchers.get ⟨0⟩).path.parents.isEmpty &&
    (w.view.node ⟨0⟩).listeners == [{ event := "input", response := .assign ⟨0⟩ "a" ⟨0⟩ },
      { event := "input", response := .call ⟨0⟩ "note" }]

theorem World.showsPath_of_registered (h : w.registered) : w.ShowsPath ⟨0⟩ ⟨0⟩ "a" := by
  simp only [registered, Bool.and_eq_true, beq_iff_eq, List.isEmpty_iff] at h
  obtain ⟨⟨⟨⟨⟨⟨⟨hbinds, ha⟩, hm⟩, hma⟩, hflat⟩, hparse⟩, hparents⟩, -⟩ := h
  refine ⟨ha, ?_, .of_bindings hbinds, ?_, ?_, ?_⟩
  · rw [hm]
    exact hma
  · cases hp : Path.parse "a" with
    | error g =>
      rw [hp] at hparse
      cases hparse
    | ok p =>
      rw [hp] at hparse
      rw [Option.some.inj hparse]
  · rw [World.rootOf, hm]
    exact finite_of_flat hflat
  · rw [hparents]
    exact ⟨_, .nil _⟩

theorem World.bindsBothWays_of_registered (h : w.registered)
    (hnote : (w.models.get ⟨0⟩).methods["note"]? = some []) :
    w.BindsBothWays ⟨0⟩ ⟨0⟩ "a" s := by
  refine ⟨showsPath_of_registered h, ?_⟩
  simp only [registered, Bool.and_eq_true, beq_iff_eq] at h
  obtain ⟨⟨⟨⟨⟨⟨⟨-, -⟩, hm⟩, -⟩, -⟩, -⟩, -⟩, hl⟩ := h
  refine ⟨[], [{ event := "input", response := .call ⟨0⟩ "note" }], ?_, fun l hl => ?_⟩
  · rw [hl, hm]
    rfl
  · obtain rfl := List.mem_singleton.1 hl
    exact Response.silent_of_idle hnote

theorem Moment.propagates_once_registration : ∃ w : World, Moment {} w ∧ w.OnlyBindings ∧
    w.BindsBothWays ⟨0⟩ ⟨0⟩ "a" "y" ∧
      (∀ x, Reaches (.set ⟨0⟩ "a" (.string "y"), w) x → x.2.Total) ∧
      (∃ k res w', ∀ j, k ≤ j → ViewModel.write (Engine.ofFuel j).compute
          (Subscriber.update (Engine.ofFuel j)) ⟨0⟩ "a" (.string "y") w = some (res, w') ∧
        ViewModel.SetsOnce j ⟨0⟩ "a" (.string "y") w res w') ∧
      ∃ w', Event.input (Engine.ofFuel 4) ⟨0⟩ "y" w = some (.ok (), w') ∧
        w.TypesOnce 4 ⟨0⟩ ⟨0⟩ "a" "y" w' := by
  obtain ⟨w, h, hc⟩ := exists_of_run 4 registration [register []]
    (fun w => w.onlyBindings && decide (0 < w.models.size) && w.registered &&
      (w.models.get ⟨0⟩).methods["note"]?.any List.isEmpty &&
      Deed.survey (fun x => Deed.starts 4 x ++ x.1.fanOut x.2)
        (fun x => Deed.ends 4 x && x.2.Fixed) 30 (.set ⟨0⟩ "a" (.string "y"), w) &&
      (Event.input (Engine.ofFuel 4) ⟨0⟩ "y" w).any (·.1.isOk))
    (by simp [register, Step.AllPlain, Step.Plain, Step.PlainMethods, Step.PlainMethod,
      Expr.IsOwn, Expr.Tracked, Expr.Each, Expr.Inward, Expr.Joined, Expr.Firm,
      Document.scalar?])
    (by decide +kernel)
  simp only [Bool.and_eq_true, decide_eq_true_eq, Option.any_eq_true] at hc
  obtain ⟨⟨⟨⟨⟨hb, hm⟩, hw⟩, steps, hnote, hnil⟩, hsurvey⟩, ⟨_ | u, w'⟩, hi, hok⟩ := hc
  · cases hok
  have hb : w.OnlyBindings := World.onlyBindings_of_check h.quiet.valid hb
  have hboth : w.BindsBothWays ⟨0⟩ ⟨0⟩ "a" "y" := by
    rw [List.isEmpty_iff.1 hnil] at hnote
    exact World.bindsBothWays_of_registered hw hnote
  have htotal (x : Deed × World) (hx : Reaches (.set ⟨0⟩ "a" (.string "y"), w) x) :
      x.2.Total := by
    have hc := Deed.check_of_survey (fun x y hc hy => Deed.mem_leads ?_ hy) hsurvey hx
    · rw [Bool.and_eq_true] at hc
      exact World.total_of_fixed hc.2
    · rw [Bool.and_eq_true] at hc
      exact hc.1
  obtain ⟨hsets, htypes⟩ := h.propagates_once hb
  exact ⟨w, h, hb, hboth, htotal, hsets _ _ _ hm (Value.within_of_object? rfl) htotal,
    w', hi, htypes _ _ _ _ hboth _ _ hi⟩

theorem Moment.write_endless (h : Moment f w) {p : Path} {source : Source} {rest : List Subscriber}
    (hp : Path.parse path = .ok p) (hroute : w.Route (w.models.get m).data p.parents o)
    (hs : w.property? o p.last = some source) (hv : v.Within w.objects.size)
    (hc : w.changes source v) (hdue : w.due source = .watcher r :: rest)
    (hm : w.modelAlive (w.watchers.get r).model)
    (hl : ∀ k, ((w.turns source v).look k r).run = none) (k : Nat) :
    ViewModel.write (Engine.ofFuel k).compute (Subscriber.update (Engine.ofFuel k)) m path v w =
      none := by
  have hvalid := h.quiet.valid
  have hfind : (Site.path p (w.models.get m).data).find (Engine.ofFuel k).compute w =
      some (source, w) := by rw [hroute.find, hs]; rfl
  rw [ViewModel.write_apply hp]
  -- If the write came to an end, so did the turn of the first who is due, and with it a look.
  by_contra hn
  obtain ⟨⟨res, w'⟩, hw⟩ := Option.ne_none_iff_exists'.1 hn
  rcases Path.assign_cases hvalid hw with ⟨hnone, -, -⟩ | ⟨source', w₁, hfind', -, hwrote⟩
  · rw [hfind] at hnone
    cases hnone
  · obtain ⟨rfl, rfl⟩ := Prod.mk.inj (Option.some.inj (hfind.symm.trans hfind'))
    cases hwrote with
    | same hsame => exact hsame hc
    | turns _ hk _ =>
      rw [hdue] at hk
      obtain ⟨q, _, hq, -, -⟩ := updateEach_cons_eq_some hk
      have hpass := World.passes_turns hvalid (Site.find_writable hfind) hv
      have hr : r.index < w.watchers.size :=
        hvalid.lt_of_alive (World.alive_of_mem_due (hdue ▸ List.mem_cons_self))
      rw [← World.watchers_turns w source v] at hr hm
      rw [← World.modelAlive_turns w source v] at hm
      obtain ⟨p, hp⟩ : ∃ p, ((w.turns source v).look k r).run = some p := by
        rcases Watcher.update_cases hpass.valid hr hq with ⟨-, -, -, hl⟩ | ⟨_, _, _, _, -, hl, -⟩
        · obtain ⟨res, ms, hl, -⟩ := hl hm
          exact ⟨_, hl⟩
        · exact ⟨_, hl⟩
      rw [hl k] at hp
      cases hp

/-- A property that is computed from itself as soon as another one says so. -/
def recurring : Expr := .cond (.get none "on") (.get none "c") (.data (.string "-"))

def Expr.recurs : Expr → Bool
  | .cond (.get none on) (.get none key) _ => on == "on" && key == "c"
  | _ => false

theorem Sight.compute_recurring {d : Sight} {p : Computed} {c : Ref .cell} (hp : p.body.recurs)
    (hc : d.slot? (d.root p.model) "c" = some (.computed p))
    (hon : d.slot? (d.root p.model) "on" = some (.cell c)) (hv : (d.value c).isTrue)
    (ha : d.alive p.model) (k : Nat) : (d.compute k p).run = none := by
  unfold Expr.recurs at hp
  split at hp
  · rename_i on key _ hbody
    simp only [Bool.and_eq_true, beq_iff_eq] at hp
    obtain ⟨rfl, rfl⟩ := hp
    have hon' : Path.parse "on" = .ok ⟨["on"], by simp⟩ := by decide
    have hc' : Path.parse "c" = .ok ⟨["c"], by simp⟩ := by decide
    induction k with
    | zero => rfl
    | succ k ih =>
      -- The test is true, and then it is the same property again, with less to go.
      rw [Sight.compute, if_pos ha, hbody]
      simp [Expr.look, Frame.look, Frame.seek, ViewModel.look, hon', hc', Path.look, Path.lookFrom,
        Path.owner, Object.look, hon, hc, Cell.look, hv, ih]
  · cases hp

/-- A paragraph that shows the property. -/
def circle : List Markup := [.element "main" [] [.element "p" [("directive-text", "c")] []]]

def mountCircle : Step :=
  .mount none (.node 1) (some (.data (.object [("on", .bool false)]))) [("c", recurring)] [] {}

def World.encircled (w : World) : Bool :=
  (w.property? (w.models.get ⟨0⟩).data "on" == some (.cell ⟨0⟩)) &&
    w.changes (.cell ⟨0⟩) (.bool true) && w.due (.cell ⟨0⟩) == [.watcher ⟨0⟩] && w.modelAlive ⟨0⟩ &&
    (w.watchers.get ⟨0⟩).model == ⟨0⟩

def World.circular (w : World) : Bool :=
  (w.watchers.get ⟨0⟩).model == ⟨0⟩ && (w.watchers.get ⟨0⟩).path.segments == ["c"] &&
    w.modelAlive ⟨0⟩ && w.property? (w.models.get ⟨0⟩).data "on" == some (.cell ⟨0⟩) &&
    (w.cells.get ⟨0⟩).value.isTrue &&
    match w.slot? (w.models.get ⟨0⟩).data "c" with
    | some (.computed p) => p.model == ⟨0⟩ && p.body.recurs
    | _ => false

theorem World.look_circular (h : w.circular) (k : Nat) : (w.look k ⟨0⟩).run = none := by
  simp only [circular, Bool.and_eq_true, beq_iff_eq] at h
  obtain ⟨⟨⟨⟨⟨hm, hp⟩, ha⟩, hon⟩, hv⟩, hc⟩ := h
  split at hc
  · rename_i p hslot
    simp only [Bool.and_eq_true, beq_iff_eq] at hc
    obtain ⟨hmodel, hrecurs⟩ := hc
    rw [← hmodel] at hslot hon ha
    have hnone := Sight.compute_recurring (d := w.sight) hrecurs hslot (slot?_of_property? hon) hv
      ha k
    have hsight : w.sight.slot? (w.models.get ⟨0⟩).data "c" = some (.computed p) := by
      rw [← hmodel]
      exact hslot
    simp [look, Path.look, hp, Path.lookFrom, Path.owner, Object.look, hm, hsight, hnone]
  · cases hc

theorem circle_run : ∃ (w₀ w : World) (outcomes : List Outcome),
    World.ofTrees circle = some w₀ ∧ w₀.steps (Engine.ofFuel 4) [mountCircle] = some (outcomes, w) ∧
      w.OnlyBindings ∧ ∀ k, ViewModel.write (Engine.ofFuel k).compute
        (Subscriber.update (Engine.ofFuel k)) ⟨0⟩ "on" (.bool true) w = none := by
  have hrun : ((World.ofTrees circle).bind fun w =>
      (w.steps (Engine.ofFuel 4) [mountCircle]).map fun p => p.2.onlyBindings && p.2.encircled &&
        (p.2.turns (.cell ⟨0⟩) (.bool true)).circular) = some true := by
    decide +kernel
  obtain ⟨w₀, h₀, hrun⟩ := Option.bind_eq_some_iff.1 hrun
  obtain ⟨⟨outcomes, w⟩, hw, hc⟩ := Option.map_eq_some_iff.1 hrun
  have h : Moment {} w := by
    refine (Moment.start h₀).steps ?_ hw
    simp [mountCircle, recurring, Step.AllPlain, Step.Plain, Step.PlainMethods, Expr.IsOwn,
      Expr.Tracked, Expr.Each, Expr.Inward, Expr.Joined, Expr.Firm, Document.scalar?]
  simp only [World.encircled, Bool.and_eq_true, beq_iff_eq] at hc
  obtain ⟨⟨hb, ⟨⟨⟨hs, hc⟩, hdue⟩, hm⟩, hmodel⟩, hcircular⟩ := hc
  refine ⟨w₀, w, outcomes, h₀, hw, World.onlyBindings_of_check h.quiet.valid hb, ?_⟩
  have hparse : Path.parse "on" = .ok ⟨["on"], by simp⟩ := by decide
  rw [← hmodel] at hm
  exact h.write_endless hparse (.nil _) hs (Value.within_of_object? rfl) hc hdue hm
    (World.look_circular hcircular)

/-- The run that mounts the form with a method that writes the property itself. -/
def overwriting : List Step := [register [.write none "a" (.data (.string "z"))]]

def overwritten : List Shown :=
  [⟨.value, ⟨0⟩, "y"⟩, ⟨.text, ⟨1⟩, "y"⟩, ⟨.value, ⟨0⟩, "z"⟩, ⟨.text, ⟨1⟩, "z"⟩]

/-- Where a listener for input writes as well, the text that was typed is overwritten, and the value
of the node is set twice. Where a property is computed from itself a write never comes to an end. -/
theorem propagation_limits :
    (∃ (w₀ w w' w'' : World) (outcomes : List Outcome), World.ofTrees registration = some w₀ ∧
      w₀.steps (Engine.ofFuel 4) overwriting = some (outcomes, w) ∧ w.OnlyBindings ∧
        w.ShowsPath ⟨0⟩ ⟨0⟩ "a" ∧ Event.input (Engine.ofFuel 4) ⟨0⟩ "y" w = some (.ok (), w') ∧
        (ViewModel.read (Engine.ofFuel 4).compute ⟨0⟩ "a").once w' =
          some (.ok (.string "z"), w'') ∧
        w'.shown = w.shown ++ overwritten) ∧
      ∃ (w₀ w : World) (outcomes : List Outcome), World.ofTrees circle = some w₀ ∧
        w₀.steps (Engine.ofFuel 4) [mountCircle] = some (outcomes, w) ∧ w.OnlyBindings ∧
        ∀ k, ViewModel.write (Engine.ofFuel k).compute (Subscriber.update (Engine.ofFuel k)) ⟨0⟩
          "on" (.bool true) w = none := by
  constructor
  · have hrun : ((World.ofTrees registration).bind fun w =>
        (w.steps (Engine.ofFuel 4) overwriting).map fun p =>
          p.2.onlyBindings && p.2.registered && (Event.input (Engine.ofFuel 4) ⟨0⟩ "y" p.2).any
            fun q => q.1.isOk && q.2.shown == p.2.shown ++ overwritten &&
              ((ViewModel.read (Engine.ofFuel 4).compute ⟨0⟩ "a").once q.2).any fun t =>
                t.1.toOption.any fun u => u.string? == some "z") = some true := by
      decide +kernel
    obtain ⟨w₀, h₀, hrun⟩ := Option.bind_eq_some_iff.1 hrun
    obtain ⟨⟨outcomes, w⟩, hw, hc⟩ := Option.map_eq_some_iff.1 hrun
    have h : Moment {} w := by
      refine (Moment.start h₀).steps ?_ hw
      simp [overwriting, register, Step.AllPlain, Step.Plain, Step.PlainMethods, Step.PlainMethod,
        Expr.IsOwn, Expr.Tracked, Expr.Each, Expr.Inward, Expr.Joined, Expr.Firm,
        Document.scalar?]
    simp only [Bool.and_eq_true, Option.any_eq_true, beq_iff_eq] at hc
    obtain ⟨⟨hb, hr⟩, ⟨_ | u, w'⟩, hi, ⟨hok, hshown⟩, ⟨_ | u, w''⟩, hread, v, hv, hz⟩ := hc
    · cases hok
    · cases hok
    · cases hv
    · cases hv
      rw [Value.eq_string hz] at hread
      exact ⟨w₀, w, w', w'', outcomes, h₀, hw, World.onlyBindings_of_check h.quiet.valid hb,
        World.showsPath_of_registered hr, hi, hread, hshown⟩
  · exact circle_run

end ViewBinding
