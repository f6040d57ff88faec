import ViewBinding.Proofs.Mirrors.Run
import ViewBinding.Proofs.Strata.Visits

/-! The moments of a run are reached in strokes, those in the middle of a step as well. -/

namespace ViewBinding

open Action.Draws World

variable {P : Step → Prop} {α : Type} {T T' : Arrays} {n : Nat} {f : Frame} {w w' : World}
  {x y : Deed × World}

namespace Deed

variable (P) in
def Knows (T : Arrays) (w : World) : Deed → Prop
  | session steps => Step.EveryAll P steps
  | script f steps => f.Known T ∧ Step.EveryAll P steps
  | step f s => f.Known T ∧ s.Every P
  | call _ _ _ => Callable P
  | dispatch _ _ => Callable P
  | listen _ _ => Callable P
  | respond _ _ => Callable P
  | set _ _ v => v.Known T
  | assign _ _ v => v.Known T
  | property _ _ v => v.Known T
  | insert _ _ v => v.Known T
  | store _ v => v.Known T
  | turns _ => True
  | turn _ => True
  | perform r _ change callback =>
    (w.watchers.get r).callback = callback ∧ change.new.Known T ∧ change.old.Known T

variable (P) in
def Begins (T : Arrays) (w : World) (y : Deed × World) : Prop :=
  ∃ T', Drawn P P T w T' (outset y) ∧ y.1.Knows P T' y.2

namespace Begins

variable {next : α → World → List (Deed × World)}

theorem later (h : Drawn P P T w T' w') (hy : Begins P T' w' y) : Begins P T w y := by
  obtain ⟨T'', hd, hk⟩ := hy
  exact ⟨T'', h.trans hd, hk⟩

theorem itself (hw : w.Told P T) {d : Deed} (hd : outset (d, w) = w) (hk : d.Knows P T w) :
    Begins P T w (d, w) := ⟨T, hd.symm ▸ .refl hw, hk⟩

theorem after {x : Action α} {Q : α → Arrays → World → Prop} (hx : Action.Draws P P T w x Q)
    (hy : y ∈ x.after w next) (h : ∀ a T' w', Drawn P P T w T' w' → Q a T' w' → y ∈ next a w' →
      Begins P T' w' y) : Begins P T w y := by
  rw [Action.after] at hy
  split at hy
  · obtain ⟨T', hd, hq⟩ := hx _ _ ‹_›
    exact later hd (h _ T' _ hd (hq _ rfl) hy)
  · exact absurd hy List.not_mem_nil

theorem inModel {name : Option String} {next : Ref .model → World → List (Deed × World)}
    (hw : w.Told P T) (hy : y ∈ Script.inModel f name w next)
    (h : ∀ m w', w'.Told P T → y ∈ next m w' → Begins P T w' y) : Begins P T w y := by
  rw [Script.inModel] at hy
  split at hy
  · rename_i m _
    have huse : Drawn P P T w T _ := (Aside.useModel w m).drawn hw
    exact later huse (h _ _ huse.told hy)
  · exact absurd hy List.not_mem_nil

theorem inObject {place : Place} {next : Ref .object → World → List (Deed × World)}
    (hw : w.Told P T) (hf : f.Known T)
    (hy : y ∈ Script.inObject (Engine.ofFuel n) f place w next)
    (h : ∀ o T' w', T <+: T' → w'.Told P T' → y ∈ next o w' → Begins P T' w' y) :
    Begins P T w y := by
  cases place with
  | of expr =>
    refine after (Script.value_draws hw hf expr) hy fun v T' w' hd _ hy => ?_
    cases ho : v.object? with
    | none =>
      rw [ho] at hy
      exact absurd hy List.not_mem_nil
    | some o =>
      rw [ho] at hy
      exact h o T' w' hd.arrays hd.told hy
  | root name => exact inModel hw hy fun m w' hw' hy => h _ T w' (List.prefix_refl T) hw' hy

end Begins

end Deed

open Deed Deed.Begins

theorem Watcher.starts_draws (hw : w.Told P T) {r : Ref .watcher} {change : Change}
    (h : starts (Engine.ofFuel n).compute r w = some (change, w')) :
    Begins P T w (.perform r (w.watchers.get r).model change (w.watchers.get r).callback, w') := by
  have hm := Watcher.modelAlive_of_starts h
  simp only [starts, hm, if_true] at h
  split at h
  · rename_i new w₁ hev
    split at h
    · cases h
    cases h
    have huse : Drawn P P T w T _ := (Aside.useModel w (w.watchers.get r).model).drawn hw
    obtain ⟨T₁, hd, hk⟩ := evaluate_draws (P := P) huse.told r _ _ hev
    obtain ⟨_, hg⟩ := evaluate_glances n r _ _ _ hev
    have hwatcher : w₁.watchers.get r = w.watchers.get r := by
      rw [(Glances.sameFrame hg).watchers]
      rfl
    rw [← hwatcher]
    exact ⟨T₁, (huse.trans hd).trans (hd.told.call (hk new rfl) r), callback_remember ..,
      hk new rfl,
      hd.told.knows.seen r⟩
  · cases h

theorem Step.begins (hP : Uncounted P) (s : Step) (hw : w.Told P T) (hf : f.Known T)
    (hs : s.Every P) (hy : y ∈ s.parts (Engine.ofFuel n) f w) : Begins P T w y := by
  have he : Engine.Draws P (Engine.ofFuel n) := Engine.draws n
  cases s with
  | write name path expr =>
    rw [parts] at hy
    refine inModel hw hy fun m w' hw' hy =>
      after (Script.value_draws hw' hf expr) hy fun v T' w'' hd hv hy => ?_
    rw [List.mem_singleton.1 hy]
    exact itself hd.told rfl hv
  | setProperty place key expr =>
    refine inObject hw hf hy fun o T' w' hT hw' hy =>
      after (Script.value_draws hw' (hf.mono hT) expr) hy fun v T'' w'' hd hv hy => ?_
    rw [List.mem_singleton.1 hy]
    exact itself hd.told rfl hv
  | assign place path expr =>
    refine inObject hw hf hy fun o T' w' hT hw' hy => ?_
    split at hy
    · refine after (Script.value_draws hw' (hf.mono hT) expr) hy fun v T'' w'' hd hv hy => ?_
      rw [List.mem_singleton.1 hy]
      exact itself hd.told rfl hv
    · exact absurd hy List.not_mem_nil
  | setCell id expr =>
    obtain ⟨c, -, hy⟩ := exists_of_mem_elim hy
    refine after (Script.value_draws hw hf expr) hy fun v T' w' hd hv hy => ?_
    rw [List.mem_singleton.1 hy]
    exact itself hd.told rfl hv
  | call name method kind text =>
    rw [parts] at hy
    refine inModel hw hy fun m w' hw' hy => ?_
    rw [List.mem_singleton.1 hy]
    exact itself hw' rfl ⟨_, hs.head, trivial⟩
  | input k text =>
    refine after (Script.findNode_draws hw k) hy fun node T' w' hd hn hy => ?_
    rw [List.mem_singleton.1 hy, hn.1]
    have hedit := hd.told.edit hs.head (.typed k text)
    exact later hedit (itself hedit.told rfl ⟨_, hs.head, trivial⟩)
  | dispatch k kind =>
    refine after (Script.findNode_draws hw k) hy fun node T' w' hd _ hy => ?_
    rw [List.mem_singleton.1 hy]
    exact itself hd.told rfl ⟨_, hs.head, trivial⟩
  | event k kind text =>
    refine after (Script.findNode_draws hw k) hy fun node T' w' hd _ hy => ?_
    rw [List.mem_singleton.1 hy]
    exact itself hd.told rfl ⟨_, hs.head, trivial⟩
  | cond test yes no =>
    refine after (Script.value_draws hw hf test) hy fun v T' w' hd _ hy => ?_
    rw [List.mem_singleton.1 hy]
    refine itself hd.told rfl ⟨hf.mono hd.arrays, ?_⟩
    split
    · exact hs.2.1
    · exact hs.2.2
  | attempt steps =>
    rw [List.mem_singleton.1 hy]
    exact itself hw rfl ⟨hf, hs.2⟩
  | loop times steps =>
    cases times with
    | zero => exact absurd hy List.not_mem_nil
    | succ times =>
      obtain rfl | hy := List.mem_cons.1 hy
      · exact itself hw rfl ⟨hf, hs.2⟩
      · refine after (Step.runAll_draws he steps hw hf hs.2) hy fun _ T' w' hd _ hy => ?_
        rw [List.mem_singleton.1 hy]
        exact itself hd.told rfl ⟨hf.mono hd.arrays, hP _ _ _ hs.1, hs.2⟩
  | watcherUpdate id =>
    obtain ⟨r, -, hy⟩ := exists_of_mem_elim hy
    rw [List.mem_singleton.1 hy]
    have huse : Drawn P P T w T _ := (Aside.useSubscribers w [.watcher r]).drawn hw
    exact later huse (itself huse.told rfl trivial)
  | notify id =>
    obtain ⟨r, -, hy⟩ := exists_of_mem_elim hy
    rw [List.mem_singleton.1 hy]
    have hprune : Drawn P P T w T _ := (Aside.setRegistry w (.registry r)
      ((w.registry (.registry r)).prune w.alive)).drawn hw
    have huse := hprune.trans ((Aside.useSubscribers _ (w.due (.registry r))).drawn hprune.told)
    exact later huse (itself huse.told rfl trivial)
  | _ => exact absurd hy List.not_mem_nil

namespace Deed

theorem begins_of_mem_parts (hP : Uncounted P) {d : Deed} (hw : (outset (d, w)).Told P T)
    (hk : d.Knows P T w) (hy : y ∈ d.parts (.ofFuel n) w) : Begins P T (outset (d, w)) y := by
  have he : Engine.Draws P (Engine.ofFuel n) := Engine.draws n
  cases d with
  | session steps =>
    cases steps with
    | nil => exact absurd hy List.not_mem_nil
    | cons s rest =>
      obtain rfl | hy := List.mem_cons.1 hy
      · exact itself hw rfl ⟨Frame.known_of_change rfl, hk.1⟩
      · obtain ⟨p, hp, hy⟩ := exists_of_mem_elim hy
        rw [List.mem_singleton.1 hy]
        obtain ⟨T', hd⟩ := step_drawn hw hk.1 hp
        exact later hd (itself hd.told rfl hk.2)
  | script f steps =>
    cases steps with
    | nil => exact absurd hy List.not_mem_nil
    | cons s rest =>
      obtain ⟨hf, hs⟩ := hk
      obtain rfl | hy := List.mem_cons.1 hy
      · exact itself hw rfl ⟨hf, hs.1⟩
      · refine after (Step.run_draws he s hw hf hs.1) hy fun _ T' w' hd _ hy => ?_
        rw [List.mem_singleton.1 hy]
        exact itself hd.told rfl ⟨hf.mono hd.arrays, hs.2⟩
  | step f s => exact Step.begins hP s hw hk.1 hk.2 hy
  | call m name event =>
    obtain ⟨steps, hs, hy⟩ := exists_of_mem_elim hy
    rw [List.mem_singleton.1 hy]
    have htell : Drawn P P T w T _ := (Aside.tell w (.method m name event)).drawn hw
    exact later htell (itself htell.told rfl
      ⟨Frame.known_of_change rfl, htell.told.stored.methods hk m name steps hs⟩)
  | dispatch node event =>
    rw [List.mem_singleton.1 hy]
    exact itself hw rfl hk
  | listen event listeners =>
    cases listeners with
    | nil => exact absurd hy List.not_mem_nil
    | cons l rest =>
      obtain rfl | hy := List.mem_cons.1 hy
      · exact itself hw rfl hk
      · refine after (Response.perform_draws he hk hw event l.response) hy fun _ T' w' hd _ hy => ?_
        rw [List.mem_singleton.1 hy]
        exact itself hd.told rfl hk
  | respond event response =>
    cases response with
    | assign m path node =>
      simp only [parts] at hy
      split at hy
      · rw [List.mem_singleton.1 hy]
        have huse : Drawn P P T w T _ := (Aside.useModel w m).drawn hw
        exact later huse (itself huse.told rfl (Value.known_string _))
      · exact absurd hy List.not_mem_nil
    | call m name =>
      simp only [parts] at hy
      split at hy
      · rw [List.mem_singleton.1 hy]
        have huse : Drawn P P T w T _ := (Aside.useModel w m).drawn hw
        exact later huse (itself huse.told rfl hk)
      · exact absurd hy List.not_mem_nil
  | set m path v =>
    simp only [parts] at hy
    split at hy
    · rw [List.mem_singleton.1 hy]
      exact itself hw rfl hk
    · exact absurd hy List.not_mem_nil
  | assign p root v =>
    refine after (Action.Draws.once (Q := Value.KnownIn) hw
      (Path.follow_proceeds (Engine.compute_proceeds n) p p.parents _)
      (Path.follow_yields (Engine.compute_yields n) hw.knows p p.parents
        (Value.known_object root))) hy
      fun parent T' w' hd _ hy => ?_
    split at hy
    · rw [List.mem_singleton.1 hy]
      exact itself hd.told rfl (hk.mono hd.arrays)
    · exact absurd hy List.not_mem_nil
  | property o key v =>
    simp only [parts] at hy
    split at hy
    · rw [List.mem_singleton.1 hy]
      exact itself hw rfl hk
    · exact absurd hy List.not_mem_nil
    · rw [List.mem_singleton.1 hy]
      exact itself hw rfl hk
  | insert o key v => exact absurd hy List.not_mem_nil
  | store c v => exact absurd hy List.not_mem_nil
  | turns ss =>
    cases ss with
    | nil => exact absurd hy List.not_mem_nil
    | cons s rest =>
      obtain rfl | hy := List.mem_cons.1 hy
      · exact itself hw rfl trivial
      · obtain ⟨p, hp, hy⟩ := exists_of_mem_elim hy
        rw [List.mem_singleton.1 hy]
        obtain ⟨T', hd, -⟩ := Subscriber.update_draws he hw s _ _ hp
        have hafter := hd.trans (Told.afterTurn hd.told s)
        exact later hafter (itself hafter.told rfl trivial)
  | turn s =>
    cases s with
    | reaction r =>
      rw [List.mem_singleton.1 hy]
      have hshow : Drawn P P T w T _ :=
        (Aside.tell w (.showed (.update (w.reactions.get r).id))).drawn hw
      exact later hshow (itself hshow.told rfl ⟨Frame.known_of_change rfl, hw.stored.reaction r⟩)
    | watcher r =>
      obtain ⟨⟨change, w₁⟩, hst, hy⟩ := exists_of_mem_elim hy
      rw [List.mem_singleton.1 hy]
      exact Watcher.starts_draws hw hst
  | perform r m change callback =>
    cases callback with
    | run id steps =>
      obtain ⟨hcallback, hnew, hold⟩ := hk
      rw [List.mem_singleton.1 hy]
      have hsteps := hw.stored.callback r
      rw [outset, startCallback_watchers, hcallback] at hsteps
      exact itself hw rfl ⟨fun c h => by cases h; exact ⟨hnew, hold⟩, hsteps⟩
    | write face node => exact absurd hy List.not_mem_nil
    | render node t => exact absurd hy List.not_mem_nil

theorem drawn_turns (hw : w.Told P T) (source : Source) {v : Value} (hv : v.Known T) :
    Drawn P P T w T (w.turns source v) := by
  have hput : Drawn P P T w T (w.put source v) := by
    cases source with
    | cell c =>
      have hstore := hw.store c hv
      exact hstore.trans ((Aside.setRegistry (w.store c v) (.cell c)
        ((w.registry (.cell c)).prune w.alive)).drawn hstore.told)
    | waiting o key => exact hw.insert o key hv
    | registry r => exact .refl hw
  exact hput.trans ((Aside.useSubscribers _ _).drawn hput.told)

theorem begins_of_mem_fanOut {d : Deed} (hw : w.Told P T) (hk : d.Knows P T w)
    (hy : y ∈ d.fanOut w) : Begins P T w y := by
  cases d with
  | insert o key v =>
    rw [List.mem_singleton.1 hy]
    have hd := drawn_turns hw (.waiting o key) hk
    exact later hd (itself hd.told rfl trivial)
  | store c v =>
    rw [mem_fanOut_store hy]
    have hd := drawn_turns hw (.cell c) hk
    exact later hd (itself hd.told rfl trivial)
  | _ => exact absurd hy List.not_mem_nil

theorem Leads.begins (hP : Uncounted P) (h : Leads x y) (hx : Begins P T w x) : Begins P T w y := by
  obtain ⟨d, u⟩ := x
  obtain ⟨T', hd, hk⟩ := hx
  obtain ⟨n, hy⟩ | hy := h
  · exact later hd (begins_of_mem_parts hP hd.told hk hy)
  · have hout : outset (d, u) = u := by
      cases d <;> first | rfl | exact absurd hy List.not_mem_nil
    rw [hout] at hd
    exact later hd (begins_of_mem_fanOut hd.told hk hy)

theorem Reaches.begins (hP : Uncounted P) (h : Reaches x y) (hx : Begins P T w x) :
    Begins P T w y := by
  induction h with
  | refl => exact hx
  | tail _ h ih => exact h.begins hP ih

end Deed

end ViewBinding
