import ViewBinding.Proofs.Mirrors.Mirror
import ViewBinding.Proofs.Mirrors.Run
import ViewBinding.Proofs.Tending.Run
import ViewBinding.Proofs.Tending.Spelling

/-! Texts that settle. A text that was written is read back and has its place from then on, and a
tree that was mounted and is left to its bindings has the nodes it has. -/

namespace ViewBinding

open World

variable {w w' w₁ w₂ : World} {n : Ref .node} {r : Ref .watcher}

theorem View.Displays.hasText {v : View} {ns : List (Ref .node)} {text : String}
    (h : v.Displays .text (n :: ns) text) : v.HasText n := by
  intro hs
  cases h with
  | text _ hch hc _ => exact ⟨_, hch, hc⟩

theorem View.hasText_of_sort {v : View} (h : (v.node n).sort = .text) : v.HasText n := by
  intro hs
  simp [h] at hs

theorem World.hasText_of_new (hd : w.Displayed w') (hs : w.Spells w')
    (hr : w.watchers.size ≤ r.index)
    (hc : (w'.watchers.get r).callback.shows? = some (.text, n)) : w'.view.HasText n := by
  cases hcb : (w'.watchers.get r).callback with
  | run id steps =>
    rw [hcb] at hc
    cases hc
  | write face node =>
    -- The text was written when it was bound, and its place has been kept since.
    rw [hcb] at hc
    cases hc
    obtain ⟨ns, hpresents⟩ := hd r .text n hr hcb
    obtain ⟨text, hdisplays, -⟩ := hpresents.displays
    exact hdisplays.hasText
  | render node t =>
    rw [hcb] at hc
    cases hc
    exact View.hasText_of_sort (hs.sort_of_size_le hr hcb)

namespace World

/-- Whether some run comes to a world between two of its steps. -/
def Reached (w : World) : Prop :=
  ∃ (trees : List Markup) (w₀ : World) (k : Nat) (steps : List Step) (outcomes : List Outcome),
    World.ofTrees trees = some w₀ ∧ w₀.steps (Engine.ofFuel k) steps = some (outcomes, w)

def Mounts (w w₁ : World) : Prop :=
  ∃ (k : Nat) (name : Option String) (target : Target) (data : Option Expr)
    (computed : List (String × Expr)) (methods : List (String × List Step)) (settings : Settings)
    (a : Answer) (effects : Array Effect),
    w.step (Engine.ofFuel k) (.mount name target data computed methods settings) =
      some ({ answer := .ok a, effects }, w₁)

theorem Reached.told (h : w.Reached) : ∃ T, w.Told (fun _ => True) T := by
  obtain ⟨trees, w₀, k, steps, outcomes, h₀, hrun⟩ := h
  obtain ⟨T, hw, -⟩ := (Moment.start h₀).told
  obtain ⟨T', hd⟩ := steps_drawn hw (Step.everyAll_of_forall (fun _ => trivial) steps) hrun
  exact ⟨T', hd.told⟩

/-- All texts that a mounted tree is bound to have their places. -/
theorem Mounts.hasText (h : w.Mounts w₁) (hw : w.Reached) (hf : w.view.Forest)
    (hr : w.watchers.size ≤ r.index)
    (hc : (w₁.watchers.get r).callback.shows? = some (.text, n)) : w₁.view.HasText n := by
  obtain ⟨T, hw⟩ := hw.told
  obtain ⟨k, name, target, data, computed, methods, settings, a, effects, hstep⟩ := h
  obtain ⟨⟨res, w₂⟩, hrun, he⟩ := Option.bind_eq_some_iff.1 hstep
  cases he
  have hmethods : Step.EveryMethod (fun _ => True) methods :=
    Step.everyMethod_of_forall (fun _ => trivial) methods
  -- What the tree is bound to is shown, and only text nodes are bound to templates.
  obtain ⟨T', -, hshown⟩ := Script.mount_draws (P := fun _ => True) (n := k) (f := {})
    hw (Frame.known_of_change rfl) name target data computed settings trivial
      hmethods _ _ hrun
  have hspells := Script.mount_spells name target data computed methods settings a w₂ hrun
  have hnew : w₂.view.HasText n := hasText_of_new (hshown a rfl hf) hspells hr hc
  exact hnew

end World

/-- Writing the text of an element or a text node in a forest: it is read back, it stays where it
was written, and writing again makes nothing new. And so a tree that was mounted and is left to its
bindings keeps the nodes it has, as long as bindings from before that are not spent have places for
their texts as well. -/
theorem text_settles :
    (∀ (v : View) (n : Ref .node) (s : String), v.Forest → n.index < v.nodes.size →
      (v.node n).sort ≠ .other → v.Rewritten n s (v.write .text n s)) ∧
    ∀ (w w₁ w₂ : World) (k : Nat) (steps : List Step) (outcomes : List Outcome), w.Reached →
      w.view.Forest → w.Mounts w₁ →
      (∀ r n, r.index < w.watchers.size →
        (w₁.watchers.get r).callback.shows? = some (.text, n) → w₁.Spent r ∨ w₁.view.HasText n) →
      w₁.Stored Step.LeavesTree → Step.EveryAll Step.LeavesTree steps →
      w₁.steps (Engine.ofFuel k) steps = some (outcomes, w₂) →
        w₂.view.nodes.size = w₁.view.nodes.size := by
  refine ⟨fun v n s hv hn hs => hv.rewritten hn hs s, ?_⟩
  intro w w₁ w₂ k steps outcomes hw hf hmount hold hstored hs hrun
  have htended : w₁.Tended w₁.uses w₁.view.nodes.size := by
    refine ⟨rfl, hstored, fun r n hc => ?_, rfl⟩
    by_cases hr : r.index < w.watchers.size
    · exact hold r n hr hc
    · exact .inr (hmount.hasText hw hf (Nat.le_of_not_lt hr) hc)
  exact (htended.steps hs hrun).size

def View.ordered (v : View) : Bool :=
  (List.range v.nodes.size).all fun i =>
    (v.children ⟨i⟩).all (fun c => c.index < i && (v.node c).parent == some ⟨i⟩) &&
      decide (v.children ⟨i⟩).Nodup &&
        (v.node ⟨i⟩).parent.all fun p => (v.children p).contains ⟨i⟩

theorem View.forest_of_ordered {v : View} (h : v.ordered) : v.Forest := by
  simp only [ordered, List.all_eq_true, List.mem_range, Bool.and_eq_true, decide_eq_true_eq,
    beq_iff_eq, Option.all_eq_true, List.contains_eq_mem] at h
  have hchild {n c : Ref .node} (hc : c ∈ v.children n) :
      c.index < n.index ∧ (v.node c).parent = some n := (h n.index (lt_of_child hc)).1.1 c hc
  have hunder {n c : Ref .node} (hu : v.Under c n) : c.index < n.index := by
    induction hu with
    | single hc => exact (hchild hc).1
    | tail _ hc ih => exact Nat.lt_trans ih (hchild hc).1
  refine ⟨fun n c hc => ?_, fun n => ?_, fun n c => ⟨fun hp => ?_, fun hc => (hchild hc).2⟩,
    fun n hu => Nat.lt_irrefl _ (hunder hu)⟩
  · exact Nat.lt_trans (hchild hc).1 (lt_of_child hc)
  · by_cases hn : n.index < v.nodes.size
    · exact (h n.index hn).1.2
    · rw [children_of_size_le (Nat.le_of_not_lt hn)]
      exact List.nodup_nil
  · have hc : c.index < v.nodes.size := by
      by_contra hc
      rw [node_of_size_le (Nat.le_of_not_lt hc)] at hp
      cases hp
    exact (h c.index hc).2 n hp

def World.unscripted (w : World) : Bool :=
  (List.range w.watchers.size).all (fun i => (w.watchers.get ⟨i⟩).callback.shows?.isSome) &&
    (List.range w.models.size).all (fun i => (w.models.get ⟨i⟩).methods.isEmpty) &&
      w.reactions.size == 0

theorem World.stored_of_unscripted {P : Step → Prop} (h : w.unscripted) : w.Stored P := by
  simp only [unscripted, Bool.and_eq_true, List.all_eq_true, List.mem_range, beq_iff_eq] at h
  obtain ⟨⟨hwatchers, hmodels⟩, hreactions⟩ := h
  refine ⟨fun r => ?_, fun _ m name steps hm => ?_, fun r => ?_⟩
  · by_cases hr : r.index < w.watchers.size
    · have hshows := hwatchers r.index hr
      cases hc : (w.watchers.get r).callback with
      | run id steps =>
        rw [show (w.watchers.get ⟨r.index⟩).callback = .run id steps from hc] at hshows
        cases hshows
      | _ => trivial
    · rw [w.watchers.get_of_size_le (Nat.le_of_not_lt hr)]
      trivial
  · by_cases hl : m.index < w.models.size
    · have hempty : (w.models.get m).methods.isEmpty := hmodels m.index hl
      rw [Std.ExtTreeMap.isEmpty_iff] at hempty
      simp [hempty] at hm
    · rw [w.models.get_of_size_le (Nat.le_of_not_lt hl)] at hm
      simp [default, instInhabitedViewModel.default] at hm
  · rw [w.reactions.get_of_size_le (by rw [hreactions]; exact Nat.zero_le _)]
    trivial

def board : Markup :=
  .element "main" [] [.element "div" [] [.element "p" [("directive-text", "a")] [.text "?"]],
    .element "section" [] [.element "em" [("directive-text", "b")] []]]

def hangFirst : Step :=
  .mount none (.node 2) (some (.data (.object [("a", .string "1")]))) [] [] {}

def hangSecond : Step :=
  .mount (some "q") (.node 4) (some (.data (.object [("b", .string "x")]))) [] [] {}

def reviseNotes : List Step :=
  [.write none "a" (.data (.string "2")), .write (some "q") "b" (.data (.string "y"))]

theorem exists_board (before : List Step) (check : World → World → World → Bool)
    (h : ((World.ofTrees [board]).bind fun w₀ => (w₀.steps (Engine.ofFuel 4) before).bind fun p =>
      (p.2.step (Engine.ofFuel 4) hangSecond).bind fun q =>
        (q.2.steps (Engine.ofFuel 4) reviseNotes).map fun s => q.1.answer.isOk &&
          p.2.view.ordered && q.2.unscripted && check p.2 q.2 s.2) = some true) :
    ∃ (w w₁ w₂ : World) (outcomes : List Outcome), w.Reached ∧ w.view.Forest ∧ w.Mounts w₁ ∧
      w₁.Stored Step.LeavesTree ∧ w₁.steps (Engine.ofFuel 4) reviseNotes = some (outcomes, w₂) ∧
        check w w₁ w₂ := by
  obtain ⟨w₀, h₀, h⟩ := Option.bind_eq_some_iff.1 h
  obtain ⟨⟨past, w⟩, hbefore, h⟩ := Option.bind_eq_some_iff.1 h
  obtain ⟨⟨⟨answer, effects⟩, w₁⟩, hmount, h⟩ := Option.bind_eq_some_iff.1 h
  obtain ⟨⟨outcomes, w₂⟩, hrun, hc⟩ := Option.map_eq_some_iff.1 h
  simp only [Bool.and_eq_true] at hc
  obtain ⟨⟨⟨hok, hordered⟩, hscripts⟩, hc⟩ := hc
  cases answer with
  | error => cases hok
  | ok a =>
    exact ⟨w, w₁, w₂, outcomes, ⟨_, w₀, 4, before, past, h₀, hbefore⟩,
      View.forest_of_ordered hordered, ⟨4, _, _, _, _, _, _, a, effects, hmount⟩,
      stored_of_unscripted hscripts, hrun, hc⟩

theorem reviseNotes_leavesTree : Step.EveryAll Step.LeavesTree reviseNotes :=
  ⟨trivial, trivial, trivial⟩

/-- What the first note is in may take a text of its own. If the notes stay, both are written and no
node is made. -/
theorem text_settles_board : ∃ (w w₁ w₂ : World) (outcomes : List Outcome), w.Reached ∧
    w.Mounts w₁ ∧ w₁.steps (Engine.ofFuel 4) reviseNotes = some (outcomes, w₂) ∧
      w.view.Rewritten ⟨2⟩ "z" (w.view.write .text ⟨2⟩ "z") ∧
        (w₁.watchers.get ⟨0⟩).callback.shows? = some (.text, ⟨1⟩) ∧ w₁.alive (.watcher ⟨0⟩) ∧
          w₂.view.text ⟨5⟩ = "2y" ∧ w₁.view.nodes.size = 7 ∧
            w₂.view.nodes.size = w₁.view.nodes.size := by
  obtain ⟨w, w₁, w₂, outcomes, hw, hf, hmount, hstored, hrun, hc⟩ := exists_board [hangFirst]
    (fun w w₁ w₂ => w.watchers.size == 1 && decide (2 < w.view.nodes.size) &&
      (w.view.node ⟨2⟩).sort != .other &&
      (w₁.watchers.get ⟨0⟩).callback.shows? == some (.text, ⟨1⟩) && w₁.alive (.watcher ⟨0⟩) &&
        w₁.view.children ⟨1⟩ == [⟨0⟩] && (w₁.view.node ⟨0⟩).sort == .text &&
          w₂.view.text ⟨5⟩ == "2y" && w₁.view.nodes.size == 7) (by decide +kernel)
  simp only [Bool.and_eq_true, beq_iff_eq, bne_iff_ne, decide_eq_true_eq] at hc
  obtain ⟨⟨⟨⟨⟨⟨⟨⟨hone, hlt⟩, hother⟩, hshows⟩, halive⟩, hchild⟩, hsort⟩, htext⟩, hsize⟩ := hc
  obtain ⟨hwrite, hkeep⟩ := text_settles
  refine ⟨w, w₁, w₂, outcomes, hw, hmount, hrun, hwrite w.view ⟨2⟩ "z" hf hlt hother, hshows,
    halive, htext, hsize, ?_⟩
  refine hkeep w w₁ w₂ 4 reviseNotes outcomes hw hf hmount (fun r n hr hs => ?_) hstored
    reviseNotes_leavesTree hrun
  -- The first note is the only binding from before, and its text is where it was.
  obtain ⟨i⟩ := r
  obtain rfl : i = 0 := by
    rw [hone] at hr
    exact Nat.lt_one_iff.1 hr
  obtain rfl : ⟨1⟩ = n := (Prod.mk.inj (Option.some.inj (hshows.symm.trans hs))).2
  exact .inr fun _ => ⟨⟨0⟩, hchild, hsort⟩

/-- Where the text of the first note was taken off before the second was hung, a new one is made. -/
theorem text_made_again : ∃ (w w₁ w₂ : World) (outcomes : List Outcome), w.Reached ∧
    w.view.Forest ∧ w.Mounts w₁ ∧ w₁.Stored Step.LeavesTree ∧
      Step.EveryAll Step.LeavesTree reviseNotes ∧
        w₁.steps (Engine.ofFuel 4) reviseNotes = some (outcomes, w₂) ∧
          w₁.view.nodes.size = 7 ∧ w₂.view.nodes.size = 8 := by
  obtain ⟨w, w₁, w₂, outcomes, hw, hf, hmount, hstored, hrun, hc⟩ :=
    exists_board [hangFirst, .detach 1]
      (fun _ w₁ w₂ => w₁.view.nodes.size == 7 && w₂.view.nodes.size == 8) (by decide +kernel)
  simp only [Bool.and_eq_true, beq_iff_eq] at hc
  exact ⟨w, w₁, w₂, outcomes, hw, hf, hmount, hstored, reviseNotes_leavesTree, hrun, hc.1, hc.2⟩

end ViewBinding
