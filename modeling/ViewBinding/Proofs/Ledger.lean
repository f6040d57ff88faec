import ViewBinding.Proofs.Rounds

/-! Registries as ordered sets. Subscribers may be gone at any time, and a registry only forgets
them when it is next notified; all the same it works as the list of those who are alive would. -/

namespace ViewBinding

variable {r : Registry} {alive alive' : Subscriber → Bool} {s : Subscriber}
  {added gone live : List Subscriber} {w : World} {source : Source}

namespace Registry

def add (r : Registry) (s : Subscriber) : Registry := (r.add? s).getD r

/-- What was done with a registry since it was empty: who was added, in order and as often as that
was, and who was forgotten. At any time subscribers may come and go, but nobody who was forgotten
because it was gone comes back. -/
inductive Ledger : List Subscriber → List Subscriber → Registry → (Subscriber → Bool) → Prop
  | empty (alive : Subscriber → Bool) : Ledger [] [] {} alive
  | add {added gone : List Subscriber} {r : Registry} {alive : Subscriber → Bool}
      (s : Subscriber) : Ledger added gone r alive → Ledger (added ++ [s]) gone (r.add s) alive
  | prune {added gone : List Subscriber} {r : Registry} {alive : Subscriber → Bool} :
      Ledger added gone r alive →
      Ledger added (gone ++ r.order.filter fun s => !alive s) (r.prune alive) alive
  | pass {added gone : List Subscriber} {r : Registry} {alive alive' : Subscriber → Bool} :
      Ledger added gone r alive → (∀ s ∈ gone, alive' s = false) → Ledger added gone r alive'

/-- Whether a registry is an ordered set of those who are alive, whoever else it has not forgotten
yet. -/
structure Lists (r : Registry) (alive : Subscriber → Bool) (live : List Subscriber) : Prop where
  nodup : r.order.Nodup
  members : ∀ s, s ∈ r.order ↔ s ∈ r.members
  /-- Those in it who are alive, in order. -/
  living : r.live alive = live
  /-- Who is in it cannot be added again. -/
  known : ∀ s ∈ live, r.add? s = none
  /-- Who is alive and not in it can be added, and then comes last. -/
  newcomer : ∀ s, alive s → s ∉ live → ∃ r', r.add? s = some r' ∧ r'.order = r.order ++ [s] ∧
    r'.live alive = live ++ [s]
  /-- If it forgets who is gone, just the others are left. -/
  pruned : (r.prune alive).order = live ∧ ∀ s, s ∈ (r.prune alive).members ↔ s ∈ live

theorem add_of_mem (h : s ∈ r.members) : r.add s = r := by
  rw [add, (add?_eq_none_iff r s).2 h]
  rfl

theorem add?_of_not_mem (h : s ∉ r.members) : r.add? s = some (r.add s) := by
  cases hr : r.add? s with
  | none => exact absurd ((add?_eq_none_iff r s).1 hr) h
  | some r' =>
    rw [add, hr]
    rfl

/-- What a ledger says about its registry. Those who were added and not forgotten are the same, in
the same order, as those in the registry, whoever is alive. -/
structure Reconciled (added gone : List Subscriber) (r : Registry) (alive : Subscriber → Bool) :
    Prop where
  sound : r.Sound
  listed : ∀ s ∈ r.order, s ∈ added
  dead : ∀ s ∈ gone, alive s = false
  agree : r.order.filter (· ∉ gone) = added.eraseDups.filter (· ∉ gone)

namespace Reconciled

theorem mem_members_iff (h : Reconciled added gone r alive) (hs : s ∉ gone) :
    s ∈ r.members ↔ s ∈ added := by
  have hmem : s ∈ r.order.filter (· ∉ gone) ↔ s ∈ added.eraseDups.filter (· ∉ gone) := by
    rw [h.agree]
  rw [← h.sound.members]
  simpa [hs] using hmem

theorem empty (alive : Subscriber → Bool) : Reconciled [] [] {} alive where
  sound := .empty
  listed _ hs := hs
  dead _ hs := absurd hs List.not_mem_nil
  agree := rfl

theorem add (h : Reconciled added gone r alive) (s : Subscriber) :
    Reconciled (added ++ [s]) gone (r.add s) alive := by
  have hdups : (added ++ [s]).eraseDups = added.eraseDups ++ if s ∈ added then [] else [s] := by
    rw [List.eraseDups_append]
    by_cases hs : s ∈ added <;> simp [List.removeAll, hs, List.eraseDups_cons]
  by_cases hs : s ∈ r.members
  · have hadded : s ∈ added := h.listed s ((h.sound.members s).2 hs)
    rw [add_of_mem hs]
    refine ⟨h.sound, fun t ht => List.mem_append_left _ (h.listed t ht), h.dead, ?_⟩
    rw [hdups, if_pos hadded, List.append_nil, h.agree]
  · have hadd := add?_of_not_mem hs
    have horder := order_add? hadd
    refine ⟨h.sound.add? hadd, fun t ht => ?_, h.dead, ?_⟩
    · rw [horder] at ht
      exact List.mem_append.2 ((List.mem_append.1 ht).imp_left (h.listed t))
      -- Who was forgotten may come again at the end, where the filter takes it out once more.
    · rw [horder, hdups, List.filter_append, List.filter_append, h.agree]
      congr 1
      by_cases hgone : s ∈ gone
      · by_cases hadded : s ∈ added <;> simp [hgone, hadded]
      · rw [if_neg (mt (h.mem_members_iff hgone).2 hs)]

theorem prune (h : Reconciled added gone r alive) :
    Reconciled added (gone ++ r.order.filter fun s => !alive s) (r.prune alive) alive where
  sound := h.sound.prune alive
  listed s hs := h.listed s (List.mem_filter.1 hs).1
  dead s hs := by
    obtain hs | hs := List.mem_append.1 hs
    · exact h.dead s hs
    · simpa using (List.mem_filter.1 hs).2
  agree := by
    have hsplit (l : List Subscriber) :
        l.filter (· ∉ gone ++ r.order.filter fun s => !alive s) =
          (l.filter (· ∉ gone)).filter (· ∉ r.order.filter fun s => !alive s) := by
      rw [List.filter_filter]
      refine List.filter_congr fun s _ => ?_
      simp only [List.mem_append, not_or, Bool.decide_and, Bool.and_comm]
    -- All who leave the order now count as gone, so the filter has nobody else to take out.
    have hliving : (r.prune alive).order.filter (· ∉ gone ++ r.order.filter fun s => !alive s) =
        r.order.filter (· ∉ gone ++ r.order.filter fun s => !alive s) := by
      rw [Registry.prune, live, List.filter_filter]
      refine List.filter_congr fun s hs => ?_
      cases hlive : alive s <;> simp [hs, hlive]
    rw [hliving, hsplit, hsplit, h.agree]

theorem pass (h : Reconciled added gone r alive) (hgone : ∀ s ∈ gone, alive' s = false) :
    Reconciled added gone r alive' := ⟨h.sound, h.listed, hgone, h.agree⟩

theorem living (h : Reconciled added gone r alive) :
    r.live alive = added.eraseDups.filter alive := by
  have hfilter (l : List Subscriber) : l.filter alive = (l.filter (· ∉ gone)).filter alive := by
    rw [List.filter_filter]
    refine List.filter_congr fun s _ => ?_
    cases hlive : alive s with
    | false => rfl
    | true =>
      have hs : s ∉ gone := fun hs => Bool.eq_false_iff.1 (h.dead s hs) hlive
      simp [hs]
  rw [live, hfilter, h.agree, ← hfilter]

theorem lists (h : Reconciled added gone r alive) :
    r.Lists alive (added.eraseDups.filter alive) where
  nodup := h.sound.nodup
  members := h.sound.members
  living := h.living
  known s hs := by
    rw [← h.living] at hs
    exact (add?_eq_none_iff r s).2 ((h.sound.members s).1 (List.mem_filter.1 hs).1)
  newcomer s hlive hs := by
    rw [← h.living, live, List.mem_filter, h.sound.members] at hs
    have hadd := add?_of_not_mem fun hmem => hs ⟨hmem, hlive⟩
    have horder := order_add? hadd
    refine ⟨r.add s, hadd, horder, ?_⟩
    rw [live, horder, List.filter_append, ← h.living, List.filter_singleton, hlive]
    rfl
  pruned := ⟨h.living, fun s => by rw [← h.prune.sound.members, ← h.living]; rfl⟩

end Reconciled

theorem Ledger.reconciled (h : Ledger added gone r alive) : Reconciled added gone r alive := by
  induction h with
  | empty alive => exact .empty alive
  | add s _ ih => exact ih.add s
  | prune _ ih => exact ih.prune
  | pass _ hgone ih => exact ih.pass hgone

/-- A registry is an ordered set of subscribers who are alive: of those who were ever added to it
and are not gone, each in the place where it was added first. -/
theorem Ledger.lists (h : Ledger added gone r alive) :
    r.Lists alive (added.eraseDups.filter alive) := h.reconciled.lists

end Registry

namespace World

/-- Whether the registry of a source works as an ordered set of those who are alive: for a reading
that registers its subscriber, for the number of subscribers, and for a notification. -/
structure Keeps (w : World) (source : Source) (live : List Subscriber) : Prop
    extends (w.registry source).Lists w.alive live where
  again : ∀ s ∈ live, ∀ n, Reading.register source ⟨some s, n⟩ w =
    some ((.ok (), ⟨some s, n⟩), w)
  first : ∀ s, w.alive s → s ∉ live → ∀ n, ∃ w', Reading.register source ⟨some s, n⟩ w =
      some ((.ok (), ⟨some s, n + 1⟩), w') ∧
    (w'.registry source).order = (w.registry source).order ++ [s] ∧ w'.due source = live ++ [s]
  count : Script.subscriberCount w source = live.length
  /-- A notification first forgets who is gone, and then updates the others. -/
  notify : ∀ update, source.notify update w = updateEach update live
    ((w.setRegistry source ((w.registry source).prune w.alive)).useSubscribers live)

theorem alive_setRegistry (w : World) (source : Source) (registry : Registry) :
    (w.setRegistry source registry).alive = w.alive := by
  cases source <;> rfl

theorem register_eq (s : Subscriber) (n : Nat) (source : Source) (w : World) :
    Reading.register source ⟨some s, n⟩ w = match (w.registry source).add? s with
      | some registry => some ((.ok (), ⟨some s, n + 1⟩), w.setRegistry source registry)
      | none => some ((.ok (), ⟨some s, n⟩), w) := by
  rw [Reading.register_apply, Mark.leave]
  dsimp only
  cases (w.registry source).add? s <;> rfl

end World

theorem Registry.Lists.keeps (h : (w.registry source).Lists w.alive live) (hs : source.Within w) :
    w.Keeps source live where
  toLists := h
  again s hknown n := by rw [World.register_eq, h.known s hknown]
  first s hlive hnew n := by
    obtain ⟨registry, hadd, horder, hdue⟩ := h.newcomer s hlive hnew
    refine ⟨w.setRegistry source registry, by rw [World.register_eq, hadd], ?_, ?_⟩
    · rw [World.registry_setRegistry_self hs, horder]
    · rw [World.due, World.registry_setRegistry_self hs, World.alive_setRegistry, hdue]
  count := congrArg List.length h.living
  notify update := by
    have hdue : w.due source = live := h.living
    rw [Source.notify_apply, hdue]

/-- A registry that a source has keeps those who are alive of all who were ever added to it, each
in the place where it was added first, whoever was gone or notified meanwhile. -/
theorem Registry.Ledger.keeps_live (hs : source.Within w)
    (h : Ledger added gone (w.registry source) w.alive) :
    w.Keeps source (added.eraseDups.filter w.alive) := h.lists.keeps hs

theorem Registry.Sound.ext {r' : Registry} (h : r.Sound) (h' : r'.Sound)
    (he : r.order = r'.order) : r = r' := by
  obtain ⟨order, members⟩ := r
  obtain ⟨order', members'⟩ := r'
  cases he
  have hm : members = members' := Std.ExtTreeSet.ext_mem fun s =>
    (h.members s).symm.trans (h'.members s)
  rw [hm]

/-- One subscriber is added twice, one is gone and forgotten, and another is gone and not forgotten
yet. -/
def guestbook : List Step :=
  [.registry "r", .react "a" [], .react "b" [], .react "c" [], .react "d" [],
    .register "r" "a", .register "r" "b", .register "r" "a", .dropReaction "b", .notify "r",
    .register "r" "c", .register "r" "d", .dropReaction "c"]

theorem Registry.keeps_live_guestbook : ∃ w : World, Moment {} w ∧
    (Source.registry ⟨0⟩).Within w ∧
      Ledger [.reaction ⟨0⟩, .reaction ⟨1⟩, .reaction ⟨0⟩, .reaction ⟨2⟩, .reaction ⟨3⟩]
        [.reaction ⟨1⟩] (w.registry (.registry ⟨0⟩)) w.alive ∧
      (w.registry (.registry ⟨0⟩)).order = [.reaction ⟨0⟩, .reaction ⟨2⟩, .reaction ⟨3⟩] ∧
      w.Keeps (.registry ⟨0⟩) [.reaction ⟨0⟩, .reaction ⟨3⟩] := by
  obtain ⟨w, hw, hc⟩ := Moment.exists_of_run 4 [] guestbook
    (fun w => (0 < w.registries.size) ∧
      (w.registry (.registry ⟨0⟩)).order = [.reaction ⟨0⟩, .reaction ⟨2⟩, .reaction ⟨3⟩] ∧
      w.alive (.reaction ⟨0⟩) ∧ w.alive (.reaction ⟨1⟩) = false ∧
      w.alive (.reaction ⟨2⟩) = false ∧ w.alive (.reaction ⟨3⟩))
    (by simp [guestbook, Step.AllPlain, Step.Plain])
    (by decide +kernel)
  simp only [decide_eq_true_eq] at hc
  obtain ⟨hsize, horder, ha, hb, hc, hd⟩ := hc
  have hwithin : (Source.registry ⟨0⟩).Within w := hsize
  have hbefore : Ledger _ [] _ (· ≠ .reaction ⟨1⟩) :=
    (((Ledger.empty fun _ => true).add (.reaction ⟨0⟩)).add (.reaction ⟨1⟩)).add
      (.reaction ⟨0⟩) |>.pass (List.forall_mem_nil _)
  have hl := (hbefore.prune.add (.reaction ⟨2⟩)).add (.reaction ⟨3⟩)
  have hsame := hl.reconciled.sound.ext (hw.quiet.valid.sound (.registry ⟨0⟩))
    ((by decide +kernel : _ = [.reaction ⟨0⟩, .reaction ⟨2⟩, .reaction ⟨3⟩]).trans horder.symm)
  rw [hsame] at hl
  have hledger : Ledger _ _ (w.registry (.registry ⟨0⟩)) w.alive := hl.pass fun s hs => by
    have hs : s = .reaction ⟨1⟩ := by simpa using (List.mem_filter.1 hs).2
    rw [hs, hb]
  have hkeeps := hledger.keeps_live hwithin
  rw [← hkeeps.living, live, horder] at hkeeps
  simp only [List.filter, ha, hc, hd] at hkeeps
  exact ⟨w, hw, hwithin, hledger, horder, hkeeps⟩

end ViewBinding
