import Mathlib.Data.List.Perm.Subperm
import ViewBinding.Proofs.Course.Run
import ViewBinding.Proofs.FanOut

/-! The round of calls that a notification makes. Whatever updates do, fail, write, register and
drop subscribers or notify again, everyone who was there when it started is called once, in order,
and nobody else is. -/

namespace ViewBinding

/-- One call of an update: for whom, the world in which it starts, how it ends, and in which world.
-/
structure Call where
  subscriber : Subscriber
  start : World
  result : Except Fault Unit
  stop : World

namespace Call

def failed (c : Call) : Bool := !c.result.isOk

def after (c : Call) : World := World.afterTurn c.subscriber (c.result, c.stop)

/-- Whether a call goes as the update does. -/
def Made (update : Subscriber → Action Unit) (c : Call) : Prop :=
  update c.subscriber c.start = some (c.result, c.stop)

end Call

/-- Calls one after the other, from the world in which the first starts to the one after the last.
-/
inductive Round (update : Subscriber → Action Unit) : World → List Call → World → Prop
  | nil (w : World) : Round update w [] w
  | cons {c : Call} {cs : List Call} {w' : World} (h : c.Made update)
      (hs : Round update c.after cs w') : Round update c.start (c :: cs) w'

section

variable {update update' : Subscriber → Action Unit} {w w' : World} {live : List Subscriber}
  {calls : List Call}

theorem failedWith_eq (c : Call) (k : Nat) :
    failedWith c.result k = k + if c.failed then 1 else 0 := by
  obtain ⟨_, _, ⟨⟩, _⟩ := c <;> rfl

theorem Round.updateEach (h : Round update w calls w') :
    updateEach update (calls.map Call.subscriber) w =
      some (.ok (calls.countP Call.failed), w') := by
  induction h with
  | nil w => rfl
  | @cons c cs w' hc _ ih =>
    rw [List.map_cons, updateEach_cons, show update c.subscriber c.start = _ from hc,
      Option.bind_some, show World.afterTurn c.subscriber (c.result, c.stop) = c.after from rfl, ih,
      List.countP_cons, Option.map_some, ← failedWith_eq]
    rfl

/-- Updating one after the other is a round, or gets stuck in the first call that does not end. -/
theorem updateEach_round (update : Subscriber → Action Unit) (live : List Subscriber) (w : World) :
    (∃ calls w', Round update w calls w' ∧ calls.map Call.subscriber = live) ∨
      ∃ calls s rest w', Round update w calls w' ∧
        live = calls.map Call.subscriber ++ s :: rest ∧ update s w' = none := by
  induction live generalizing w with
  | nil => exact .inl ⟨[], w, .nil w, rfl⟩
  | cons s rest ih =>
    cases h : update s w with
    | none => exact .inr ⟨[], s, rest, w, .nil w, rfl, h⟩
    | some p =>
      let c : Call := ⟨s, w, p.1, p.2⟩
      have hc : c.Made update := h
      obtain ⟨cs, w', hr, hs⟩ | ⟨cs, s', rest', w', hr, hs, hn⟩ := ih c.after
      · exact .inl ⟨c :: cs, w', .cons hc hr, by rw [List.map_cons, hs]⟩
      · exact .inr ⟨c :: cs, s', rest', w', .cons hc hr, by rw [hs]; rfl, hn⟩

theorem Round.congr (h : Round update w calls w')
    (hu : ∀ c ∈ calls, update' c.subscriber c.start = update c.subscriber c.start) :
    Round update' w calls w' := by
  induction h with
  | nil w => exact .nil w
  | @cons c cs w' hc _ ih =>
    refine .cons ?_ (ih fun c' hc' => hu c' (List.mem_cons_of_mem c hc'))
    exact (hu c List.mem_cons_self).trans hc

theorem Round.append_inv {cs : List Call} (h : Round update w (calls ++ cs) w') :
    ∃ w₁, Round update w calls w₁ ∧ Round update w₁ cs w' := by
  induction calls generalizing w with
  | nil => exact ⟨w, .nil w, h⟩
  | cons c calls ih =>
    cases h with
    | cons hc hr =>
      obtain ⟨w₁, h₁, h₂⟩ := ih hr
      exact ⟨w₁, .cons hc h₁, h₂⟩

/-- Updating gets stuck after a round if the next call does not end. -/
theorem Round.stuck (h : Round update w calls w') {s : Subscriber} (hs : update s w' = none)
    (rest : List Subscriber) :
    ViewBinding.updateEach update (calls.map Call.subscriber ++ s :: rest) w = none := by
  induction h with
  | nil w => rw [List.map_nil, List.nil_append, updateEach_cons, hs, Option.bind_none]
  | @cons c cs w' hc _ ih =>
    rw [List.map_cons, List.cons_append, updateEach_cons,
      show update c.subscriber c.start = _ from hc, Option.bind_some]
    exact Option.map_eq_none_iff.2 (ih hs)

/-- Whether updates leave in use what others use. -/
def Holding (update : Subscriber → Action Unit) : Prop :=
  ∀ s w r w', s ∈ w.subscribersInUse → update s w = some (r, w') →
    w.subscribersInUse.Subperm w'.subscribersInUse

/-- What each call finds is so throughout a round if each call leaves it so for the next. Those
whose call is still to come stay in use, dropped or not. -/
theorem Round.each {I : World → Prop} (hu : Holding update)
    (hI : ∀ c : Call, c.Made update → c.subscriber ∈ c.start.subscribersInUse → I c.start →
      I c.after)
    (h : Round update w calls w') (hw : (calls.map Call.subscriber).Subperm w.subscribersInUse)
    (hi : I w) :
    ∀ c ∈ calls, c.Made update ∧ c.subscriber ∈ c.start.subscribersInUse ∧ I c.start := by
  induction h with
  | nil w => exact fun _ hc => absurd hc List.not_mem_nil
  | @cons c cs w' hc _ ih =>
    have hs : c.subscriber ∈ c.start.subscribersInUse := hw.subset List.mem_cons_self
    have hafter : c.after.subscribersInUse = c.stop.subscribersInUse.erase c.subscriber := by
      obtain ⟨_, _, ⟨⟩, _⟩ := c <;> rfl
    have hrest : (cs.map Call.subscriber).Subperm c.after.subscribersInUse := by
      rw [hafter, ← List.erase_cons_head c.subscriber (cs.map Call.subscriber)]
      exact (hw.trans (hu _ _ _ _ hs hc)).erase _
    intro c' hc'
    obtain rfl | hc' := List.mem_cons.1 hc'
    · exact ⟨hc, hs, hi⟩
    · exact ih hrest (hI c hc hs hi) c' hc'

theorem Round.alive (hu : Holding update) (h : Round update w calls w')
    (hw : (calls.map Call.subscriber).Subperm w.subscribersInUse) :
    ∀ c ∈ calls, c.start.alive c.subscriber := by
  intro c hc
  obtain ⟨-, hs, -⟩ := h.each hu (I := fun _ => True) (fun _ _ _ _ => trivial) hw trivial c hc
  exact World.alive_of_mem_inUse hs

end

theorem Subscriber.update_holding (n : Nat) : Holding (Subscriber.update (Engine.ofFuel n)) := by
  intro s w r w' hs h
  have hu : w'.uses = w.uses :=
    (Subscriber.update_proceeds (P := fun _ => True) (Engine.proceeds n) hs w r w' rfl
      (w.stored_of_forall fun _ => trivial) h).1
  rw [(Uses.mk.inj hu).2]

/-- What a notification comes to that lasts for a round: who was called, what it answers, that it
does nothing with an update but these calls, and that it makes each of them. While updates leave in
use what others use, everyone is alive when called. -/
structure Notified (notify : (Subscriber → Action Unit) → Option (Except Fault Nat × World))
    (update : Subscriber → Action Unit) (live : List Subscriber) (opening : World)
    (calls : List Call) (w' : World) : Prop where
  round : Round update opening calls w'
  whom : calls.map Call.subscriber = live
  answer : notify update = some (.ok (calls.countP Call.failed), w')
  only : ∀ update' : Subscriber → Action Unit,
    (∀ c ∈ calls, update' c.subscriber c.start = update c.subscriber c.start) →
      notify update' = notify update
  each : ∀ (before : List Call) (c : Call) (rest : List Call), calls = before ++ c :: rest →
    ∀ update' : Subscriber → Action Unit,
      (∀ c' ∈ before, update' c'.subscriber c'.start = update c'.subscriber c'.start) →
        update' c.subscriber c.start = none → notify update' = none
  alive : Holding update → ∀ c ∈ calls, c.start.alive c.subscriber

/-- A notification lasts for a round, or it never ends because a call does not. -/
def Notifies (notify : (Subscriber → Action Unit) → Option (Except Fault Nat × World))
    (update : Subscriber → Action Unit) (live : List Subscriber) (opening : World) : Prop :=
  live.Nodup ∧ ((∃ calls w', Notified notify update live opening calls w') ∨
    ∃ calls s rest w', Round update opening calls w' ∧
      live = calls.map Call.subscriber ++ s :: rest ∧ update s w' = none ∧ notify update = none)

theorem updateEach_notifies (update : Subscriber → Action Unit) {live : List Subscriber}
    (hl : live.Nodup) {opening : World} (ho : live.Subperm opening.subscribersInUse) :
    Notifies (updateEach · live opening) update live opening := by
  refine ⟨hl, ?_⟩
  obtain ⟨calls, w', hr, rfl⟩ | ⟨calls, s, rest, w', hr, rfl, hs⟩ :=
    updateEach_round update live opening
  · refine .inl ⟨calls, w', hr, rfl, hr.updateEach, ?_, ?_, fun hu => hr.alive hu ho⟩
    · intro update' hu
      exact (hr.congr hu).updateEach.trans hr.updateEach.symm
    · rintro before c rest rfl update' hu hn
      obtain ⟨w₁, hbefore, hrest⟩ := hr.append_inv
      cases hrest
      rw [List.map_append, List.map_cons]
      exact (hbefore.congr hu).stuck hn _
  · exact .inr ⟨calls, s, rest, w', hr, rfl, hs, hr.stuck hs rest⟩

section

variable {source : Source} {w : World}

/-- A notification calls once, in order, everyone who is registered and alive when it starts, and
nobody else, whatever the updates do meanwhile; and it answers how many of these calls failed.
That is so for a registry in its place and for one that was taken away. -/
theorem Source.notify_round (update : Subscriber → Action Unit) (hs : (w.registry source).Sound) :
    Notifies (fun update => source.notify update w) update
        ((w.registry source).order.filter w.alive)
        ((w.setRegistry source ((w.registry source).prune w.alive)).useSubscribers
          ((w.registry source).order.filter w.alive)) ∧
      Notifies (fun update => (w.registry source).notify update w) update
        ((w.registry source).order.filter w.alive)
        (w.useSubscribers ((w.registry source).order.filter w.alive)) := by
  have hl := hs.nodup.filter w.alive
  constructor
  · simp only [Source.notify_apply]
    exact updateEach_notifies update hl (List.sublist_append_left ..).subperm
  · exact updateEach_notifies update hl (List.sublist_append_left ..).subperm

end

/-- The first of a registry drops the second, brings in a new one and fails. The second notifies the
same registry once more, and another one is gone. -/
def crowd : List Step :=
  [.build none (some (.data (.object [("n", .null)]))) [] [],
    .registry "r",
    .react "a" [.dropReaction "b", .react "d" [], .register "r" "d", .fail "a"],
    .react "b" [.cond (.same (.get none "n") (.data .null))
      [.write none "n" (.data (.string "1")), .notify "r"] []],
    .react "c" [], .react "gone" [],
    .register "r" "a", .register "r" "b", .register "r" "gone", .register "r" "c",
    .dropReaction "gone"]

theorem Source.notify_round_crowd : ∃ (w : World) (calls : List Call) (w' : World),
    (w.registry (.registry ⟨0⟩)).Sound ∧
      Notified (fun update => (Source.registry ⟨0⟩).notify update w)
        (Subscriber.update (Engine.ofFuel 4))
        [.reaction ⟨0⟩, .reaction ⟨1⟩, .reaction ⟨2⟩]
        ((w.setRegistry (.registry ⟨0⟩) ((w.registry (.registry ⟨0⟩)).prune w.alive)).useSubscribers
          [.reaction ⟨0⟩, .reaction ⟨1⟩, .reaction ⟨2⟩]) calls w' ∧
      calls.countP Call.failed = 1 ∧ .reaction ⟨4⟩ ∈ (w'.registry (.registry ⟨0⟩)).order := by
  obtain ⟨w, hw, hc⟩ := Moment.exists_of_run 4 [] crowd
    (fun w => (w.registry (.registry ⟨0⟩)).order.filter w.alive =
        [.reaction ⟨0⟩, .reaction ⟨1⟩, .reaction ⟨2⟩] ∧
      ((Source.registry ⟨0⟩).notify (Subscriber.update (Engine.ofFuel 4)) w).any fun p =>
        p.1.toOption = some 1 ∧ .reaction ⟨4⟩ ∈ (p.2.registry (.registry ⟨0⟩)).order)
    (by simp [crowd, Step.AllPlain, Step.Plain, Step.PlainMethods, Expr.IsOwn])
    (by decide +kernel)
  simp only [decide_eq_true_eq, Option.any_eq_true] at hc
  obtain ⟨hlive, ⟨r, w'⟩, hnotify, hr, hmem⟩ := hc
  have hs := hw.quiet.valid.sound (.registry ⟨0⟩)
  obtain ⟨⟨-, h⟩, -⟩ := Source.notify_round (Subscriber.update (Engine.ofFuel 4)) hs
  rw [hlive] at h
  obtain ⟨calls, w'', h⟩ | ⟨_, _, _, _, -, -, -, hn⟩ := h
  · cases hnotify.symm.trans h.answer
    exact ⟨w, calls, w', hs, h, Option.some.inj hr, hmem⟩
  · cases hnotify.symm.trans hn

end ViewBinding
