import ViewBinding.Proofs.Guests.Run

/-! Guests do not interfere: what two runs have in common that differ in their guests and in the
ways in which their callbacks end. -/

namespace ViewBinding

variable {α β γ : Type} {G : List String} {p q : Pairing}

def Pairing.span (p q : Pairing) : Pairing where
  pair a b := ∃ c, p.pair a c ∧ q.pair b c
  guest := p.guest

theorem Pairing.OneToOne.span (hp : p.OneToOne) (hq : q.OneToOne) : (p.span q).OneToOne := by
  rintro k a a' b b' ⟨c, hac, hbc⟩ ⟨c', hac', hbc'⟩
  exact (hp hac hac').trans (hq hbc hbc').symm

/-! Things that are the same as one thing are the same. -/

theorem optionRel_span {R : α → γ → Prop} {S : β → γ → Prop} {T : α → β → Prop}
    (hT : ∀ a b c, R a c → S b c → T a b) {a : Option α} {b : Option β} {c : Option γ}
    (h : Option.Rel R a c) (h' : Option.Rel S b c) : Option.Rel T a b := by
  cases h with
  | none =>
    cases h' with
    | none => exact .none
  | some hr =>
    cases h' with
    | some hs => exact .some (hT _ _ _ hr hs)

theorem forall₂_span {R : α → γ → Prop} {S : β → γ → Prop} {T : α → β → Prop}
    (hT : ∀ a b c, R a c → S b c → T a b) {as : List α} {bs : List β} {cs : List γ}
    (h : List.Forall₂ R as cs) (h' : List.Forall₂ S bs cs) : List.Forall₂ T as bs := by
  induction h generalizing bs with
  | nil =>
    cases h' with
    | nil => exact .nil
  | cons hr _ ih =>
    cases h' with
    | cons hs hbs => exact .cons (hT _ _ _ hr hs) (ih hbs)

theorem EndsAlike.span {R : α → γ → Prop} {S : β → γ → Prop} {T : α → β → Prop}
    (hT : ∀ a b c, R a c → S b c → T a b) {a : Except Fault α} {b : Except Fault β}
    {c : Except Fault γ} (h : EndsAlike R a c) (h' : EndsAlike S b c) : EndsAlike T a b := by
  cases a <;> cases c <;> first | exact False.elim h | skip
  · cases b with
    | error g => exact Eq.trans h (Eq.symm h')
    | ok b => exact False.elim h'
  · cases b with
    | error g => exact False.elim h'
    | ok b => exact hT _ _ _ h h'

mutual

theorem Value.Twin.span : ∀ {u v x : Value}, u.Twin p x → v.Twin q x → u.Twin (p.span q) v
  | _, _, _, .null, .null => .null
  | _, _, _, .bool b, .bool _ => .bool b
  | _, _, _, .number x, .number _ => .number x
  | _, _, _, .string s, .string _ => .string s
  | _, _, _, .array ha hs, .array hb ht => .array ⟨_, ha, hb⟩ (Value.Twins.span hs ht)
  | _, _, _, .object ha, .object hb => .object ⟨_, ha, hb⟩

theorem Value.Twins.span : ∀ {us vs xs : List Value}, Value.Twins p us xs → Value.Twins q vs xs →
    Value.Twins (p.span q) us vs
  | _, _, _, .nil, .nil => .nil
  | _, _, _, .cons h hs, .cons h' hs' => .cons (Value.Twin.span h h') (Value.Twins.span hs hs')

end

theorem Slot.Twin.span {s t x : Slot} (h : s.Twin p x) (h' : t.Twin q x) : s.Twin (p.span q) t := by
  cases s <;> cases x <;> cases t <;> first | exact False.elim h | exact False.elim h' | skip
  · exact ⟨_, h, h'⟩
  · exact Eq.trans h (Eq.symm h')

theorem Effect.Twin.span {e f x : Effect} (h : e.Twin p x) (h' : f.Twin q x) :
    e.Twin (p.span q) f := by
  cases x <;> cases e <;> first | (cases h; done) | skip
  all_goals cases f <;> first | (cases h'; done) | skip
  all_goals
    first
      | exact ⟨h.1.trans h'.1.symm, h.2.1.span h'.2.1, h.2.2.span h'.2.2⟩
      | exact Value.Twin.span h h'
      | exact Eq.trans h (Eq.symm h')

theorem Answer.Twin.span {a b x : Answer} (h : a.Twin p x) (h' : b.Twin q x) :
    a.Twin (p.span q) b := by
  have hends (r s t : Except Fault Value) (h : EndsAlike (Value.Twin p) r t)
      (h' : EndsAlike (Value.Twin q) s t) : EndsAlike (Value.Twin (p.span q)) r s :=
    h.span (fun _ _ _ hv hv' => hv.span hv') h'
  cases x <;> cases a <;> first | (cases h; done) | skip
  all_goals cases b <;> first | (cases h'; done) | skip
  all_goals
    first
      | exact Value.Twin.span h h'
      | exact ⟨h.1.span h'.1, h.2.trans h'.2.symm⟩
      | exact ⟨h.1.trans h'.1.symm, h.2.trans h'.2.symm⟩
      | exact ⟨forall₂_span hends h.1 h'.1, h.2.trans h'.2.symm⟩
      | exact Eq.trans h (Eq.symm h')
      | trivial

theorem Outcome.Twin.span {o o' x : Outcome} (h : o.Twin G p x) (h' : o'.Twin G q x) :
    o.Twin G (p.span q) o' :=
  ⟨h.answer.span (fun _ _ _ ha ha' => ha.span ha') h'.answer,
    forall₂_span (fun _ _ _ he he' => he.span he') h.effects h'.effects⟩

theorem Pairing.same_span {s s' : Subscriber} (h : (p.span q).same s s') :
    ∃ t, p.same s t ∧ q.same s' t := by
  cases s <;> cases s' <;> first | exact False.elim h | skip
  · obtain ⟨c, hc, hc'⟩ := h
    exact ⟨.watcher c, hc, hc'⟩
  · exact ⟨.reaction _, rfl, Eq.symm h⟩

theorem Pairing.span_same {s s' t : Subscriber} (h : p.same s t) (h' : q.same s' t) :
    (p.span q).same s s' := by
  cases s <;> cases t <;> first | exact False.elim h | skip
  · cases s' with
    | watcher r => exact ⟨_, h, h'⟩
    | reaction r => exact False.elim h'
  · cases s' with
    | watcher r => exact False.elim h'
    | reaction r => exact Eq.trans h (Eq.symm h')

theorem Source.Twin.of_span {s s' : Source} (h : s.Twin (p.span q) s') :
    ∃ t, s.Twin p t ∧ s'.Twin q t := by
  cases s <;> cases s' <;> first | exact False.elim h | skip
  · obtain ⟨c, hc, hc'⟩ := h
    exact ⟨.cell c, hc, hc'⟩
  · obtain ⟨⟨o, ho, ho'⟩, rfl⟩ := h
    exact ⟨.waiting o _, ⟨ho, rfl⟩, ho', rfl⟩
  · exact ⟨.registry _, rfl, Eq.symm h⟩

/-! Worlds that are the same but for guests. -/

/-- What a callback does, whatever guests come with it and however it ends. -/
def Callback.core (G : List String) : Callback → Callback
  | .run id steps => .run id (Step.coreCallback G steps)
  | callback => callback

theorem Callback.Twin.core {callback callback' : Callback} (h : callback.Twin G callback') :
    callback' = callback.core G := by cases h <;> rfl

structure Watcher.Alike (G : List String) (p : Pairing) (w w' : Watcher) : Prop where
  model : w.model = w'.model
  path : w.path = w'.path
  callback : w.callback.core G = w'.callback.core G
  value : w.value.Twin p w'.value

namespace World

def IsGuest (G : List String) (w : World) (r : Ref .watcher) : Prop := (w.watchers.get r).Guest G

def IsStranger (G : List String) (w : World) : Subscriber → Prop
  | .watcher r => w.IsGuest G r
  | .reaction _ => False

/-- The same world in two runs, each of which has guests of its own. -/
structure Alike (G : List String) (p : Pairing) (w w' : World) : Prop where
  oneToOne : p.OneToOne
  graph : w.SameGraph p w'
  exports : ∀ o o', p.pair o o' → w.export? o = w'.export? o'
  models : w.names.models = w'.names.models
  modelAlive : ∀ m, w.modelAlive m = w'.modelAlive m
  roots : ∀ m, w.modelAlive m → p.pair (w.models.get m).data (w'.models.get m).data
  values : ∀ name : String, Option.Rel (Value.Twin p) w.names.values[name]? w'.names.values[name]?
  cells : ∀ id : String, Option.Rel p.pair w.names.cells[id]? w'.names.cells[id]?
  held : ∀ id ∉ G, Option.Rel p.pair w.names.watchers.held[id]? w'.names.watchers.held[id]?
  /-- Every watcher is a guest or is in both runs. -/
  made : Meshed (w.IsGuest G) (w'.IsGuest G) p.pair w.watchers.refs w'.watchers.refs
  watchers : ∀ r r', p.pair r r' → (w.watchers.get r).Alike G p (w'.watchers.get r')
  owned : ∀ m, w.modelAlive m → Meshed (w.IsGuest G) (w'.IsGuest G) p.pair
    (w.models.get m).watchers (w'.models.get m).watchers
  registered : ∀ source source', source.Twin p source' →
    Meshed (w.IsStranger G) (w'.IsStranger G) p.same (w.registry source).order
      (w'.registry source').order
  alive : ∀ s s', p.same s s' → w.alive s = w'.alive s'
  view : w.view = w'.view
  knownNodes : w.knownNodes = w'.knownNodes

variable {w w' u : World}

theorem Twin.isStranger (h : w.Twin G p u) {s : Subscriber} (hs : p.stranger s) :
    w.IsStranger G s := by
  cases s with
  | watcher r => exact h.guests r hs
  | reaction r => exact hs

theorem Twin.meshed (h : w.Twin G p u) (h' : w'.Twin G q u) {rs rs' ts : List (Ref .watcher)}
    (hr : Interlaced p.guest p.pair rs ts) (hr' : Interlaced q.guest q.pair rs' ts) :
    Meshed (w.IsGuest G) (w'.IsGuest G) (p.span q).pair rs rs' :=
  (hr.mono h.guests fun _ _ => id).mesh (hr'.mono h'.guests fun _ _ => id)

theorem Twin.export_eq (h : w.Twin G p u) {o o' : Ref .object} (ho : p.pair o o') :
    w.export? o = u.export? o' := by
  refine Option.ext fun d => ⟨h.export? ho, fun hd => ?_⟩
  exact h.graph.flip.export_agree.within (fun _ _ ho => (h.object_made ho).1) _ o' o ho d hd

theorem Twin.alike (h : w.Twin G p u) (h' : w'.Twin G q u) : w.Alike G (p.span q) w' where
  oneToOne := Pairing.OneToOne.span h.fits.oneToOne h'.fits.oneToOne
  graph :=
    { slots := fun o o' ⟨x, hx, hx'⟩ key => optionRel_span (fun _ _ _ hs hs' => hs.span hs')
        (h.graph.slots o x hx key) (h'.graph.slots o' x hx' key)
      value := fun c c' ⟨x, hx, hx'⟩ => (h.value hx).span (h'.value hx') }
  exports := fun o o' ⟨x, hx, hx'⟩ => (h.export_eq hx).trans (h'.export_eq hx').symm
  models := h.names.models.trans h'.names.models.symm
  modelAlive m := (h.modelAlive m).trans (h'.modelAlive m).symm
  roots m hm := by
    have hm' : w'.modelAlive m := by rwa [h'.modelAlive, ← h.modelAlive]
    exact ⟨_, (h.models m m (h.pair_of_modelAlive hm)).data,
      (h'.models m m (h'.pair_of_modelAlive hm')).data⟩
  values name := optionRel_span (fun _ _ _ hv hv' => hv.span hv') (h.names.values name)
    (h'.names.values name)
  cells id := optionRel_span (fun _ _ c hc hc' => ⟨c, hc, hc'⟩) (h.names.cells id)
    (h'.names.cells id)
  held id hid := optionRel_span (fun _ _ r hr hr' => ⟨r, hr, hr'⟩) (h.names.watchers id hid)
    (h'.names.watchers id hid)
  made := h.meshed h' h.listed h'.listed
  watchers := fun r r' ⟨t, ht, ht'⟩ => by
    have hr := h.watchers r t ht
    have hr' := h'.watchers r' t ht'
    exact ⟨hr.model.trans hr'.model.symm, hr.path.trans hr'.path.symm,
      hr.callback.core.symm.trans hr'.callback.core, hr.value.span hr'.value⟩
  owned m hm := by
    have hm' : w'.modelAlive m := by rwa [h'.modelAlive, ← h.modelAlive]
    exact h.meshed h' (h.models m m (h.pair_of_modelAlive hm)).watchers
      (h'.models m m (h'.pair_of_modelAlive hm')).watchers
  registered source source' hs := by
    obtain ⟨t, ht, ht'⟩ := hs.of_span
    have hr := (h.registry ht).order.mono (fun _ hs => h.isStranger hs) fun _ _ => id
    have hr' := (h'.registry ht').order.mono (fun _ hs => h'.isStranger hs) fun _ _ => id
    exact (hr.mesh hr').mono fun _ _ ⟨_, hs, hs'⟩ => Pairing.span_same hs hs'
  alive s s' hs := by
    obtain ⟨t, ht, ht'⟩ := Pairing.same_span hs
    exact (h.alive ht).trans (h'.alive ht').symm
  view := h.view.trans h'.view.symm
  knownNodes := h.knownNodes.trans h'.knownNodes.symm

/-- Guests do not interfere. If two runs differ only in their guests, which come and go without
being turned away, and in the ways in which callbacks end after the same steps, then the other steps
have the same outcomes, and at the end everything but the guests is the same. -/
theorem steps_alike {n n' : Nat} {trees : List Markup} {steps steps' : List Step}
    {outcomes outcomes' : List Outcome} {w₀ : World} (h₀ : World.ofTrees trees = some w₀)
    (hs : Step.EveryAll (Step.Fair G) steps) (hs' : Step.EveryAll (Step.Fair G) steps')
    (hcore : Step.coreAll G steps = Step.coreAll G steps')
    (ha : w₀.Admits G n steps) (ha' : w₀.Admits G n' steps')
    (h : w₀.steps (Engine.ofFuel n) steps = some (outcomes, w))
    (h' : w₀.steps (Engine.ofFuel n') steps' = some (outcomes', w')) :
    ∃ p : Pairing, w.Alike G p w' ∧
      List.Forall₂ (Outcome.Twin G p) (kept G steps outcomes) (kept G steps' outcomes') ∧
      List.Forall₂ (Effect.Twin p) (shownIn G outcomes) (shownIn G outcomes') := by
  obtain ⟨q, hw₀⟩ := ofTrees_twin (G := G) h₀
  obtain ⟨p₁, os, u, hrun, -, hu, ho, hes⟩ := steps_core hw₀ hs ha h
  obtain ⟨p₂, os', u', hrun', -, hu', ho', hes'⟩ := steps_core hw₀ hs' ha' h'
  have hleft := steps_mono (Nat.le_max_left n n') hrun
  have hright := steps_mono (Nat.le_max_right n n') hrun'
  rw [hcore, hright] at hleft
  cases hleft
  exact ⟨p₁.span p₂, hu.alike hu', forall₂_span (fun _ _ _ h h' => h.span h') ho ho',
    forall₂_span (fun _ _ _ h h' => h.span h') hes hes'⟩

/-- Two watchers of which the first sets off the second, among guests. -/
def crowded : List Step :=
  [.build none (some (.data (.object [("a", .string "1"), ("b", .string "0")]))) [] [],
    .watch none "g" "a" [.fail "no"],
    .watch none "u" "a"
      [.log (.argument .new), .write none "b" (.argument .new), .fail "too late"],
    .watch none "g" "b" [],
    .watch none "v" "b" [.log (.argument .old)],
    .write none "a" (.data (.string "2"))]

/-- The same without guests, and with callbacks that end in other ways. -/
def deserted : List Step :=
  [.build none (some (.data (.object [("a", .string "1"), ("b", .string "0")]))) [] [],
    .watch none "u" "a" [.log (.argument .new), .write none "b" (.argument .new)],
    .watch none "v" "b" [.log (.argument .old), .fail "no"],
    .write none "a" (.data (.string "2"))]

theorem steps_alike_crowded : ∃ (w₀ w w' : World) (outcomes outcomes' : List Outcome)
    (p : Pairing), World.ofTrees [] = some w₀ ∧
      Step.EveryAll (Step.Fair ["g"]) crowded ∧ Step.EveryAll (Step.Fair ["g"]) deserted ∧
      Step.coreAll ["g"] crowded = Step.coreAll ["g"] deserted ∧
      w₀.Admits ["g"] 2 crowded ∧ w₀.Admits ["g"] 2 deserted ∧
      w₀.steps (Engine.ofFuel 2) crowded = some (outcomes, w) ∧
      w₀.steps (Engine.ofFuel 2) deserted = some (outcomes', w') ∧ w.Alike ["g"] p w' ∧
      List.Forall₂ (Outcome.Twin ["g"] p) (kept ["g"] crowded outcomes)
        (kept ["g"] deserted outcomes') ∧
      List.Forall₂ (Effect.Twin p) (shownIn ["g"] outcomes) (shownIn ["g"] outcomes') := by
  have hrun : ((World.ofTrees []).bind fun w₀ =>
      (w₀.steps (Engine.ofFuel 2) crowded).bind fun _ =>
        (w₀.steps (Engine.ofFuel 2) deserted).map fun _ =>
          decide (w₀.Admits ["g"] 2 crowded) && decide (w₀.Admits ["g"] 2 deserted)) =
      some true := by decide +kernel
  obtain ⟨w₀, h₀, h⟩ := Option.bind_eq_some_iff.1 hrun
  obtain ⟨⟨outcomes, w⟩, hw, h⟩ := Option.bind_eq_some_iff.1 h
  obtain ⟨⟨outcomes', w'⟩, hw', ha⟩ := Option.map_eq_some_iff.1 h
  rw [Bool.and_eq_true, decide_eq_true_iff, decide_eq_true_iff] at ha
  have hs : Step.EveryAll (Step.Fair ["g"]) crowded := by
    simp [crowded, Step.EveryAll, Step.Every, Step.EveryMethod, Step.Fair, Step.AllVerdict,
      Step.Verdict]
  have hs' : Step.EveryAll (Step.Fair ["g"]) deserted := by
    simp [deserted, Step.EveryAll, Step.Every, Step.EveryMethod, Step.Fair]
  obtain ⟨p, hp, ho, he⟩ := steps_alike h₀ hs hs' rfl ha.1 ha.2 hw hw'
  exact ⟨w₀, w, w', outcomes, outcomes', p, h₀, hs, hs', rfl, ha.1, ha.2, hw, hw', hp, ho, he⟩

end World

end ViewBinding
