import Mathlib.Order.Basic
import ViewBinding.Proofs.Guests.Interlaced
import ViewBinding.Proofs.Guests.Scripts

/-! What two runs have in common, of which the first has guests: which of their things are one and
the same, and when values, data and whatever is made of them are the same up to that. -/

namespace ViewBinding

/-- Things of two runs that are one and the same, and the watchers of the first run that are guests.
-/
structure Pairing where
  pair : ∀ {k : Kind}, Ref k → Ref k → Prop
  guest : Ref .watcher → Prop

namespace Pairing

structure Le (p q : Pairing) : Prop where
  pair : ∀ {k : Kind} {a b : Ref k}, p.pair a b → q.pair a b
  guest : ∀ {r : Ref .watcher}, p.guest r → q.guest r

instance : Preorder Pairing where
  le := Le
  le_refl _ := ⟨id, id⟩
  le_trans _ _ _ h h' := ⟨fun ha => h'.pair (h.pair ha), fun hr => h'.guest (h.guest hr)⟩

def OneToOne (p : Pairing) : Prop :=
  ∀ {k : Kind} {a a' b b' : Ref k}, p.pair a b → p.pair a' b' → (a = a' ↔ b = b')

/-- Subscribers that are one and the same. Reactions have the same identities in both runs. -/
def same (p : Pairing) : Subscriber → Subscriber → Prop
  | .watcher r, .watcher r' => p.pair r r'
  | .reaction r, .reaction r' => r = r'
  | _, _ => False

def stranger (p : Pairing) : Subscriber → Prop
  | .watcher r => p.guest r
  | .reaction _ => False

def join (p : Pairing) {k : Kind} (a b : Ref k) : Pairing where
  pair {j} c d := p.pair c d ∨ j = k ∧ c.index = a.index ∧ d.index = b.index
  guest := p.guest

def invite (p : Pairing) (r : Ref .watcher) : Pairing where
  pair := p.pair
  guest s := p.guest s ∨ s = r

def flip (p : Pairing) : Pairing where
  pair a b := p.pair b a
  guest _ := False

variable {p q : Pairing} {s s' t t' : Subscriber} {k : Kind} {a b c d : Ref k}

theorem le_join (p : Pairing) (a b : Ref k) : p ≤ p.join a b := ⟨.inl, id⟩

theorem le_invite (p : Pairing) (r : Ref .watcher) : p ≤ p.invite r := ⟨id, .inl⟩

theorem pair_join : (p.join a b).pair c d ↔ p.pair c d ∨ c = a ∧ d = b := by
  obtain ⟨i⟩ := a; obtain ⟨j⟩ := b; obtain ⟨i'⟩ := c; obtain ⟨j'⟩ := d
  simp [join]

theorem pair_join_of_ne {j : Kind} {c d : Ref j} (h : j ≠ k) :
    (p.join a b).pair c d ↔ p.pair c d := by simp [join, h]

theorem same_mono (h : p ≤ q) (hs : p.same s s') : q.same s s' := by
  cases s <;> cases s' <;> first | exact h.pair hs | exact hs

theorem stranger_mono (h : p ≤ q) (hs : p.stranger s) : q.stranger s := by
  cases s with
  | watcher r => exact h.guest hs
  | reaction r => exact hs

theorem same_iff (hp : p.OneToOne) (hs : p.same s s') (ht : p.same t t') : s = t ↔ s' = t' := by
  cases s <;> cases s' <;> first | cases hs | skip
  all_goals cases t <;> cases t' <;> first | cases ht | skip
  all_goals simp_all [same]
  exact hp hs ht

end Pairing

section

variable (p : Pairing)

mutual

/-- The same value in two runs. -/
inductive Value.Twin : Value → Value → Prop
  | null : Value.Twin .null .null
  | bool (b : Bool) : Value.Twin (.bool b) (.bool b)
  | number (x : Float) : Value.Twin (.number x) (.number x)
  | string (s : String) : Value.Twin (.string s) (.string s)
  | array {a b : Ref .array} {us vs : List Value} : p.pair a b → Value.Twins us vs →
      Value.Twin (.array a us) (.array b vs)
  | object {a b : Ref .object} : p.pair a b → Value.Twin (.object a) (.object b)

inductive Value.Twins : List Value → List Value → Prop
  | nil : Value.Twins [] []
  | cons {u v : Value} {us vs : List Value} : Value.Twin u v → Value.Twins us vs →
      Value.Twins (u :: us) (v :: vs)

end

end

variable {α β : Type}

/-- The same end of two runs: with results that are related, or with the same fault. -/
def EndsAlike (R : α → β → Prop) : Except Fault α → Except Fault β → Prop
  | .ok a, .ok b => R a b
  | .error f, .error g => f = g
  | _, _ => False

theorem EndsAlike.mono {R S : α → β → Prop} (hRS : ∀ a b, R a b → S a b) {r : Except Fault α}
    {r' : Except Fault β} (h : EndsAlike R r r') : EndsAlike S r r' := by
  cases r <;> cases r' <;> first | exact h | exact hRS _ _ h

theorem optionRel_mono {R S : α → β → Prop} (hRS : ∀ a b, R a b → S a b) {a : Option α}
    {b : Option β} (h : Option.Rel R a b) : Option.Rel S a b := by
  cases h with
  | some hr => exact .some (hRS _ _ hr)
  | none => exact .none

theorem optionRel_flip {R : α → β → Prop} {S : β → α → Prop} (hRS : ∀ a b, R a b → S b a)
    {a : Option α} {b : Option β} (h : Option.Rel R a b) : Option.Rel S b a := by
  cases h with
  | some hr => exact .some (hRS _ _ hr)
  | none => exact .none

theorem optionRel_refl {R : α → α → Prop} {a : Option α} (h : ∀ b, a = some b → R b b) :
    Option.Rel R a a := by
  cases a with
  | none => exact .none
  | some b => exact .some (h b rfl)

theorem optionRel_isSome {R : α → β → Prop} {a : Option α} {b : Option β} (h : Option.Rel R a b) :
    a.isSome = b.isSome := by cases h <;> rfl

namespace Value

variable {p q : Pairing} {u v u' v' : Value} {us vs : List Value}

mutual

theorem Twin.mono (hq : p ≤ q) : ∀ {u v : Value}, u.Twin p v → u.Twin q v
  | _, _, .null => .null
  | _, _, .bool b => .bool b
  | _, _, .number x => .number x
  | _, _, .string s => .string s
  | _, _, .array ha hs => .array (hq.pair ha) (Twins.mono hq hs)
  | _, _, .object ha => .object (hq.pair ha)

theorem Twins.mono (hq : p ≤ q) : ∀ {us vs : List Value}, Twins p us vs → Twins q us vs
  | _, _, .nil => .nil
  | _, _, .cons h hs => .cons (Twin.mono hq h) (Twins.mono hq hs)

end

mutual

theorem Twin.text : ∀ {u v : Value}, u.Twin p v → u.text = v.text
  | _, _, .null | _, _, .bool _ | _, _, .number _ | _, _, .string _ | _, _, .object _ => rfl
  | _, _, .array _ hs => by rw [Value.text, Value.text, Twins.texts hs]

theorem Twins.texts : ∀ {us vs : List Value}, Twins p us vs → Value.texts us = Value.texts vs
  | _, _, .nil => rfl
  | _, _, .cons h hs => by rw [Value.texts, Value.texts, Twin.text h, Twins.texts hs]

end

mutual

theorem Twin.flip : ∀ {u v : Value}, u.Twin p v → v.Twin p.flip u
  | _, _, .null => .null
  | _, _, .bool b => .bool b
  | _, _, .number x => .number x
  | _, _, .string s => .string s
  | _, _, .array ha hs => .array ha (Twins.flip hs)
  | _, _, .object ha => .object ha

theorem Twins.flip : ∀ {us vs : List Value}, Twins p us vs → Twins p.flip vs us
  | _, _, .nil => .nil
  | _, _, .cons h hs => .cons (Twin.flip h) (Twins.flip hs)

end

theorem Twin.same (hp : p.OneToOne) (hu : u.Twin p u') (hv : v.Twin p v') :
    u.same v = u'.same v' := by
  cases hu <;> cases hv <;> try rfl
  · exact beq_eq_beq.2 (hp ‹_› ‹_›)
  · exact beq_eq_beq.2 (hp ‹_› ‹_›)

theorem Twin.sort (h : u.Twin p v) : u.sort = v.sort := by cases h <;> rfl

theorem Twin.toNumber (h : u.Twin p v) : u.toNumber = v.toNumber := by cases h <;> rfl

theorem Twin.isTrue (h : u.Twin p v) : u.isTrue = v.isTrue := by cases h <;> rfl

theorem Twin.object? (h : u.Twin p v) : Option.Rel p.pair u.object? v.object? := by
  cases h with
  | object ha => exact .some ha
  | _ => exact .none

end Value

section

variable (G : List String) (p : Pairing)

def Slot.Twin : Slot → Slot → Prop
  | .cell c, .cell c' => p.pair c c'
  | .computed f, .computed f' => f = f'
  | _, _ => False

def Slot.Twins (slots slots' : Keyed Slot) : Prop :=
  ∀ key : String, Option.Rel (Slot.Twin p) slots[key]? slots'[key]?

structure Registry.Twin (r r' : Registry) : Prop where
  sound : r.Sound
  sound' : r'.Sound
  order : Interlaced p.stranger p.same r.order r'.order

structure Object.Twin (o o' : Object) : Prop where
  slots : Slot.Twins p o.slots o'.slots
  waiting : ∀ key : String, Registry.Twin p (o.waiting[key]?.getD {}) (o'.waiting[key]?.getD {})

structure Cell.Twin (c c' : Cell) : Prop where
  value : c.value.Twin p c'.value
  registry : c.registry.Twin p c'.registry

inductive Callback.Twin : Callback → Callback → Prop
  | run {id : String} {steps : List Step} : id ∉ G → Step.EveryAll (Step.Fair G) steps →
      Callback.Twin (.run id steps) (.run id (Step.coreCallback G steps))
  | write (face : Face) (n : Ref .node) : Callback.Twin (.write face n) (.write face n)
  | render (n : Ref .node) (t : Template) : Callback.Twin (.render n t) (.render n t)

structure Watcher.Twin (w w' : Watcher) : Prop where
  model : w.model = w'.model
  made : p.pair w.model w.model
  path : w.path = w'.path
  callback : w.callback.Twin G w'.callback
  value : w.value.Twin p w'.value

/-- A watcher that does nothing. -/
def Watcher.Guest (w : Watcher) : Prop :=
  ∃ id ∈ G, ∃ steps, Step.AllVerdict steps ∧ w.callback = .run id steps

structure Reaction.Twin (r r' : Reaction) : Prop where
  id : r.id = r'.id
  fair : Step.EveryAll (Step.Fair G) r.steps
  steps : r'.steps = Step.coreAll G r.steps

structure ViewModel.Twin (m m' : ViewModel) : Prop where
  data : p.pair m.data m'.data
  fair : ∀ (name : String) steps, m.methods[name]? = some steps →
    Step.EveryAll (Step.Fair G) steps
  methods : ∀ name : String, m'.methods[name]? = m.methods[name]?.map (Step.coreAll G)
  watchers : Interlaced p.guest p.pair m.watchers m'.watchers

structure Names.Twin (n n' : Names) : Prop where
  models : n.models = n'.models
  made : ∀ (name : String) m, n.models.held[name]? = some m → p.pair m m
  watchers : ∀ id ∉ G, Option.Rel p.pair n.watchers.held[id]? n'.watchers.held[id]?
  guests : ∀ id ∈ G, (∀ r, n.watchers.held[id]? = some r → p.guest r) ∧
    n'.watchers.held[id]? = none
  reactions : n.reactions = n'.reactions
  cells : ∀ id : String, Option.Rel p.pair n.cells[id]? n'.cells[id]?
  registries : n.registries = n'.registries
  values : ∀ name : String, Option.Rel (Value.Twin p) n.values[name]? n'.values[name]?

structure Change.Twin (c c' : Change) : Prop where
  new : c.new.Twin p c'.new
  old : c.old.Twin p c'.old

structure Frame.Twin (f f' : Frame) : Prop where
  model : f.model = f'.model
  made : ∀ m, f.model = some m → p.pair m m
  change : Option.Rel (Change.Twin p) f.change f'.change
  event : f.event = f'.event

/-- Whether an effect is more than a note about a computed property, a failed update or a guest. -/
def Effect.shown : Effect → Bool
  | .computed _ => false
  | .updateFailed _ => false
  | .leftBehind _ _ => false
  | .callback id _ _ => id ∉ G
  | _ => true

def Effect.Twin : Effect → Effect → Prop
  | .callback id new old, .callback id' new' old' =>
    id = id' ∧ new.Twin p new' ∧ old.Twin p old'
  | .log v, .log v' => v.Twin p v'
  | e, e' => e = e'

/-- Effects of two runs of which those that are shown are the same. -/
def Effect.Twins (es es' : Array Effect) : Prop :=
  List.Forall₂ (Effect.Twin p) (es.toList.filter (Effect.shown G))
    (es'.toList.filter (Effect.shown G))

def Happening.shown (x : Happening) : Bool := x.effect?.any (Effect.shown G)

def Happening.Twin (x x' : Happening) : Prop := Option.Rel (Effect.Twin p) x.effect? x'.effect?

/-- The same answer in two runs, whatever the numbers of watchers and subscribers in it are. -/
def Answer.Twin : Answer → Answer → Prop
  | .value v, .value v' => v.Twin p v'
  | .watchers _, .watchers _ => True
  | .property contains n, .property contains' n' => contains = contains' ∧ n.isSome = n'.isSome
  | .readings rs n, .readings rs' n' => List.Forall₂ (EndsAlike (Value.Twin p)) rs rs' ∧ n = n'
  | .reading v n, .reading v' n' => v.Twin p v' ∧ n = n'
  | a, a' => a = a'

end

variable {G : List String} {p q : Pairing}

theorem Slot.Twin.mono (hq : p ≤ q) {s s' : Slot} (h : s.Twin p s') : s.Twin q s' := by
  cases s <;> cases s' <;> first | exact hq.pair h | exact h

theorem Slot.Twin.flip {s s' : Slot} (h : s.Twin p s') : s'.Twin p.flip s := by
  cases s <;> cases s' <;> first | exact False.elim h | skip
  · exact h
  · exact Eq.symm h

theorem Registry.Twin.mono (hq : p ≤ q) {r r' : Registry} (h : r.Twin p r') : r.Twin q r' :=
  ⟨h.sound, h.sound', h.order.mono (fun _ => Pairing.stranger_mono hq) fun _ _ =>
    Pairing.same_mono hq⟩

theorem Object.Twin.mono (hq : p ≤ q) {o o' : Object} (h : o.Twin p o') : o.Twin q o' :=
  ⟨fun key => optionRel_mono (fun _ _ => Slot.Twin.mono hq) (h.slots key),
    fun key => (h.waiting key).mono hq⟩

theorem Cell.Twin.mono (hq : p ≤ q) {c c' : Cell} (h : c.Twin p c') : c.Twin q c' :=
  ⟨h.value.mono hq, h.registry.mono hq⟩

theorem Watcher.Twin.mono (hq : p ≤ q) {w w' : Watcher} (h : w.Twin G p w') : w.Twin G q w' :=
  ⟨h.model, hq.pair h.made, h.path, h.callback, h.value.mono hq⟩

theorem ViewModel.Twin.mono (hq : p ≤ q) {m m' : ViewModel} (h : m.Twin G p m') : m.Twin G q m' :=
  ⟨hq.pair h.data, h.fair, h.methods, h.watchers.mono (fun _ => hq.guest) fun _ _ => hq.pair⟩

theorem Names.Twin.mono (hq : p ≤ q) {n n' : Names} (h : n.Twin G p n') : n.Twin G q n' where
  models := h.models
  made name m hm := hq.pair (h.made name m hm)
  watchers id hid := optionRel_mono (fun _ _ => hq.pair) (h.watchers id hid)
  guests id hid := ⟨fun r hr => hq.guest ((h.guests id hid).1 r hr), (h.guests id hid).2⟩
  reactions := h.reactions
  cells id := optionRel_mono (fun _ _ => hq.pair) (h.cells id)
  registries := h.registries
  values name := optionRel_mono (fun _ _ => Value.Twin.mono hq) (h.values name)

theorem Change.Twin.mono (hq : p ≤ q) {c c' : Change} (h : c.Twin p c') : c.Twin q c' :=
  ⟨h.new.mono hq, h.old.mono hq⟩

theorem Frame.Twin.mono (hq : p ≤ q) {f f' : Frame} (h : f.Twin p f') : f.Twin q f' :=
  ⟨h.model, fun m hm => hq.pair (h.made m hm),
    optionRel_mono (fun _ _ => Change.Twin.mono hq) h.change, h.event⟩

theorem Effect.Twin.mono (hq : p ≤ q) {e e' : Effect} (h : e.Twin p e') : e.Twin q e' := by
  cases e <;> cases e' <;>
    first
      | exact ⟨h.1, h.2.1.mono hq, h.2.2.mono hq⟩
      | exact Value.Twin.mono hq h
      | exact h

theorem Happening.Twin.mono (hq : p ≤ q) {x x' : Happening} (h : x.Twin p x') : x.Twin q x' :=
  optionRel_mono (fun _ _ => Effect.Twin.mono hq) h

theorem Effect.Twins.mono (hq : p ≤ q) {es es' : Array Effect} (h : Effect.Twins G p es es') :
    Effect.Twins G q es es' := List.Forall₂.imp (fun _ _ => Effect.Twin.mono hq) h

theorem Answer.Twin.mono (hq : p ≤ q) {a a' : Answer} (h : a.Twin p a') : a.Twin q a' := by
  have ends {r r' : Except Fault Value} : EndsAlike (Value.Twin p) r r' →
      EndsAlike (Value.Twin q) r r' := EndsAlike.mono fun _ _ => Value.Twin.mono hq
  cases a <;> cases a' <;>
    first
      | exact h
      | exact Value.Twin.mono hq h
      | exact ⟨h.1.imp fun _ _ => ends, h.2⟩
      | exact ⟨h.1.mono hq, h.2⟩

end ViewBinding
