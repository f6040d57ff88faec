import ViewBinding.Proofs.Mount.Walk
import ViewBinding.Proofs.Walks.Retains

/-! What a view tree declares to be bound, item by item in document order, and what it means for an
action to bind items one after the other. -/

namespace ViewBinding

/-- Something that a view tree declares to be bound: a directive of an element or an interpolation
of a text node. -/
inductive Item
  | directive (n : Ref .node) (use : Except Fault Directive.Use) (value : String)
  | span (n : Ref .node) (t : Template) (path : String)
  deriving DecidableEq

def Directive.face? : Directive → Option Face
  | .model => some .value
  | .html => some .html
  | .text => some .text
  | .on => none

/-- What reading a path for nobody ends with, if it ends. -/
def World.found? (w : World) (k : Nat) (m : Ref .model) (path : String) :
    Option (Except Fault Value) :=
  ((ViewModel.read (Engine.ofFuel k).compute m path).once w).map Prod.fst

namespace Item

/-- The path that is watched for an item, and what is done when it leads to something else. -/
def watch? : Item → Option (String × Callback)
  | directive n (.ok u) value => u.directive.face?.map fun face => (value, .write face n)
  | directive _ (.error _) _ => none
  | span n t path => some (path, .render n t)

def heard (m : Ref .model) : Item → List (Ref .node × Listener)
  | directive n (.ok u) value => (u.heard m value n).map (n, ·)
  | directive _ (.error _) _ => []
  | span _ _ _ => []

/-- Whether an item can be bound, or why it cannot. It is not known if a path takes too long. -/
def bound? (w : World) (k : Nat) (m : Ref .model) : Item → Option (Except Fault Unit)
  | directive _ (.error f) _ => some (.error f)
  | directive _ (.ok u) value =>
    match u.directive, u.argument with
    | .on, none => some (.error (.missingArgument .on))
    | .on, some _ =>
      some (if ViewModel.hasMethod w m value then .ok () else .error (.unknownMethod value))
    | _, _ => (w.found? k m value).map fun r => r.map fun _ => ()
  | span _ _ path => (w.found? k m path).map fun r => r.map fun _ => ()

end Item

namespace Settings

variable (s : Settings)

def declared? (n : Ref .node) (attr : String × String) : Option Item :=
  match Directive.parse s.marker attr.1 with
  | .ok none => none
  | .ok (some u) => some (.directive n (.ok u) attr.2)
  | .error f => some (.directive n (.error f) attr.2)

def spans (n : Ref .node) (text : String) : List Item :=
  match Template.parse s.delimiters text with
  | none => []
  | some t => t.paths.map (.span n t)

end Settings

namespace Tree

variable (s : Settings)

mutual

/-- The items of a tree in document order: the directives of an element before what is below it, and
nothing below an element that has a text directive. -/
def items : Tree → List Item
  | element n attrs ts =>
    attrs.filterMap (s.declared? n) ++ if (s.textPath? attrs).isSome then [] else itemsAll ts
  | text n content => s.spans n content
  | other _ => []
termination_by structural t => t

def itemsAll : List Tree → List Item
  | [] => []
  | t :: ts => t.items ++ itemsAll ts
termination_by structural ts => ts

end

end Tree

variable {w w' w'' : World} {k : Nat} {m : Ref .model}

/-- The bindings of a view-model: what its watchers watch, and what they do. -/
def World.bindingsOf (w : World) (m : Ref .model) : List (Path × Callback) :=
  (w.models.get m).watchers.map fun r => ((w.watchers.get r).path, (w.watchers.get r).callback)

def Item.binding? (i : Item) : Option (Path × Callback) :=
  i.watch?.bind fun (path, callback) => (Path.parse path).toOption.map (·, callback)

mutual

/-- Whether all identities in a value were given out, where `n` counts those of each kind. -/
def Value.Made (n : Kind → Nat) : Value → Prop
  | .array a items => a.index < n .array ∧ Value.AllMade n items
  | .object o => o.index < n .object
  | _ => True

def Value.AllMade (n : Kind → Nat) : List Value → Prop
  | [] => True
  | v :: vs => v.Made n ∧ Value.AllMade n vs

end

/-- The data leads only to what was made. -/
structure World.Whole (w : World) : Prop where
  cell : ∀ o key c, w.slot? o key = some (.cell c) → c.index < w.cells.size
  value : ∀ c, (w.cells.get c).value.Made w.count
  root : ∀ m, m.index < w.models.size → (w.models.get m).data.index < w.objects.size
  living : ∀ m, w.modelAlive m → m.index < w.models.size
  saved : ∀ (name : String) v, w.names.values[name]? = some v → v.Made w.count

/-- A world in which views can be bound to a view-model. Computed properties only read and do not
ask about the evaluation they are part of. -/
structure World.Ready (w : World) (m : Ref .model) : Prop where
  whole : w.Whole
  heedless : ∀ o key c, w.slot? o key = some (.computed c) → c.body.Heedless
  made : m.index < w.models.size
  owned : ∀ r ∈ (w.models.get m).watchers, r.index < w.watchers.size

/-- What of that lasts while views are bound: what can be read from the view-model is what it was,
however often it is read. -/
structure World.Bindable (w : World) (m : Ref .model) : Prop where
  data : ∃ p : Pairing, p.pair m m ∧ w.SameData False p w
  owned : ∀ r ∈ (w.models.get m).watchers, r.index < w.watchers.size

def World.made (w : World) : Pairing where
  pair {k} a b := a = b ∧ a.index < w.count k
  guest _ := False

mutual

theorem Value.Made.twin : ∀ {v : Value}, v.Made w.count → v.Twin w.made v
  | .null, _ => .null
  | .bool b, _ => .bool b
  | .number x, _ => .number x
  | .string s, _ => .string s
  | .array _ _, h => .array ⟨rfl, h.1⟩ (Value.AllMade.twins h.2)
  | .object _, h => .object ⟨rfl, h⟩

theorem Value.AllMade.twins : ∀ {vs : List Value}, Value.AllMade w.count vs →
    Value.Twins w.made vs vs
  | [], _ => .nil
  | _ :: _, h => .cons h.1.twin (Value.AllMade.twins h.2)

end

theorem World.made_fits (w : World) : w.made.Fits w.count w.count where
  oneToOne := by
    rintro k a a' b b' ⟨rfl, -⟩ ⟨rfl, -⟩
    rfl
  apart hr := hr.elim
  made := by
    rintro k a b ⟨rfl, ha⟩
    exact ⟨ha, ha⟩
  guest hr := hr.elim
  model h := h.1

theorem World.Ready.sameData (hw : w.Ready m) : w.SameData False w.made w where
  fits := w.made_fits
  objects := by
    rintro o _ ⟨rfl, -⟩ key
    refine optionRel_refl fun slot hs => ?_
    cases slot with
    | cell c => exact ⟨rfl, hw.whole.cell o key c hs⟩
    | computed c => exact ⟨rfl, .inr (hw.heedless o key c hs)⟩
  cells := by
    rintro c _ ⟨rfl, -⟩
    exact (hw.whole.value c).twin
  models := by
    rintro m _ ⟨rfl, hm⟩
    exact ⟨rfl, hw.whole.root m hm⟩
  named name := optionRel_refl fun m hm => ⟨rfl, hw.whole.living m <|
    (World.modelAlive_iff m).2 (.inl ((Holder.holds_iff _ m).2 ⟨name, hm⟩))⟩
  alive _ := rfl
  living m hm := ⟨rfl, hw.whole.living m hm⟩
  saved name := optionRel_refl fun v hv => (hw.whole.saved name v hv).twin

theorem World.Ready.bindable (hw : w.Ready m) : w.Bindable m :=
  ⟨⟨w.made, ⟨rfl, hw.made⟩, hw.sameData⟩, hw.owned⟩

namespace World.Bindable

theorem made (hw : w.Bindable m) : m.index < w.models.size := by
  obtain ⟨p, hm, h⟩ := hw.data
  exact (h.fits.made hm).1

theorem retains (hw : w.Bindable m) (h : w.Retains w')
    (ho : ∀ r ∈ (w'.models.get m).watchers, r.index < w'.watchers.size) : w'.Bindable m := by
  obtain ⟨p, hm, hp⟩ := hw.data
  exact ⟨⟨p, hm, hp.later h h⟩, ho⟩

end World.Bindable

def TextsAlike : Except Fault Value → Except Fault Value → Prop :=
  EndsAlike fun u v => u.text = v.text

theorem TextsAlike.map_text {r r' : Except Fault Value} (h : TextsAlike r r') :
    r.map Value.text = r'.map Value.text := by
  cases r <;> cases r' <;>
    first | exact congrArg Except.error h | exact congrArg Except.ok h | cases h

theorem World.SameData.follow {p : Pairing} (h : w.SameData False p w') (hm : p.pair m m)
    (f : Path) (e e' : Evaluation) {r : Except Fault Value} {e₁ : Evaluation} {v : World}
    (hr : f.resolve (Engine.ofFuel k).compute (w.models.get m).data e w = some ((r, e₁), v)) :
    ∃ r' e₁' v', f.resolve (Engine.ofFuel k).compute (w'.models.get m).data e' w' =
      some ((r', e₁'), v') ∧ TextsAlike r r' := by
  obtain ⟨l, r', e₁', v', hr', -, -, -, hR⟩ := Reading.Parallel.follow
    (Reading.ComputesParallel.ofFuel .heedless p k) f f.segments (.object (h.models m m hm))
    p w w' e e' le_rfl h trivial r e₁ v hr
  exact ⟨r', e₁', v', hr', hR.mono fun _ _ => Value.Twin.text⟩

theorem World.found?_eq {path : String} {f : Path} (hf : Path.parse path = .ok f) (w : World)
    (k : Nat) (m : Ref .model) : w.found? k m path =
      (f.resolve (Engine.ofFuel k).compute (w.models.get m).data {} w).map fun q => q.1.1 := by
  rw [found?, Reading.once_eq_map, Option.map_map, ViewModel.read, hf]
  rfl

theorem World.found?_misspelt {path : String} {g : Fault} (hf : Path.parse path = .error g)
    (w : World) (k : Nat) (m : Ref .model) : w.found? k m path = some (.error g) := by
  rw [found?, Reading.once_eq_map, Option.map_map, ViewModel.read, hf]
  rfl

/-- As long as all that was made is as it was, a path leads to the same text. -/
theorem World.Bindable.found_text (hw : w.Bindable m) (h : w.Retains w') (k : Nat)
    (path : String) : (w'.found? k m path).map (Except.map Value.text) =
      (w.found? k m path).map (Except.map Value.text) := by
  cases hf : Path.parse path with
  | error g => rw [found?_misspelt hf, found?_misspelt hf]
  | ok f =>
    obtain ⟨p, hm, hp⟩ := hw.data
    have hlater := hp.later (.refl w) h
    rw [found?_eq hf, found?_eq hf]
    cases hr : f.resolve (Engine.ofFuel k).compute (w.models.get m).data {} w with
    | some q =>
      obtain ⟨r', e₁', v', hr', htext⟩ := hlater.follow hm f {} {} hr
      rw [hr']
      exact congrArg some htext.map_text.symm
    | none =>
      cases hr' : f.resolve (Engine.ofFuel k).compute (w'.models.get m).data {} w' with
      | none => rfl
      | some q =>
        -- What ends in the later world does so in the earlier one.
        obtain ⟨r, e₁, v, hr₀, -⟩ := hlater.flip.follow hm f {} {} hr'
        rw [hr] at hr₀
        cases hr₀

/-- What becomes of a world when views are bound, where among the first `base` nodes those in `L`
may change: the data is as it was, and there are some bindings and listeners more. -/
structure World.Gains (base : Nat) (L : List (Ref .node)) (m : Ref .model)
    (bs : List (Path × Callback)) (ls : List (Ref .node × Listener)) (w w' : World) : Prop where
  bindable : w'.Bindable m
  retains : w.Retains w'
  methods : (w'.models.get m).methods = (w.models.get m).methods
  bindings : w'.bindingsOf m = w.bindingsOf m ++ bs
  view : View.Changes base L ls w.view w'.view

namespace World.Gains

variable {base : Nat} {L L' : List (Ref .node)} {bs bs' : List (Path × Callback)}
  {ls ls' : List (Ref .node × Listener)}

theorem refl (hw : w.Bindable m) : w.Gains base L m [] [] w :=
  ⟨hw, .refl w, rfl, (List.append_nil _).symm, .refl _⟩

theorem trans (h : w.Gains base L m bs ls w') (h' : w'.Gains base L m bs' ls' w'') :
    w.Gains base L m (bs ++ bs') (ls ++ ls') w'' where
  bindable := h'.bindable
  retains := h.retains.trans h'.retains
  methods := h'.methods.trans h.methods
  bindings := by rw [h'.bindings, h.bindings, List.append_assoc]
  view := h.view.trans h'.view

theorem mono (h : w.Gains base L m bs ls w') (hL : ∀ n ∈ L, n ∈ L' ∨ base ≤ n.index) :
    w.Gains base L' m bs ls w' := { h with view := h.view.mono hL }

theorem ofView (hw : w.Bindable m) {v : View} (hv : View.Changes base L ls w.view v)
    (hs : Array Happening) : w.Gains base L m [] ls { w with view := v, trace := hs } where
  bindable := hw.retains { Retains.refl w with } hw.owned
  retains := { Retains.refl w with }
  methods := rfl
  bindings := (List.append_nil _).symm
  view := hv

theorem found_text (h : w.Gains base L m bs ls w') (hw : w.Bindable m) (k : Nat) (path : String) :
    (w'.found? k m path).map (Except.map Value.text) =
      (w.found? k m path).map (Except.map Value.text) := hw.found_text h.retains k path

theorem bound? (h : w.Gains base L m bs ls w') (hw : w.Bindable m) (i : Item) :
    i.bound? w' k m = i.bound? w k m := by
  have hm (value : String) : ViewModel.hasMethod w' m value = ViewModel.hasMethod w m value := by
    rw [ViewModel.hasMethod, ViewModel.hasMethod, h.methods]
  have hf (path : String) : (w'.found? k m path).map (fun r => r.map fun _ => ()) =
      (w.found? k m path).map fun r => r.map fun _ => () := by
    have hwhether (r? : Option (Except Fault Value)) : r?.map (fun r => r.map fun _ => ()) =
        (r?.map (Except.map Value.text)).map fun r => r.map fun _ => () := by
      rcases r? with _ | _ | _ <;> rfl
    rw [hwhether, h.found_text hw, ← hwhether]
  cases i with
  | directive n use value =>
    rcases use with f | ⟨directive, argument⟩
    · rfl
    · cases directive <;> cases argument <;> simp only [Item.bound?, hf, hm]
  | span n t path => exact hf path

end World.Gains

/-- What becomes of a world when items are bound: there are exactly their bindings and listeners
more. -/
def World.BindsItems (base : Nat) (L : List (Ref .node)) (m : Ref .model) (items : List Item)
    (w w' : World) : Prop :=
  w.Gains base L m (items.filterMap Item.binding?) (items.flatMap (Item.heard m)) w'

theorem World.BindsItems.trans {base : Nat} {L : List (Ref .node)} {is js : List Item}
    (h : w.BindsItems base L m is w') (h' : w'.BindsItems base L m js w'') :
    w.BindsItems base L m (is ++ js) w'' := by
  rw [BindsItems, List.filterMap_append, List.flatMap_append]
  exact Gains.trans h h'

/-- Whether an action binds items in order: all of them, with `Q` in the end, or those before the
first that cannot be bound, with the fault of that one. -/
structure Action.Walks (k base : Nat) (L : List (Ref .node)) (m : Ref .model) (x : Action Unit)
    (w : World) (items : List Item) (Q : World → Prop) : Prop where
  ends : (∀ i ∈ items, i.bound? w k m = some (.ok ())) →
    ∃ w', x w = some (.ok (), w') ∧ w.BindsItems base L m items w' ∧ Q w'
  stops : ∀ pre i post f, items = pre ++ i :: post →
    (∀ j ∈ pre, j.bound? w k m = some (.ok ())) → i.bound? w k m = some (.error f) →
    ∃ w', x w = some (.error f, w') ∧ w.BindsItems base L m pre w'

namespace Action.Walks

variable {base : Nat} {L L' : List (Ref .node)} {is js : List Item} {x y : Action Unit}
  {Q R : World → Prop}

theorem congr (he : x w = y w) (hy : y.Walks k base L m w is Q) : x.Walks k base L m w is Q where
  ends h := he ▸ hy.ends h
  stops pre i post f hi hp hf := he ▸ hy.stops pre i post f hi hp hf

theorem mono (hx : x.Walks k base L m w is Q) (hL : ∀ n ∈ L, n ∈ L' ∨ base ≤ n.index)
    (hq : ∀ w', w.BindsItems base L m is w' → Q w' → R w') : x.Walks k base L' m w is R where
  ends h := by
    obtain ⟨w', he, hb, h'⟩ := hx.ends h
    exact ⟨w', he, hb.mono hL, hq w' hb h'⟩
  stops pre i post f hi hp hf := by
    obtain ⟨w', he, hb⟩ := hx.stops pre i post f hi hp hf
    exact ⟨w', he, hb.mono hL⟩

theorem nil (he : x w = some (.ok (), w')) (hb : w.BindsItems base L m [] w') (hq : Q w') :
    x.Walks k base L m w [] Q where
  ends _ := ⟨w', he, hb, hq⟩
  stops pre i post f hi := by
    have := congrArg List.length hi
    simp at this

theorem single {i : Item} (hok : i.bound? w k m = some (.ok ()) →
      ∃ w', x w = some (.ok (), w') ∧ w.BindsItems base L m [i] w' ∧ Q w')
    (herr : ∀ f, i.bound? w k m = some (.error f) →
      ∃ w', x w = some (.error f, w') ∧ w.BindsItems base L m [] w') :
    x.Walks k base L m w [i] Q where
  ends h := hok (h i (List.mem_singleton_self i))
  stops pre j post f hi hp hf := by
    cases pre with
    | nil =>
      obtain ⟨rfl, -⟩ := List.cons.inj hi
      exact herr f hf
    | cons j' pre =>
      have := congrArg List.length hi
      simp at this

theorem bind (hw : w.Bindable m) (hx : x.Walks k base L m w is Q)
    (hy : ∀ w', (∀ i ∈ is, i.bound? w k m = some (.ok ())) → w.BindsItems base L m is w' → Q w' →
      y.Walks k base L m w' js R) :
    (x >>= fun _ => y).Walks k base L m w (is ++ js) R where
  ends h := by
    have his := fun i hi => h i (List.mem_append_left js hi)
    obtain ⟨w', he, hb, hq⟩ := hx.ends his
    obtain ⟨w'', he', hb', hr⟩ := (hy w' his hb hq).ends fun i hi => by
      rw [hb.bound? hw]
      exact h i (List.mem_append_right _ hi)
    exact ⟨w'', by rw [bind_apply, he]; exact he', hb.trans hb', hr⟩
  stops pre i post f hi hp hf := by
    obtain ⟨as, rfl, hj⟩ | ⟨bs, rfl, hb⟩ := List.append_eq_append_iff.1 hi
    · -- The first action binds all of its items.
      have his := fun j hj => hp j (List.mem_append_left as hj)
      obtain ⟨w', he, hb, hq⟩ := hx.ends his
      obtain ⟨w'', he', hb'⟩ := (hy w' his hb hq).stops as i post f hj
        (fun j hj => by
          rw [hb.bound? hw]
          exact hp j (List.mem_append_right _ hj))
        (by rw [hb.bound? hw]; exact hf)
      exact ⟨w'', by rw [bind_apply, he]; exact he', hb.trans hb'⟩
    · cases bs with
      | nil =>
        rw [List.append_nil] at hx
        obtain ⟨w', he, hb', hq⟩ := hx.ends hp
        obtain ⟨w'', he', hb''⟩ := (hy w' (by rwa [List.append_nil]) (by rwa [List.append_nil])
          hq).stops [] i post f hb.symm
          (fun j hj => nomatch hj) (by rw [hb'.bound? hw]; exact hf)
        refine ⟨w'', by rw [bind_apply, he]; exact he', ?_⟩
        have := hb'.trans hb''
        rwa [List.append_nil] at this
      | cons b bs =>
        obtain ⟨rfl, -⟩ := List.cons.inj hb
        obtain ⟨w', he, hb'⟩ := hx.stops pre i bs f rfl hp hf
        exact ⟨w', by rw [bind_apply, he], hb'⟩

theorem andThen (hw : w.Bindable m) (hx : x.Walks k base L m w is Q)
    (hy : ∀ w', (∀ i ∈ is, i.bound? w k m = some (.ok ())) → w.BindsItems base L m is w' → Q w' →
      y.Walks k base L m w' [] R) :
    (x >>= fun _ => y).Walks k base L m w is R := by
  rw [← List.append_nil is]
  exact bind hw hx hy

end Action.Walks

end ViewBinding
