import ViewBinding.Proofs.Course.Run
import ViewBinding.Proofs.Documents.Exports
import ViewBinding.Proofs.Documents.Paths
import ViewBinding.Proofs.Documents.Writes
import ViewBinding.Proofs.FanOut

/-! View-models whose data holds a document, and what one read or one write of a path does there. -/

namespace ViewBinding

variable {P : Step → Prop} {w w' : World} {hs : List Happening} {n : Nat} {m : Ref .model}
  {o : Ref .object} {key path : String} {v : Value} {d new : Document} {source : Source}
  {fields : List (String × Document)} {S N : Set Location}

theorem Object.write_changed {update : Subscriber → Action Unit}
    (hs : w.property? o key = some source) (hc : w.changes source v) :
    ∃ key?, Object.write update o key v w =
      (updateEach update (w.due source) (w.turns source v)).map fun p =>
        (p.1.map fun _ => true, (p.1.toOption.elim p.2 fun k => p.2.leaveBehind key? k)) := by
  unfold World.property? at hs
  cases hslot : w.slot? o key with
  | none =>
    rw [hslot] at hs
    cases hs
    refine ⟨some key, ?_⟩
    rw [Object.write_missing hslot, Object.insert_turns, Option.map_map]
    refine Option.map_congr fun p _ => ?_
    obtain ⟨⟨⟩, w'⟩ := p <;> rfl
  | some slot =>
    rw [hslot] at hs
    cases slot with
    | cell c =>
      cases hs
      exact ⟨none, (Object.write_cell hslot v).trans (Cell.write_turns hc)⟩
    | computed p => cases hs

namespace World

theorem turns_leaves (w : World) (source : Source) (v : Value) :
    (w.put source v).Leaves (w.turns source v) S := .of_eq rfl rfl (Nat.le_refl _)

theorem Stored.turns (hw : w.Stored P) (source : Source) (v : Value) :
    (w.turns source v).Stored P := by
  cases source <;> exact ⟨hw.callback, hw.methods, hw.reaction⟩

theorem uses_turns (w : World) (source : Source) (v : Value) :
    (w.turns source v).uses = ⟨w.uses.models, w.due source ++ w.uses.subscribers⟩ := by
  cases source <;> rfl

theorem models_turns (w : World) (source : Source) (v : Value) :
    (w.turns source v).models = w.models := by
  cases source <;> rfl

theorem turns_course (hp : ViewBinding.Writable P) (hs : w.property? o key = some source)
    (hc : w.changes source v) : ∃ hs, w.Course P hs (w.turns source v) := by
  have huse : (w.put source v).Move P [] (w.turns source v) := by
    refine .useSubscribers fun s hs => ?_
    rw [alive_put]
    exact alive_of_mem_due hs
  have hwritable := writable_of_property? hs
  cases source with
  | cell c =>
    have hstore : w.Move P [] (w.store c v) :=
      .store hp (by simpa only [changes, Bool.not_eq_true', Bool.not_eq_true] using hc)
    have hprune : (w.store c v).Move P [] (w.put (.cell c) v) := by
      have hreg := w.registry_store c v (.cell c)
      have hmove : (w.store c v).Move P [] ((w.store c v).setRegistry (.cell c)
        (((w.store c v).registry (.cell c)).prune (w.store c v).alive)) :=
          .prune fun _ _ h => by cases h
      rw [hreg] at hmove
      exact hmove
    exact ⟨_, .snoc (.snoc (.single hstore) hprune) huse⟩
  | waiting o' key' =>
    have hinsert : w.Move P [] (w.put (.waiting o' key') v) := .insert v hp hwritable
    exact ⟨_, .snoc (.single hinsert) huse⟩
  | registry => cases hwritable

theorem Holds.put_source (h : w.Holds (.object o) (.object fields) S) (hS : ∀ l ∈ S, l.Within w)
    (hv : w.Holds v d N) (hNw : ∀ l ∈ N, l.Within w) (hN : Disjoint S N)
    (hs : w.property? o key = some source) :
    (∀ X, (∀ l ∈ X, l.Within w) → Disjoint X S → w.Leaves (w.put source v) X) ∧
      ∃ T ⊆ S ∪ (N ∪ Location.fresh w (w.put source v)),
        (w.put source v).Holds (.object o) (.object (fields ++ [(key, d)])) T := by
  have ho : .object o ∈ S := by
    cases h
    assumption
  unfold property? at hs
  cases hslot : w.slot? o key with
  | none =>
    rw [hslot] at hs
    cases hs
    refine ⟨fun X hX hXS => ?_, _, ?_,
      h.inserted key hS hv hNw (Set.disjoint_left.1 hN ho) hN⟩
    · exact inserted_leaves o key v hX fun ho' => Set.disjoint_left.1 hXS ho' ho
    · refine Set.union_subset_union_right S (Set.insert_subset ?_ Set.subset_union_left)
      refine .inr ⟨Nat.lt_irrefl _, ?_⟩
      show _ < (w.inserted o key v).cells.size
      rw [(size_inserted w o key v).2]
      exact Nat.lt_succ_self _
  | some slot =>
    rw [hslot] at hs
    cases slot with
    | computed p => cases hs
    | cell c =>
      cases hs
      -- A slot of the object is that of one of its fields, whose cell is part of the data.
      have hc : .cell c ∈ S := by
        cases h with
        | @object _ T _ _ l _ _ hT _ hf _ =>
          cases hk : Document.field? fields key with
          | none => exact nomatch hslot.symm.trans (hf.missing key hk)
          | some d₀ =>
            cases hslot.symm.trans (hf.cell key d₀ hk)
            exact hT (hf.sub key d₀ hk (Set.mem_insert _ _))
      have hprune (X : Set Location) : (w.store c v).Leaves (w.put (.cell c) v) X :=
        setRegistry_leaves (w.store c v) (.cell c) _ X
      have hstored := h.store hslot (hS _ hc) hv (Set.disjoint_left.1 hN hc) hN
      refine ⟨fun X hX hXS => ?_, _, ?_, hstored.frame (hprune _)⟩
      · have hstore : w.Leaves (w.store c v) X :=
          store_leaves w c v fun hc' => Set.disjoint_left.1 hXS hc' hc
        exact hstore.trans (hprune X)
      · rintro l (hl | rfl | hl)
        · exact .inl hl
        · exact .inl hc
        · exact .inr (.inl hl)

structure Backs (w : World) (m : Ref .model) (d : Document) : Prop where
  made : m.index < w.models.size
  holds : ∃ S, (∀ l ∈ S, Location.Within w l) ∧ w.Holds (.object (w.models.get m).data) d S

theorem Backs.course (h : w.Backs m d) (hP : ¬ViewBinding.Writable P) (hd : ¬Definable P)
    (hc : w.Course P hs w') : w'.Backs m d := by
  obtain ⟨hm, S, hS, hholds⟩ := h
  obtain ⟨hm', hroot⟩ := Course.root hc hm
  have hw := Course.leaves hP hd hc hS
  refine ⟨hm', S, fun l hl => hw.within (hS l hl), ?_⟩
  rw [hroot]
  exact hholds.frame hw

/-- Whether what a read finds is what there is in a plain document: the same fault, or a value of
the same sort that is exported as that part is, and that is the same if it is a scalar. -/
def Reflects (w : World) : Except Fault Value → Except Fault Document → Prop
  | .error f, .error g => f = g
  | .ok v, .ok d => v.sort = d.sort ∧ (∀ u, d.scalar? = some u → v = u) ∧
      w.exportValue? v = some d.snapshot
  | _, _ => False

theorem Found.reflects {plug : Document → Document} {r : Except Fault Value}
    {r' : Except Fault Document} (h : w.Found v S plug r r') : w.Reflects r r' := by
  cases h with
  | error f => rfl
  | ok h _ => exact ⟨h.sort, fun _ hu => h.scalar hu, h.exportValue?⟩

theorem Holds.follow_once (h : w.Holds (.object o) d S) (compute : Computed → Reading Value)
    (p : Path) (segments : List String) : (p.follow compute segments (.object o)).once w =
      some (w.sight.follow p segments (.object o), w) := by
  have hroot : ∀ o', Value.object o = .object o' → ∃ d S, w.Holds (.object o') d S := by
    intro o' he
    cases he
    exact ⟨d, S, h⟩
  exact Reading.once_apply (w.plainOn_holds.follow_nobody p segments hroot)

theorem Backs.read (h : w.Backs m d) (compute : Computed → Reading Value) (path : String) :
    ∃ r, (ViewModel.read compute m path).once w = some (r, w) ∧ w.Reflects r (d.get path) := by
  obtain ⟨-, S, -, hholds⟩ := h
  rw [Document.get]
  cases hp : Path.parse path with
  | error f =>
    exact ⟨.error f, ViewModel.read_misspelt hp, rfl⟩
  | ok p =>
    have hfound := hholds.follow p p.segments
    refine ⟨_, ?_, hfound.reflects⟩
    rw [ViewModel.read_once hp]
    exact hholds.follow_once compute p p.segments

/-- What a write comes to where setting it in a plain document fails, changes nothing, or leads to
another document. -/
inductive Sets (n : Nat) (m : Ref .model) (w : World)
    (outcome : Option (Except Fault Bool × World)) : Except Fault (Option Document) → Prop
  | fails (f : Fault) : outcome = some (.error f, w) → Sets n m w outcome (.error f)
  | same : outcome = some (.ok false, w) → Sets n m w outcome (.ok none)
  | changes {o : Ref .object} {key : String} {source : Source} {v : Value} {key? : Option String}
      {d : Document} : w.property? o key = some source → w.changes source v →
      (w.turns source v).Backs m d →
      outcome = (updateEach (Subscriber.update (Engine.ofFuel n)) (w.due source)
        (w.turns source v)).map (fun p =>
          (p.1.map fun _ => true, (p.1.toOption.elim p.2 fun k => p.2.leaveBehind key? k))) →
      Sets n m w outcome (.ok (some d))

section Part

variable {w₁ : World} {S' : Set Location} {plug : Document → Document}
  (hm : m.index < w.models.size) (hmodels : w₁.models = w.models) (hS : ∀ l ∈ S, l.Within w)
  (hw : w.Leaves w₁ S) (hholds : w₁.Holds (.object o) (.object fields) S')
  (hpart : w₁.Part (.object (w.models.get m).data) S (.object o) S' plug)
  (hv : w₁.Holds v new (Location.fresh w w₁))

include hm hmodels hS hw hholds hpart hv

theorem Part.changes (hs : w₁.property? o key = some source) (hc : w₁.changes source v) :
    Sets n m w₁ (Object.write (Subscriber.update (Engine.ofFuel n)) o key v w₁)
      (.ok (some (plug (.object (fields ++ [(key, new)]))))) := by
  have hN : Disjoint S (Location.fresh w w₁) :=
    Set.disjoint_left.2 fun l hl hl' => hl'.1 (hS l hl)
  have hN' : Disjoint S' (Location.fresh w w₁) := hN.mono_left hpart.1
  have hS' (l : Location) (hl : l ∈ S') : l.Within w₁ := hw.within (hS l (hpart.1 hl))
  obtain ⟨hleaves, T, hT, hnew⟩ := hholds.put_source hS' hv (fun l hl => hl.2) hN' hs
  obtain ⟨key?, he⟩ := Object.write_changed hs hc
  -- All that is new since before the data was made is apart from the rest.
  have hw' : w₁.Leaves (w₁.put source v) (Location.fresh w w₁) :=
    hleaves _ (fun l hl => hl.2) hN'.symm
  have hfresh := fresh_mono hw hw'
  have hplug := hpart.2 (w₁.put source v) _ T (Location.fresh w (w₁.put source v))
    (hleaves _ (fun l hl => hw.within (hS l hl.1)) Set.disjoint_sdiff_left) hnew
    (hT.trans (Set.union_subset_union_right S' hfresh))
    (Set.disjoint_left.2 fun l hl hl' => hl'.1 (hS l hl))
  have hturns := turns_leaves (S := S ∪ Location.fresh w (w₁.put source v)) w₁ source v
  refine .changes hs hc ⟨?_, S ∪ Location.fresh w (w₁.put source v), ?_, ?_⟩ he
  · rw [models_turns, hmodels]
    exact hm
  · rintro l (hl | hl)
    · have hsizes : w₁.Leaves (w₁.put source v) ∅ := hw'.mono (Set.empty_subset _)
      exact hturns.within (hsizes.within (hw.within (hS l hl)))
    · exact hturns.within hl.2
  · rw [models_turns, hmodels]
    exact hplug.frame hturns

theorem Part.sets (key : String) :
    Sets n m w₁ (Object.write (Subscriber.update (Engine.ofFuel n)) o key v w₁)
      (.ok ((Document.put? fields key new).map plug)) := by
  have changed {source : Source} (hs : w₁.property? o key = some source)
      (hc : w₁.changes source v) := Part.changes (n := n) hm hmodels hS hw hholds hpart hv hs hc
  cases hholds with
  | @object _ T _ _ l _ _ hT _ hf hfields =>
    cases hk : Document.field? fields key with
    | none =>
      have hslot : w₁.property? o key = some (.waiting o key) := by
        rw [property?, hf.missing key hk]
      rw [Document.put?, hk]
      exact changed hslot rfl
    | some d₀ =>
      have hslot := hf.cell key d₀ hk
      have hbelow : l.below key ⊆ S :=
        (Set.subset_insert _ _).trans (((hf.sub key d₀ hk).trans hT).trans hpart.1)
      have hapart : Disjoint (l.below key) (Location.fresh w w₁) :=
        Set.disjoint_left.2 fun x hx hx' => hx'.1 (hS x (hbelow hx))
      have hsame := (hfields key d₀ hk).same hv hapart
      rw [Document.put?, hk, Option.any_some]
      cases hd : d₀.same new with
      | true =>
        rw [if_pos rfl, Option.map_none]
        refine .same ?_
        rw [Object.write_cell hslot, Cell.write_apply, hsame, hd, if_pos rfl]
      | false =>
        have hcell : w₁.property? o key = some (.cell (l.cell key)) := by rw [property?, hslot]
        refine changed hcell ?_
        rw [World.changes, hsame, hd]
        rfl

end Part

theorem Holds.assign_apply (h : w.Holds (.object o) d S) (compute : Computed → Reading Value)
    (update : Subscriber → Action Unit) (p : Path) (v : Value) :
    p.assign compute update o v w =
      match w.sight.follow p p.parents (.object o) with
      | .error f => some (.error f, w)
      | .ok parent =>
        match p.owner parent p.last with
        | .error f => some (.error f, w)
        | .ok o' => Object.write update o' p.last v w := by
  rw [Path.assign, Action.bind_apply, h.follow_once compute p p.parents]
  cases w.sight.follow p p.parents (.object o) with
  | error f => rfl
  | ok parent =>
    dsimp only
    cases p.owner parent p.last <;> rfl

theorem Backs.sets (h : w.Backs m d) (n : Nat) (path : String) (new : Document) :
    Sets n m (observe new w).2
      (ViewModel.write (Engine.ofFuel n).compute (Subscriber.update (Engine.ofFuel n)) m path
        (observe new w).1 (observe new w).2) (d.set path new) := by
  obtain ⟨hm, S, hS, hholds⟩ := h
  -- The new data is made first, apart from what the document is kept in.
  have hw : w.Leaves (observe new w).2 S := observe_leaves new w hS
  have hmodels : (observe new w).2.models = w.models := (observe_sameFrame new w).1.models
  have hholds₁ := hholds.frame hw
  cases hp : Path.parse path with
  | error f =>
    rw [Document.set, hp]
    exact .fails f (ViewModel.write_misspelt hp)
  | ok p =>
    have hfound := hholds₁.follow p p.parents
    rw [ViewModel.write_apply hp, hmodels, hholds₁.assign_apply, Document.set_of_parse hp]
    revert hfound
    generalize (observe new w).2.sight.follow p p.parents _ = r, d.follow p p.parents = r'
    rintro (f | @⟨v', d', S', h', hpart⟩)
    · exact .fails f rfl
    · cases hv : v'.object? with
      | none =>
        dsimp only
        rw [p.owner_of_object?_eq_none p.last hv, h'.sort]
        cases d' with
        | object fields =>
          cases h'
          cases hv
        | _ => exact .fails _ rfl
      | some o =>
        obtain rfl := Value.eq_object hv
        cases d' with
        | object fields =>
          exact Part.sets hm hmodels hS hw h' (hpart o rfl) (observe_holds new w) p.last
        | _ => cases h'

end World

end ViewBinding
