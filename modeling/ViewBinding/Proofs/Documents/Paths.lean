import ViewBinding.Proofs.Documents.Holds
import ViewBinding.Proofs.Goes
import ViewBinding.Proofs.Mount.Data

/-! Paths lead to the same parts of data and of the document that it holds. -/

namespace ViewBinding

section Reads

variable {compute : Computed → Reading Value} {R : Ref .object → Prop} {w : World} {v : Value}

theorem Sight.PlainOn.read_nobody (h : w.sight.PlainOn R) {o : Ref .object} (ho : R o)
    (key : String) : Object.read compute o key {} w = some ((.ok (w.sight.field o key), {}), w) ∧
      ∀ o', w.sight.field o key = .object o' → R o' := by
  rcases h o ho key with hn | ⟨c, hc, hp⟩
  · have hf : w.sight.field o key = .null := by rw [field, hn]
    refine ⟨?_, fun o' h' => Value.noConfusion (hf.symm.trans h')⟩
    rw [Object.read, Reading.getWorld_bind, show w.slot? o key = none from hn, hf]
    rfl
  · have hf : w.sight.field o key = w.sight.value c := by rw [field, hc]
    refine ⟨?_, fun o' h' => hp o' (hf.symm.trans h')⟩
    rw [Object.read, Reading.getWorld_bind, show w.slot? o key = some (.cell c) from hc, hf]
    rfl

theorem Sight.PlainOn.follow_nobody (h : w.sight.PlainOn R) (p : Path) (segments : List String)
    (hv : ∀ o, v = .object o → R o) :
    p.follow compute segments v {} w = some ((w.sight.follow p segments v, {}), w) := by
  induction segments generalizing v with
  | nil => rfl
  | cons segment rest ih =>
    cases ho : v.object? with
    | none =>
      rw [Path.follow, Sight.follow, Path.owner_of_object?_eq_none p segment ho]
      rfl
    | some o =>
      obtain rfl := Value.eq_object ho
      obtain ⟨hr, hf⟩ := h.read_nobody (hv o rfl) segment
      show (Object.read compute o segment >>= fun v => p.follow compute rest v) {} w = _
      rw [Reading.bind_apply, hr]
      exact ih hf

theorem Reading.once_apply {α : Type} {x : Reading α} {r : Except Fault α} {e : Evaluation}
    (h : x {} w = some ((r, e), w)) : x.once w = some (r, w) := by
  have he : x.evaluate none w = some (.ok (r, e.registrations), w) := by
    rw [evaluate, h]
    rfl
  rw [once, Action.bind_apply, he]
  cases r <;> rfl

section Paths

variable {m : Ref .model} {path : String}

theorem ViewModel.read_misspelt {f : Fault} (h : Path.parse path = .error f) :
    (ViewModel.read compute m path).once w = some (.error f, w) := by
  rw [ViewModel.read, h]
  rfl

theorem ViewModel.read_once {p : Path} (h : Path.parse path = .ok p) :
    (ViewModel.read compute m path).once w =
      (p.resolve compute (w.models.get m).data).once w := by
  rw [ViewModel.read, h]
  rfl

end Paths

end Reads

namespace World

variable {w w' : World} {v v' : Value} {d d' : Document} {S S' B T : Set Location}

theorem Holds.sort (h : w.Holds v d S) : v.sort = d.sort := by
  cases h <;> rfl

theorem Holds.scalar (h : w.Holds v d S) {u : Value} (hu : d.scalar? = some u) : v = u := by
  cases h <;> cases hu <;> rfl

theorem plainOn_holds (w : World) : w.sight.PlainOn fun o => ∃ d S, w.Holds (.object o) d S := by
  rintro o ⟨d, S, h⟩ key
  cases h with
  | @object _ T _ fields l ho hm hT hn hf hc =>
    cases hk : Document.field? fields key with
    | none => exact .inl (hf.missing key hk)
    | some d =>
      exact .inr ⟨l.cell key, hf.cell key d hk, fun o' ho' => ⟨d, l.below key, ho' ▸ hc key d hk⟩⟩

/-- A part of a value that holds a document: whatever takes its place with nothing else changed, the
value holds the document with that in its place. -/
def Part (w : World) (v : Value) (S : Set Location) (v' : Value) (S' : Set Location)
    (plug : Document → Document) : Prop :=
  S' ⊆ S ∧ ∀ (w' : World) (new : Document) (T N : Set Location), w.Leaves w' (S \ S') →
    w'.Holds v' new T → T ⊆ S' ∪ N → Disjoint S N → w'.Holds v (plug new) (S ∪ N)

theorem Part.refl (w : World) (v : Value) (S : Set Location) : w.Part v S v S id :=
  ⟨subset_rfl, fun _ _ _ _ _ h hT _ => h.mono hT⟩

theorem Part.field {plug : Document → Document} {o : Ref .object}
    {fields : List (String × Document)} {l : Layout} {key : String} (ho : o.index < w.objects.size)
    (hm : .object o ∈ S) (hT : T ⊆ S) (hn : .object o ∉ T) (hf : l.Fits (w.slot? o) fields T)
    (hc : ∀ key d, Document.field? fields key = some d →
      w.Holds (w.cells.get (l.cell key)).value d (l.below key))
    (hk : Document.field? fields key = some d)
    (h : w.Part (w.cells.get (l.cell key)).value (l.below key) v' S' plug) :
    w.Part (.object o) S v' S' fun new => .object (fields ++ [(key, plug new)]) := by
  have hplace := hf.sub key d hk
  have hbelow : l.below key ⊆ T := (Set.subset_insert _ _).trans hplace
  refine ⟨(h.1.trans hbelow).trans hT, fun w' new T' N hw hnew hT' hN => ?_⟩
  -- Nothing in the way of the object itself is at the part, and nothing of the other fields.
  have hcell : .cell (l.cell key) ∈ S \ S' :=
    ⟨hT (hplace (Set.mem_insert _ _)), fun hc => hf.own key d hk (h.1 hc)⟩
  have hobject : .object o ∈ S \ S' := ⟨hm, fun ho => hn (hbelow (h.1 ho))⟩
  have hslots : w'.slot? o = w.slot? o := funext (hw.same _ hobject)
  have hvalue := hw.same _ hcell
  have hbelow' : l.below key \ S' ⊆ S \ S' := Set.sdiff_subset_sdiff_left (hbelow.trans hT)
  have hchild := h.2 w' new T' N (hw.mono hbelow') hnew hT' (hN.mono_left (hbelow.trans hT))
  have hput : (l.put key (l.cell key) (l.below key ∪ N)).Fits (w'.slot? o)
      (fields ++ [(key, plug new)]) (T ∪ N) := by
    rw [hslots]
    refine hf.put _ ?_ ?_ Set.subset_union_left ?_ (hf.cell key d hk) fun _ _ => rfl
    · rintro (hc | hc)
      · exact hf.own key d hk hc
      · exact Set.disjoint_left.1 hN hcell.1 hc
    · rw [← Set.insert_union]
      exact Set.union_subset_union_left N hplace
    · intro key' d' hne hk'
      rw [← Set.insert_union, Set.disjoint_union_left]
      exact ⟨hf.apart key key' d d' hk hk' hne.symm,
        (hN.mono_left ((hf.sub key' d' hk').trans hT)).symm⟩
  refine .object _ (Nat.lt_of_lt_of_le ho hw.objects) (.inl hm)
    (Set.union_subset_union_left N hT) ?_ hput (holds_put (fun key' d' hne hk' => ?_) ?_)
  · rintro (ho | ho)
    · exact hn ho
    · exact Set.disjoint_left.1 hN hm ho
  · have hplace' : l.place key' ⊆ S \ S' := by
      intro x hx
      refine ⟨hT (hf.sub key' d' hk' hx), fun hx' => ?_⟩
      exact Set.disjoint_left.1 (hf.apart key' key d' d hk' hk hne) hx
        (Set.mem_insert_of_mem _ (h.1 hx'))
    exact (hc key' d' hk').frame_cell (hw.mono hplace')
  · rw [hvalue]
    exact hchild

inductive Found (w : World) (v : Value) (S : Set Location) (plug : Document → Document) :
    Except Fault Value → Except Fault Document → Prop
  | error (f : Fault) : Found w v S plug (.error f) (.error f)
  | ok {v' : Value} {d' : Document} {S' : Set Location} : w.Holds v' d' S' →
      (∀ o, v' = .object o → w.Part v S v' S' plug) → Found w v S plug (.ok v') (.ok d')

theorem Holds.found_scalar (h : w.Holds v d S) (hv : v.object? = none) (p : Path)
    (segment : String) (rest : List String) {u : Value} {plug : Document → Document} :
    w.Found u B plug (w.sight.follow p (segment :: rest) v) (d.follow p (segment :: rest)) := by
  have hd : d.follow p (segment :: rest) = .error (.notAnObject p.text segment d.sort) := by
    cases h <;> first | rfl | cases hv
  rw [hd, Sight.follow, p.owner_of_object?_eq_none segment hv, h.sort]
  exact .error _

theorem Holds.follow (h : w.Holds v d S) (p : Path) (segments : List String) :
    w.Found v S (d.replace segments) (w.sight.follow p segments v) (d.follow p segments) := by
  induction segments generalizing v d S with
  | nil => exact .ok h fun _ _ => .refl w v S
  | cons segment rest ih =>
    cases hv : v.object? with
    | none => exact h.found_scalar hv p segment rest
    | some o =>
      obtain rfl := Value.eq_object hv
      cases h with
      | @object _ T _ fields l ho hm hT hn hf hc =>
        show w.Found _ _ _ (w.sight.follow p rest (w.sight.field o segment))
          (((Document.field? fields segment).getD .null).follow p rest)
        cases hk : Document.field? fields segment with
        | none =>
          have hnothing : w.Holds .null .null ∅ := .null
          have hnull : w.sight.field o segment = .null := by
            rw [Sight.field, show w.sight.slot? o segment = none from hf.missing segment hk]
          rw [hnull, Option.getD_none]
          -- What is not there counts as null, which is an end but not a way on.
          cases rest with
          | nil => exact .ok hnothing fun _ h => by cases h
          | cons segment' rest' => exact hnothing.found_scalar rfl p segment' rest'
        | some d =>
          have hvalue : w.sight.field o segment = (w.cells.get (l.cell segment)).value := by
            rw [Sight.field, show w.sight.slot? o segment = some (.cell (l.cell segment)) from
              hf.cell segment d hk]
            rfl
          have hplug : (Document.object fields).replace (segment :: rest) =
              fun new => .object (fields ++ [(segment, d.replace rest new)]) := by
            funext new
            rw [Document.replace, hk, Option.getD_some]
          have hfound := ih (hc segment d hk)
          rw [hvalue, Option.getD_some, hplug]
          revert hfound
          generalize w.sight.follow p rest _ = r, d.follow p rest = r'
          rintro (f | ⟨h', hpart⟩)
          · exact .error f
          · exact .ok h' fun o' he => .field ho hm hT hn hf hc hk (hpart o' he)

end World

end ViewBinding
