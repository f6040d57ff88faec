import ViewBinding.Proofs.Walks.Watch

/-! Binding one node: the directives of an element, or the interpolations of a text. -/

namespace ViewBinding

variable {w w' : World} {k : Nat} {m : Ref .model} {base : Nat} {L : List (Ref .node)}
  {n : Ref .node} {s : Settings} {ts : List Tree}

namespace Template

theorem infix_of_firstSpan? {opening closing cs before content rest : List Char}
    (h : firstSpan? opening closing cs = some (before, content, rest)) : opening <:+: cs := by
  induction cs generalizing before with
  | nil => cases h
  | cons c cs ih =>
    rw [firstSpan?] at h
    split at h
    · obtain ⟨mid, ho, -⟩ := Option.bind_eq_some_iff.1 ‹spanAt? _ _ _ = _›
      rw [(Text.after?_eq_some_iff ..).1 ho]
      exact (List.prefix_append ..).isInfix
    · obtain ⟨⟨before', span⟩, hs, he⟩ := Option.map_eq_some_iff.1 h
      cases he
      exact (ih hs).trans (List.suffix_cons c cs).isInfix

theorem parse_eq_none {d : Delimiters} {text : String}
    (h : ¬d.opening.toList <:+: text.toList) : parse d text = none := by
  rw [parse, Option.map_eq_none_iff, Option.eq_none_iff_forall_ne_some]
  rintro ⟨before, content, rest⟩ hs
  exact h (infix_of_firstSpan? hs)

end Template

/-- Whether what a text directive renders holds no interpolation. -/
def Item.Quiet (s : Settings) (w : World) (k : Nat) (m : Ref .model) : Item → Prop
  | .directive _ (.ok u) value => u.directive = .text → ∀ v, w.found? k m value = some (.ok v) →
      ¬s.delimiters.opening.toList <:+: v.text.toList
  | _ => True

theorem exists_of_map_text {a? b? : Option (Except Fault Value)}
    (h : a?.map (Except.map Value.text) = b?.map (Except.map Value.text)) {v : Value}
    (ha : a? = some (.ok v)) : ∃ u, b? = some (.ok u) ∧ u.text = v.text := by
  subst ha
  obtain ⟨r, rfl, hr⟩ := Option.map_eq_some_iff.1 h.symm
  cases r with
  | error f => cases hr
  | ok u => exact ⟨u, rfl, Except.ok.inj hr⟩

theorem World.Gains.quiet {bs : List (Path × Callback)} {ls : List (Ref .node × Listener)}
    (h : w.Gains base L m bs ls w') (hw : w.Bindable m) {i : Item} (hi : i.Quiet s w k m) :
    i.Quiet s w' k m := by
  rcases i with ⟨n, f | u, value⟩ | ⟨n, t, path⟩
  · exact hi
  · intro hu v hv
    obtain ⟨u, hu', htext⟩ := exists_of_map_text (h.found_text hw k value) hv
    exact htext ▸ hi hu u hu'
  · exact hi

/-- An element while its directives are bound. Below it are its trees, or once a text directive is
bound the text which that rendered. -/
structure View.Dressed (s : Settings) (base : Nat) (v : View) (n : Ref .node) (ts : List Tree)
    (rendered : Bool) : Prop where
  sort : (v.node n).sort = .element
  trees : rendered = false → v.children n = ts.map Tree.root ∧ v.HoldsAll ts
  text : rendered = true → ∃ c, v.children n = [c] ∧ (v.node c).sort = .text ∧
    Template.parse s.delimiters (v.node c).text = none ∧ (c ∈ Tree.nodesAll ts ∨ base ≤ c.index)
  made : n.index < base
  apart : n ∉ Tree.nodesAll ts
  size : base ≤ v.nodes.size

namespace View.Dressed

variable {v : View} {rendered : Bool}

theorem lt (h : v.Dressed s base n ts rendered) : n.index < v.nodes.size :=
  Nat.lt_of_lt_of_le h.made h.size

theorem children (h : v.Dressed s base n ts rendered) {c : Ref .node} (hc : c ∈ v.children n) :
    c ∈ Tree.nodesAll ts ∨ base ≤ c.index := by
  cases rendered with
  | false =>
    rw [(h.trees rfl).1] at hc
    obtain ⟨t, ht, rfl⟩ := List.mem_map.1 hc
    exact .inl (Tree.mem_nodesAll ht t.root_mem_nodes)
  | true =>
    obtain ⟨c', hch, -, -, hc'⟩ := h.text rfl
    rw [hch] at hc
    exact List.mem_singleton.1 hc ▸ hc'

theorem modify (h : v.Dressed s base n ts rendered) (change : Node → Node)
    (hs : ∀ node, (change node).sort = node.sort)
    (hc : ∀ node, (change node).children = node.children) :
    (v.modify n change).Dressed s base n ts rendered where
  sort := by rw [node_modify_self h.lt, hs, h.sort]
  trees hr := by
    obtain ⟨hch, ht⟩ := h.trees hr
    refine ⟨?_, HoldsAll.moved ts (fun n' hn' => ?_) ht⟩
    · rw [View.children, node_modify_self h.lt, hc]
      exact hch
    · have hne : n ≠ n' := fun e => h.apart (e.symm ▸ hn')
      rw [node_modify_of_ne hne]
      exact .refl _
  text hr := by
    obtain ⟨c, hch, hcs, hct, hcb⟩ := h.text hr
    have hne : n ≠ c := by
      rintro rfl
      rw [h.sort] at hcs
      cases hcs
    refine ⟨c, ?_, ?_, ?_, hcb⟩
    · rw [View.children, node_modify_self h.lt, hc]
      exact hch
    · rwa [node_modify_of_ne hne]
    · rwa [node_modify_of_ne hne]
  made := h.made
  apart := h.apart
  size := Nat.le_trans h.size (Nat.le_of_eq (size_modify ..).symm)

theorem write_text (h : v.Dressed s base n ts rendered) {text : String}
    (ht : Template.parse s.delimiters text = none) :
    (v.write .text n text).Dressed s base n ts true := by
  obtain ⟨hs, c, hch, hcs, hct, hc⟩ := children_write_text h.lt h.sort text
  refine ⟨hs, (nomatch ·), fun _ => ⟨c, hch, hcs, by rwa [hct], ?_⟩, h.made, h.apart,
    Nat.le_trans h.size (v.size_write .text n text)⟩
  obtain hc | rfl := hc
  · exact h.children (hc ▸ List.mem_singleton_self c)
  · exact .inr h.size

theorem changes_write (h : v.Dressed s base n ts rendered) (face : Face) (text : String) :
    View.Changes base (n :: Tree.nodesAll ts) [] v (v.write face n text) :=
  .write h.lt h.size (.inl List.mem_cons_self)
    (fun _ _ hc => (h.children hc).imp_left (List.mem_cons_of_mem n)) face text

theorem write (h : v.Dressed s base n ts rendered) (face : Face) {text : String}
    (ht : face = .text → Template.parse s.delimiters text = none) :
    (v.write face n text).Dressed s base n ts (decide (face = .text) || rendered) := by
  cases face with
  | text => exact h.write_text (ht rfl)
  | value => exact h.modify _ (fun _ => rfl) fun _ => rfl
  | html => exact h.modify _ (fun _ => rfl) fun _ => rfl

end View.Dressed

section Element

variable {rendered : Bool}

theorem Listener.attach_gains (hw : w.Bindable m) (hd : w.view.Dressed s base n ts rendered)
    (l : Listener) : ∃ w', l.attach n w = some (.ok (), w') ∧
      w.Gains base (n :: Tree.nodesAll ts) m [] [(n, l)] w' ∧
        w'.view.Dressed s base n ts rendered :=
  ⟨_, rfl, .ofView hw (.listen hd.lt List.mem_cons_self l) _,
    hd.modify _ (fun _ => rfl) fun _ => rfl⟩

theorem Face.bind_dressed (hw : w.Bindable m) (hd : w.view.Dressed s base n ts rendered)
    (face : Face)
    (path : String) (hq : face = .text → ∀ v, w.found? k m path = some (.ok v) →
      ¬s.delimiters.opening.toList <:+: v.text.toList) :
    (∀ f, w.found? k m path = some (.error f) → ∃ w',
      face.bind (Engine.ofFuel k).compute n m path w = some (.error f, w') ∧
        w.Gains base (n :: Tree.nodesAll ts) m [] [] w') ∧
    ∀ v, w.found? k m path = some (.ok v) → ∃ p w', Path.parse path = .ok p ∧
      face.bind (Engine.ofFuel k).compute n m path w = some (.ok (), w') ∧
        w.Gains base (n :: Tree.nodesAll ts) m [(p, .write face n)] [] w' ∧
          w'.view.Dressed s base n ts (decide (face = .text) || rendered) := by
  obtain ⟨herr, hok⟩ := Face.bind_gains (k := k) base (n :: Tree.nodesAll ts) hw face n path
  refine ⟨herr, fun v hv => ?_⟩
  obtain ⟨p, w', hp, he, hview, hg⟩ := hok v hv
  refine ⟨p, w', hp, he, hg (hview ▸ hd.changes_write face v.text), ?_⟩
  rw [hview]
  exact hd.write face fun hf => Template.parse_eq_none (hq hf v hv)

theorem found_of_bound {r? : Option (Except Fault Value)}
    (h : (r?.map fun r => r.map fun _ => ()) = some (.ok ())) : ∃ v, r? = some (.ok v) := by
  obtain ⟨r, rfl, hr⟩ := Option.map_eq_some_iff.1 h
  cases r with
  | error f => cases hr
  | ok v => exact ⟨v, rfl⟩

theorem fault_of_bound {r? : Option (Except Fault Value)} {f : Fault}
    (h : (r?.map fun r => r.map fun _ => ()) = some (.error f)) : r? = some (.error f) := by
  obtain ⟨r, rfl, hr⟩ := Option.map_eq_some_iff.1 h
  cases r with
  | error g =>
    cases hr
    rfl
  | ok v => cases hr

theorem Item.filterMap_binding? {i : Item} {path : String} {callback : Callback} {p : Path}
    (hi : i.watch? = some (path, callback)) (hp : Path.parse path = .ok p) :
    [i].filterMap Item.binding? = [(p, callback)] := by
  have hb : i.binding? = some (p, callback) := by
    rw [binding?, hi, Option.bind_some]
    simp only [hp]
    rfl
  rw [List.filterMap_cons, hb]
  rfl

theorem Face.bind_walks (hw : w.Bindable m) (hd : w.view.Dressed s base n ts rendered) (face : Face)
    {i : Item} {path : String} (hi : i.watch? = some (path, .write face n)) (hl : i.heard m = [])
    (hb : i.bound? w k m = (w.found? k m path).map fun r => r.map fun _ => ())
    (hq : face = .text → ∀ v, w.found? k m path = some (.ok v) →
      ¬s.delimiters.opening.toList <:+: v.text.toList) :
    (face.bind (Engine.ofFuel k).compute n m path).Walks k base (n :: Tree.nodesAll ts) m w [i]
      fun w' => w'.view.Dressed s base n ts (decide (face = .text) || rendered) := by
  obtain ⟨herr, hok⟩ := Face.bind_dressed (k := k) hw hd face path hq
  refine .single (fun h => ?_) fun f h => herr f (fault_of_bound (hb ▸ h))
  obtain ⟨v, hv⟩ := found_of_bound (hb ▸ h)
  obtain ⟨p, w₁, hp, he, hg, hd₁⟩ := hok v hv
  refine ⟨w₁, he, ?_, hd₁⟩
  rw [World.BindsItems, Item.filterMap_binding? hi hp, List.flatMap_singleton, hl]
  exact hg

theorem Directive.bind_walks (hw : w.Bindable m) (hd : w.view.Dressed s base n ts rendered)
    (u : Directive.Use) (value : String) (hq : Item.Quiet s w k m (.directive n (.ok u) value)) :
    (Directive.bind (Engine.ofFuel k).compute u value n m).Walks k base (n :: Tree.nodesAll ts) m w
      [.directive n (.ok u) value] fun w' =>
        w'.view.Dressed s base n ts (decide (u.directive = .text) || rendered) := by
  obtain ⟨directive, argument⟩ := u
  cases directive with
  | model =>
    obtain ⟨herr, hok⟩ := Face.bind_dressed (k := k) hw hd .value value fun h => by cases h
    have hbind : Directive.bind (Engine.ofFuel k).compute ⟨.model, argument⟩ value n m =
        (Face.value.bind (Engine.ofFuel k).compute n m value >>= fun _ =>
          Listener.attach { event := "input", response := .assign m value n } n) := rfl
    refine .single (fun h => ?_) fun f h => ?_
    · obtain ⟨v, hv⟩ := found_of_bound h
      obtain ⟨p, w₁, hp, he, hg, hd₁⟩ := hok v hv
      obtain ⟨w₂, he₂, hg₂, hd₂⟩ := Listener.attach_gains hg.bindable hd₁
        { event := "input", response := .assign m value n }
      refine ⟨w₂, ?_, ?_, hd₂⟩
      · rw [hbind, Action.bind_apply, he]
        exact he₂
      · rw [World.BindsItems, Item.filterMap_binding? rfl hp]
        exact hg.trans hg₂
    · obtain ⟨w₁, he, hg⟩ := herr f (fault_of_bound h)
      exact ⟨w₁, by rw [hbind, Action.bind_apply, he], hg⟩
  | html => exact Face.bind_walks hw hd .html rfl rfl rfl fun h => by cases h
  | text => exact Face.bind_walks hw hd .text rfl rfl rfl fun _ => hq rfl
  | on =>
    cases argument with
    | none =>
      -- Without an event there is nothing to listen to, whatever methods there are.
      refine .single (fun h => by cases h) fun f h => ?_
      cases h
      exact ⟨w, rfl, .refl hw⟩
    | some event =>
      have he := Directive.bind_on (Engine.ofFuel k).compute n m event value w
      have hb : (Item.directive n (.ok ⟨.on, some event⟩) value).bound? w k m =
          some (if ViewModel.hasMethod w m value then .ok ()
            else .error (.unknownMethod value)) := rfl
      cases hm : ViewModel.hasMethod w m value with
      | true =>
        rw [hm, if_pos rfl] at he hb
        refine .single (fun _ => ?_) fun f h => ?_
        · obtain ⟨w₁, he₁, hg, hd₁⟩ := Listener.attach_gains hw hd
            { event, response := .call m value }
          exact ⟨w₁, he.trans he₁, hg, hd₁⟩
        · rw [hb] at h
          cases h
      | false =>
        rw [hm, if_neg Bool.false_ne_true] at he hb
        refine .single (fun h => ?_) fun f h => ?_
        · rw [hb] at h
          cases h
        · rw [hb] at h
          cases h
          exact ⟨w, he, .refl hw⟩

theorem Settings.bindAttr_walks (hw : w.Bindable m) (hd : w.view.Dressed s base n ts rendered)
    (attr : String × String) (hq : ∀ i ∈ s.declared? n attr, i.Quiet s w k m) :
    (s.bindAttr (Engine.ofFuel k).compute n m attr).Walks k base (n :: Tree.nodesAll ts) m w
      (s.declared? n attr).toList fun w' =>
        w'.view.Dressed s base n ts ((s.rendered? attr).isSome || rendered) := by
  rw [bindAttr, declared?, rendered?, use?]
  rw [declared?] at hq
  cases hparse : Directive.parse s.marker attr.1 with
  | error f =>
    refine .single (fun h => by cases h) fun g h => ?_
    cases h
    exact ⟨w, rfl, .refl hw⟩
  | ok u? =>
    cases u? with
    | none => exact .nil rfl (.refl hw) hd
    | some u =>
      rw [hparse] at hq
      refine (Directive.bind_walks hw hd u attr.2 (hq _ rfl)).mono (fun _ => .inl) fun w' _ h => ?_
      by_cases hu : u.directive = .text
      · simpa [hu] using h
      · simpa [hu] using h

theorem Settings.attrs_walks (attrs : List (String × String)) (hw : w.Bindable m)
    (hd : w.view.Dressed s base n ts rendered)
    (hq : ∀ i ∈ attrs.filterMap (s.declared? n), i.Quiet s w k m) :
    (attrs.forM (s.bindAttr (Engine.ofFuel k).compute n m)).Walks k base (n :: Tree.nodesAll ts) m
      w (attrs.filterMap (s.declared? n)) fun w' =>
        w'.view.Dressed s base n ts ((s.textPath? attrs).isSome || rendered) := by
  induction attrs generalizing w rendered with
  | nil => exact .nil rfl (.refl hw) hd
  | cons attr attrs ih =>
    have hcons : (attr :: attrs).filterMap (s.declared? n) =
        (s.declared? n attr).toList ++ attrs.filterMap (s.declared? n) := by
      rw [List.filterMap_cons]
      cases s.declared? n attr <;> rfl
    rw [hcons] at hq ⊢
    have hattr := s.bindAttr_walks (k := k) hw hd attr fun i hi =>
      hq i (List.mem_append_left _ (Option.mem_toList.2 hi))
    refine .bind hw hattr fun w₁ _ hb hd₁ => ?_
    refine (ih hb.bindable hd₁ fun i hi => hb.quiet hw (hq i (List.mem_append_right _ hi))).mono
      (fun _ => .inl) fun w₂ _ h => ?_
    rw [textPath?]
    cases hpath : s.textPath? attrs with
    | some path => simpa [hpath] using h
    | none => simpa [hpath] using h

end Element

section Text

def Template.spelled (text : String → String) (t : Template) : String :=
  String.join (t.segments.map (spell text))
where
  spell (text : String → String) : Segment → String
    | .literal s => s
    | .path path => text path

def World.Shows (w : World) (k : Nat) (m : Ref .model) (items : List Item) : Prop :=
  ∀ n t path, Item.span n t path ∈ items → (w.view.node n).sort = .text ∧
    ∃ text : String → String, (w.view.node n).text = t.spelled text ∧
      ∀ path ∈ t.paths, (w.found? k m path).map (Except.map Value.text) = some (.ok (text path))

theorem ViewModel.watchAll_walks (hw : w.Bindable m) (t : Template) (paths : List String) :
    (paths.forM fun path => discard <|
      ViewModel.watch (Engine.ofFuel k).compute m path (.render n t)).Walks k base L m w
        (paths.map (.span n t)) fun w' => w'.view = w.view := by
  induction paths generalizing w with
  | nil => exact .nil rfl (.refl hw) rfl
  | cons path paths ih =>
    obtain ⟨herr, hok⟩ := ViewModel.watch_gains (k := k) hw base L path (.render n t)
    have hone : (discard (ViewModel.watch (Engine.ofFuel k).compute m path (.render n t)) :
        Action Unit).Walks k base L m w [.span n t path] fun w' => w'.view = w.view := by
      refine .single (fun h => ?_) fun f h => ?_
      · obtain ⟨v, hv⟩ := found_of_bound h
        obtain ⟨p, r, w₁, hp, he, hg, -, hview⟩ := hok v hv
        refine ⟨w₁, by rw [Action.discard_apply, Action.bind_apply, he]; rfl, ?_, hview⟩
        rw [World.BindsItems, Item.filterMap_binding? rfl hp]
        exact hg
      · obtain ⟨w₁, he, hg⟩ := herr f (fault_of_bound h)
        exact ⟨w₁, by rw [Action.discard_apply, Action.bind_apply, he], hg⟩
    exact .bind hw hone fun w₁ _ hb hview =>
      (ih hb.bindable).mono (fun _ => .inl) fun w₂ _ hview₂ => hview₂.trans hview

def Template.readAt (compute : Computed → Reading Value) (m : Ref .model) :
    Segment → Action String
  | .literal text => return text
  | .path path => return (← (ViewModel.read compute m path).once).text

theorem Template.render_eq (t : Template) (compute : Computed → Reading Value) (m : Ref .model) :
    t.render compute m = (do return String.join (← t.segments.mapM (readAt compute m))) := by
  have hread : readAt compute m = fun
      | .literal text => return text
      | .path path => return (← (ViewModel.read compute m path).once).text := by
    funext segment
    cases segment <;> rfl
  rw [hread]
  rfl

theorem Template.texts_of_found (hw : w.Bindable m) {text : String → String}
    {segments : List Segment} (h : ∀ path, Segment.path path ∈ segments →
      (w.found? k m path).map (Except.map Value.text) = some (.ok (text path))) :
    ∃ hs w', segments.mapM (readAt (Engine.ofFuel k).compute m) w =
      some (.ok (segments.map (spelled.spell text)), w') ∧ w.Glances hs w' := by
  induction segments generalizing w with
  | nil => exact ⟨[], w, rfl, .nil w⟩
  | cons segment segments ih =>
    have hone : ∃ hs w₁, readAt (Engine.ofFuel k).compute m segment w =
        some (.ok (spelled.spell text segment), w₁) ∧ w.Glances hs w₁ := by
      cases segment with
      | literal s => exact ⟨[], w, rfl, .nil w⟩
      | path path =>
        obtain ⟨r, hr, htext⟩ := Option.map_eq_some_iff.1 (h path List.mem_cons_self)
        obtain ⟨⟨r, w₁⟩, he, rfl⟩ := Option.map_eq_some_iff.1 hr
        obtain ⟨hs, hg⟩ :=
          (ViewModel.read_proceeds (Engine.compute_proceeds k) m path).once _ _ _ he
        cases r with
        | error f => cases htext
        | ok v =>
          refine ⟨hs, w₁, ?_, hg⟩
          rw [readAt, Action.bind_apply, he, spelled.spell, ← Except.ok.inj htext]
          rfl
    obtain ⟨hs, w₁, he, hg⟩ := hone
    have hgain : w.Gains 0 [] m [] [] w₁ := hg.gains hw
    obtain ⟨hs', w₂, he', hg'⟩ := ih hgain.bindable fun path hp => by
      rw [hgain.found_text hw]
      exact h path (List.mem_cons_of_mem segment hp)
    refine ⟨hs ++ hs', w₂, ?_, hg.trans hg'⟩
    rw [List.mapM_cons, Action.bind_apply, he]
    dsimp only
    rw [Action.bind_apply, he']
    rfl

/-- A template whose paths all lead to something renders as what they lead to. -/
theorem Template.render_of_found (hw : w.Bindable m) (t : Template) {text : String → String}
    (h : ∀ path ∈ t.paths,
      (w.found? k m path).map (Except.map Value.text) = some (.ok (text path))) :
    ∃ hs w', t.render (Engine.ofFuel k).compute m w = some (.ok (t.spelled text), w') ∧
      w.Glances hs w' := by
  obtain ⟨hs, w', he, hg⟩ := texts_of_found hw fun path hp => h path (mem_paths hp)
  exact ⟨hs, w', by rw [render_eq, Action.bind_apply, he]; rfl, hg⟩

theorem Template.bind_walks (hw : w.Bindable m) (t : Template) (hn : (w.view.node n).sort = .text)
    (hbase : base ≤ w.view.nodes.size) :
    (t.bind (Engine.ofFuel k).compute n m).Walks k base [n] m w (t.paths.map (.span n t))
      fun w' => w'.Shows k m (t.paths.map (.span n t)) := by
  have hl : n.index < w.view.nodes.size := View.lt_of_sort (by rw [hn]; decide)
  refine .andThen hw (ViewModel.watchAll_walks hw t t.paths) fun w₁ hall hb hview => ?_
  have hfound (path : String) (hp : path ∈ t.paths) : ∃ text : String,
      (w₁.found? k m path).map (Except.map Value.text) = some (.ok text) := by
    obtain ⟨v, hv⟩ := found_of_bound (hall _ (List.mem_map_of_mem hp))
    exact ⟨v.text, by rw [hb.found_text hw, hv]; rfl⟩
  choose! text htext using hfound
  obtain ⟨hs, w₂, hrender, hglances⟩ := t.render_of_found hb.bindable htext
  have hgain : w₁.Gains base [n] m [] [] w₂ := hglances.gains hb.bindable
  have hview₂ : w₂.view = w.view := (World.Glances.sameFrame hglances).view.trans hview
  have hn₂ : (w₂.view.node n).sort = .text := by rw [hview₂, hn]
  have hch : View.Changes base [n] [] w₂.view (w₂.view.write .text n (t.spelled text)) := by
    rw [hview₂]
    refine .write hl hbase (.inl (List.mem_singleton_self n)) (fun hs => ?_) .text _
    rw [hn] at hs
    cases hs
  obtain ⟨hsort, hshown⟩ := View.node_write_text hn₂ (t.spelled text)
  let w₃ : World := { w₂ with
    view := w₂.view.write .text n (t.spelled text)
    trace := w₂.trace.push (.wrote m .text n (t.spelled text)) }
  have hwrite : (t.render (Engine.ofFuel k).compute m >>= Face.text.write m n) w₁ =
      some (.ok (), w₃) := by
    rw [Action.bind_apply, hrender]
    rfl
  have hwrote : w₁.Gains base [n] m [] [] w₃ := hgain.trans (.ofView hgain.bindable hch _)
  refine .nil hwrite hwrote fun n' t' path' hi => ?_
  obtain ⟨path, -, he⟩ := List.mem_map.1 hi
  cases he
  refine ⟨hsort, text, hshown, fun path hp => ?_⟩
  rw [hwrote.found_text hb.bindable]
  exact htext path hp

theorem Settings.bindText_walks (base : Nat) (hw : w.Bindable m) (s : Settings)
    (hn : (w.view.node n).sort = .text) (hbase : base ≤ w.view.nodes.size) :
    (s.bindText (Engine.ofFuel k).compute n m).Walks k base [n] m w
      (s.spans n (w.view.node n).text) fun w' => w'.Shows k m (s.spans n (w.view.node n).text) := by
  have he : s.bindText (Engine.ofFuel k).compute n m w =
      (match Template.parse s.delimiters (w.view.node n).text with
      | some t => t.bind (Engine.ofFuel k).compute n m
      | none => pure () : Action Unit) w := by
    rw [bindText, Action.get_bind, View.text_of_sort hn]
    cases Template.parse s.delimiters (w.view.node n).text <;> rfl
  refine .congr he ?_
  rw [spans]
  cases Template.parse s.delimiters (w.view.node n).text with
  | none => exact .nil rfl (.refl hw) fun _ _ _ hi => by cases hi
  | some t => exact Template.bind_walks hw t hn hbase

end Text

end ViewBinding
