import ViewBinding.Proofs.Forests.Compile
import ViewBinding.Proofs.Forests.Trees
import ViewBinding.Proofs.Walks.Nodes

/-! Binding a view tree binds what it declares, item by item in document order, up to the first item
that cannot be bound. -/

namespace ViewBinding

variable {w w' : World} {k : Nat} {m : Ref .model} {base : Nat} {n : Ref .node} {s : Settings}

theorem Settings.span_notMem_declared {attrs : List (String × String)} {n' : Ref .node}
    {t : Template} {path : String} : Item.span n' t path ∉ attrs.filterMap (s.declared? n) := by
  intro h
  obtain ⟨attr, -, he⟩ := List.mem_filterMap.1 h
  rw [Settings.declared?] at he
  split at he <;> cases he

namespace Tree

theorem span_mem_spans {n' : Ref .node} {t : Template} {path text : String}
    (h : Item.span n' t path ∈ s.spans n text) : n' = n := by
  rw [Settings.spans] at h
  split at h
  · cases h
  · obtain ⟨_, -, he⟩ := List.mem_map.1 h
    cases he
    rfl

mutual

theorem span_mem_items {n' : Ref .node} {t : Template} {path : String} :
    ∀ tree : Tree, Item.span n' t path ∈ tree.items s → n' ∈ tree.nodes
  | element n attrs ts, h => by
    rw [items, List.mem_append] at h
    obtain h | h := h
    · exact absurd h Settings.span_notMem_declared
    · split at h
      · cases h
      · exact List.mem_cons_of_mem n (span_mem_itemsAll ts h)
  | text n content, h => List.mem_singleton.2 (span_mem_spans h)
  | other n, h => nomatch h

theorem span_mem_itemsAll {n' : Ref .node} {t : Template} {path : String} :
    ∀ ts : List Tree, Item.span n' t path ∈ itemsAll s ts → n' ∈ nodesAll ts
  | [], h => nomatch h
  | tree :: ts, h => by
    rw [itemsAll, List.mem_append] at h
    rw [nodesAll, List.mem_append]
    exact h.imp (span_mem_items tree) (span_mem_itemsAll ts)

end

end Tree

theorem World.Shows.append {is js : List Item} (h : w.Shows k m is) (h' : w.Shows k m js) :
    w.Shows k m (is ++ js) := fun n t path hi =>
  (List.mem_append.1 hi).elim (h n t path) (h' n t path)

theorem World.Gains.shows {L : List (Ref .node)} {bs : List (Path × Callback)}
    {ls : List (Ref .node × Listener)} {is : List Item} (hg : w.Gains base L m bs ls w')
    (hw : w.Bindable m) (h : w.Shows k m is)
    (hn : ∀ n t path, Item.span n t path ∈ is → (w.view.node n).Moved (w'.view.node n)) :
    w'.Shows k m is := fun n t path hi => by
  obtain ⟨hsort, text, hshown, htext⟩ := h n t path hi
  have hm := hn n t path hi
  refine ⟨hm.sort.trans hsort, text, hm.text.trans hshown, fun path hp => ?_⟩
  rw [hg.found_text hw]
  exact htext path hp

namespace Settings

variable (s) (k m base) in
def Walks (depth : Nat) : Prop :=
  ∀ (ts : List Tree) (w : World), Tree.heightAll ts < depth → w.Bindable m → w.view.HoldsAll ts →
    base ≤ w.view.nodes.size → (Tree.nodesAll ts).Nodup →
    (∀ n ∈ Tree.nodesAll ts, n.index < base) → (∀ i ∈ Tree.itemsAll s ts, i.Quiet s w k m) →
    (s.bindNodes (Engine.ofFuel k).compute m depth (ts.map Tree.root)).Walks k base
      (Tree.nodesAll ts) m w (Tree.itemsAll s ts) fun w' => w'.Shows k m (Tree.itemsAll s ts)

theorem rendered_walks (hw : w.Bindable m) {depth : Nat} (hdepth : 0 < depth) {ts : List Tree}
    (hd : w.view.Dressed s base n ts true) :
    (s.bindNodes (Engine.ofFuel k).compute m depth (w.view.children n)).Walks k base
      (n :: Tree.nodesAll ts) m w [] fun _ => True := by
  obtain ⟨c, hch, hcs, hct, hc⟩ := hd.text rfl
  obtain ⟨depth, rfl⟩ := Nat.exists_eq_add_one.2 hdepth
  have ht := s.bindText_walks (k := k) base hw hcs hd.size
  have hspans : s.spans c (w.view.node c).text = [] := by rw [spans, hct]
  rw [hspans] at ht
  rw [hch, bindNodes_succ]
  refine .andThen hw ((ht.congr (s.bindNode_text hcs)).mono (fun n' hn' => ?_) fun _ _ h => h)
    fun w₁ _ hb _ => .nil rfl (.refl hb.bindable) trivial
  obtain rfl := List.mem_singleton.1 hn'
  exact hc.imp_left (List.mem_cons_of_mem n)

theorem element_walks {depth : Nat} (ih : s.Walks k m base depth)
    {attrs : List (String × String)} {ts : List Tree} (hdepth : Tree.heightAll ts < depth)
    (hw : w.Bindable m) (ha : (w.view.node n).attrs = attrs)
    (hd : w.view.Dressed s base n ts false) (hu : (Tree.nodesAll ts).Nodup)
    (hm : ∀ n ∈ Tree.nodesAll ts, n.index < base)
    (hq : ∀ i ∈ (Tree.element n attrs ts).items s, i.Quiet s w k m) :
    (s.bindNode (Engine.ofFuel k).compute m depth n).Walks k base (n :: Tree.nodesAll ts) m w
      ((Tree.element n attrs ts).items s) fun w' =>
        w'.Shows k m ((Tree.element n attrs ts).items s) := by
  have he : s.bindNode (Engine.ofFuel k).compute m depth n w =
      (attrs.forM (s.bindAttr (Engine.ofFuel k).compute n m) >>= fun _ => do
        s.bindNodes (Engine.ofFuel k).compute m depth ((← get).view.children n)) w := by
    rw [bindNode, Action.get_bind, hd.sort, ← ha]
    rfl
  have hattrs (w' : World) : w'.Shows k m (attrs.filterMap (s.declared? n)) :=
    fun _ _ _ hi => absurd hi span_notMem_declared
  refine .congr he ?_
  rw [Tree.items] at hq ⊢
  refine .bind hw (s.attrs_walks attrs hw hd fun i hi => hq i (List.mem_append_left _ hi))
    fun w₁ _ hb hd₁ => .congr
      (y := s.bindNodes (Engine.ofFuel k).compute m depth (w₁.view.children n)) rfl ?_
  rw [Bool.or_false] at hd₁
  -- A text directive leaves nothing below the element but the text that it rendered.
  cases hr : (s.textPath? attrs).isSome with
  | true =>
    rw [hr] at hd₁
    rw [if_pos rfl, List.append_nil]
    exact (rendered_walks hb.bindable (Nat.zero_lt_of_lt hdepth) hd₁).mono (fun _ => .inl)
      fun w₂ _ _ => hattrs w₂
  | false =>
    rw [hr] at hd₁ hq
    obtain ⟨hc, ht⟩ := hd₁.trees rfl
    have hts := ih ts w₁ hdepth hb.bindable ht hd₁.size hu hm fun i hi =>
      hb.quiet hw (hq i (List.mem_append_right _ hi))
    rw [← hc] at hts
    rw [if_neg Bool.false_ne_true]
    exact hts.mono (fun n' hn' => .inl (List.mem_cons_of_mem n hn')) fun w₂ _ h =>
      (hattrs w₂).append h

theorem tree_walks {depth : Nat} (ih : s.Walks k m base depth) (t : Tree)
    (hdepth : t.height ≤ depth) (hw : w.Bindable m) (ht : w.view.Holds t)
    (hbase : base ≤ w.view.nodes.size) (hu : t.nodes.Nodup)
    (hm : ∀ n ∈ t.nodes, n.index < base) (hq : ∀ i ∈ t.items s, i.Quiet s w k m) :
    (s.bindNode (Engine.ofFuel k).compute m depth t.root).Walks k base t.nodes m w (t.items s)
      fun w' => w'.Shows k m (t.items s) := by
  cases t with
  | element n attrs ts =>
    obtain ⟨hs, ha, hc, hts⟩ := ht
    rw [Tree.nodes, List.nodup_cons] at hu
    have hd : w.view.Dressed s base n ts false :=
      ⟨hs, fun _ => ⟨hc, hts⟩, fun h => (by cases h), hm n List.mem_cons_self, hu.1, hbase⟩
    exact element_walks ih hdepth hw ha hd hu.2
      (fun n' hn' => hm n' (List.mem_cons_of_mem n hn')) hq
  | text n content =>
    obtain ⟨hs, hc⟩ := ht
    have htext := s.bindText_walks (k := k) base hw hs hbase
    rw [hc] at htext
    exact htext.congr (s.bindNode_text hs)
  | other n =>
    have hs : (w.view.node n).sort = .other := ht
    have he : s.bindNode (Engine.ofFuel k).compute m depth n w = some (.ok (), w) := by
      rw [bindNode, Action.get_bind, hs]
      rfl
    exact .nil he (.refl hw) fun _ _ _ hi => by cases hi

/-- Trees that are not too high are bound one after the other. -/
theorem bindNodes_walks (s : Settings) (k : Nat) (m : Ref .model) (base depth : Nat) :
    s.Walks k m base depth := by
  induction depth with
  | zero => exact fun ts w hd => absurd hd (Nat.not_lt_zero _)
  | succ depth ih =>
    intro ts w hdepth hw ht hbase hu hm hq
    rw [bindNodes_succ]
    induction ts generalizing w with
    | nil => exact .nil rfl (.refl hw) fun _ _ _ hi => nomatch hi
    | cons t ts ihs =>
      rw [Tree.nodesAll, List.nodup_append] at hu
      obtain ⟨hut, huts, hdisj⟩ := hu
      rw [Tree.heightAll] at hdepth
      rw [Tree.itemsAll] at hq ⊢
      have htree := tree_walks ih t (by omega) hw ht.1 hbase hut
        (fun n hn => hm n (List.mem_append_left _ hn)) fun i hi => hq i (List.mem_append_left _ hi)
      -- Nodes of the trees to come are left alone by this one.
      refine .bind hw (htree.mono (fun n hn => .inl (List.mem_append_left _ hn))
        fun w₁ hb h => And.intro hb.view h) fun w₁ _ hb ⟨hview, hshow⟩ => ?_
      have hkept (n : Ref .node) (hn : n ∈ Tree.nodesAll ts) : w₁.view.node n = w.view.node n :=
        hview.others n (fun hn' => hdisj n hn' n hn rfl) (hm n (List.mem_append_right _ hn))
      have hts : w₁.view.HoldsAll ts := View.HoldsAll.moved ts (fun n hn => by
        rw [hkept n hn]
        exact .refl _) ht.2
      have hrest := ihs w₁ (by omega) hb.bindable hts (Nat.le_trans hbase hb.view.size) huts
        (fun n hn => hm n (List.mem_append_right _ hn)) fun i hi =>
          hb.quiet hw (hq i (List.mem_append_right _ hi))
      refine hrest.mono (fun n hn => .inl (List.mem_append_right _ hn)) fun w₂ hb₂ hshow₂ => ?_
      refine (hb₂.shows hb.bindable hshow fun n t' path hi => ?_).append hshow₂
      have hn := Tree.span_mem_items t hi
      rw [hb₂.view.others n (fun hn' => hdisj n hn n hn' rfl) (hm n (List.mem_append_left _ hn))]
      exact .refl _

end Settings

section Compiling

variable {root : Ref .node} {ts : List Tree} {L : List (Ref .node)}

theorem View.changes_detach (v : View) (base : Nat) (hroot : root ∈ L)
    (hc : ∀ c ∈ v.children root, c ∈ L) :
    View.Changes base L [] v (v.detach root).2 where
  size := Nat.le_of_eq (v.size_detach root).symm
  listeners n := (v.listeners_detach root n).trans (List.append_nil _).symm
  others n hn _ := by
    have hne : root ≠ n := fun e => hn (e ▸ hroot)
    exact (node_setParent_of_notMem fun hm => hn (hc n hm)).trans (node_modify_of_ne hne _)

theorem View.changes_append (v : View) (base : Nat) (hroot : root ∈ L) {ns : List (Ref .node)}
    (hc : ∀ c ∈ ns, c ∈ L) : View.Changes base L [] v (v.append root ns) where
  size := Nat.le_of_eq (v.size_append root ns).symm
  listeners n := (v.listeners_append root n ns).trans (List.append_nil _).symm
  others n hn _ := by
    have hne : root ≠ n := fun e => hn (e ▸ hroot)
    exact (node_modify_of_ne hne _).trans (node_setParent_of_notMem fun hm => hn (hc n hm))

theorem Settings.compile_bears (hw : w.Bindable m) (hb : w.view.Bears root ts)
    (hq : ∀ i ∈ Tree.itemsAll s ts, i.Quiet s w k m) :
    (s.compile (Engine.ofFuel k).compute m root).Walks k w.view.nodes.size
      (root :: Tree.nodesAll ts) m w (Tree.itemsAll s ts)
        fun w' => w'.Shows k m (Tree.itemsAll s ts) := by
  let w₁ : World := { w with
    view := (w.view.detach root).2
    trace := w.trace.push (.showed (.detach root (w.view.children root))) }
  have hu := List.nodup_cons.1 hb.nodup
  have hchildren : ∀ c ∈ w.view.children root, c ∈ Tree.nodesAll ts := by
    rw [hb.children]
    intro c hc
    obtain ⟨t, ht, rfl⟩ := List.mem_map.1 hc
    exact Tree.mem_nodesAll ht t.root_mem_nodes
  have hL : ∀ c ∈ w.view.children root, c ∈ root :: Tree.nodesAll ts :=
    fun c hc => List.mem_cons_of_mem root (hchildren c hc)
  have hg : w.Gains w.view.nodes.size (root :: Tree.nodesAll ts) m [] [] w₁ :=
    .ofView hw (w.view.changes_detach _ List.mem_cons_self hL) _
  have hsize : w₁.view.nodes.size = w.view.nodes.size := w.view.size_detach root
  have ht₁ : w₁.view.HoldsAll ts := View.HoldsAll.moved ts (fun n hn =>
    w.view.moved_detach fun e => hu.1 (e ▸ hn)) hb.holds
  have hdepth : Tree.heightAll ts < w₁.view.nodes.size + 1 := by
    have hle := Tree.heightAll_le ts
    have hlt := hb.length_lt
    omega
  have hwalk := bindNodes_walks s k m w.view.nodes.size _ ts w₁ hdepth
    hg.bindable ht₁ (Nat.le_of_eq hsize.symm) hu.2
    (fun n hn => hb.made n (List.mem_cons_of_mem root hn)) fun i hi => hg.quiet hw (hq i hi)
  rw [← hb.children] at hwalk
  -- The children come back after whatever was bound.
  have happend {w₂ : World} (h : w₂.Bindable m) :
      w₂.Gains w.view.nodes.size (root :: Tree.nodesAll ts) m [] [] { w₂ with
        view := w₂.view.append root (w.view.children root)
        trace := w₂.trace.push (.showed (.append root (w.view.children root))) } :=
    .ofView h (w₂.view.changes_append _ List.mem_cons_self hL) _
  have hback {w₂ : World} {is : List Item}
      (h : w₁.BindsItems w.view.nodes.size (Tree.nodesAll ts) m is w₂) :
      w.BindsItems w.view.nodes.size (root :: Tree.nodesAll ts) m is { w₂ with
        view := w₂.view.append root (w.view.children root)
        trace := w₂.trace.push (.showed (.append root (w.view.children root))) } := by
    have h₂ := World.Gains.mono h fun n hn => .inl (List.mem_cons_of_mem root hn)
    have hall := (hg.trans h₂).trans (happend h.bindable)
    rwa [List.nil_append, List.nil_append, List.append_nil, List.append_nil] at hall
  refine ⟨fun h => ?_, fun pre i post f hi hp hf => ?_⟩
  · obtain ⟨w₂, he, hb₂, hshow⟩ := hwalk.ends fun i hi => by
      rw [hg.bound? hw]
      exact h i hi
    refine ⟨_, (s.compile_apply m).trans (congrArg _ he), hback hb₂, ?_⟩
    refine (happend hb₂.bindable).shows hb₂.bindable hshow fun n t path hi => ?_
    have hne : root ≠ n := fun e => hu.1 (e ▸ Tree.span_mem_itemsAll ts hi)
    exact w₂.view.moved_append hne _
  · obtain ⟨w₂, he, hb₂⟩ := hwalk.stops pre i post f hi
      (fun j hj => by rw [hg.bound? hw]; exact hp j hj) (by rw [hg.bound? hw]; exact hf)
    exact ⟨_, (s.compile_apply m).trans (congrArg _ he), hback hb₂⟩

theorem Item.parse_of_bound {i : Item} {path : String} {callback : Callback}
    (hi : i.watch? = some (path, callback)) (h : i.bound? w k m = some (.ok ())) :
    ∃ p, Path.parse path = .ok p := by
  have hpath {path : String} (h : ((w.found? k m path).map fun r => r.map fun _ => ()) =
      some (.ok ())) : ∃ p, Path.parse path = .ok p := by
    obtain ⟨v, hv⟩ := found_of_bound h
    cases hp : Path.parse path with
    | error f =>
      rw [World.found?_misspelt hp] at hv
      cases hv
    | ok p => exact ⟨p, rfl⟩
  rcases i with ⟨n, f | ⟨directive, argument⟩, value⟩ | ⟨n, t, path⟩
  · cases hi
  · cases directive <;> cases hi <;> exact hpath h
  · cases hi
    exact hpath h

theorem Item.map_binding? {is : List Item}
    (h : ∀ i ∈ is, i.bound? w k m = some (.ok ())) :
    ((is.filterMap binding?).map fun b => (Except.ok b.1, b.2)) =
      (is.filterMap watch?).map fun b => (Path.parse b.1, b.2) := by
  induction is with
  | nil => rfl
  | cons i is ih =>
    have hrest := ih fun j hj => h j (List.mem_cons_of_mem i hj)
    rw [List.filterMap_cons, List.filterMap_cons, binding?]
    cases hi : i.watch? with
    | none => exact hrest
    | some b =>
      obtain ⟨path, callback⟩ := b
      obtain ⟨p, hp⟩ := Item.parse_of_bound hi (h i List.mem_cons_self)
      simp only [Option.bind_some, hp, Except.toOption, Option.map_some, List.map_cons, hrest]

/-- What a view-model and the nodes have more after items were bound: for every item that shows a
value a watcher on its path, and for every item that listens a listener, in their order. -/
structure World.Adds (w : World) (m : Ref .model) (items : List Item) (w' : World) : Prop where
  bindings : ∃ bs, w'.bindingsOf m = w.bindingsOf m ++ bs ∧
    (bs.map fun b => (Except.ok b.1, b.2)) =
      (items.filterMap Item.watch?).map fun b => (Path.parse b.1, b.2)
  listeners : ∀ n, (w'.view.node n).listeners =
    (w.view.node n).listeners ++ heardAt n (items.flatMap (Item.heard m))

theorem World.BindsItems.adds {is : List Item} (h : w.BindsItems base L m is w')
    (hb : ∀ i ∈ is, i.bound? w k m = some (.ok ())) : w.Adds m is w' :=
  ⟨⟨_, h.bindings, Item.map_binding? hb⟩, h.view.listeners⟩

/-- The items below a node in document order. -/
def Settings.itemsBelow (s : Settings) (v : View) (root : Ref .node) : List Item :=
  Tree.itemsAll s (v.treesBelow root)

/-- Compiling a forest binds exactly what it declares below the root, in document order, if all of
it can be bound. Otherwise the fault is that of the first item that cannot, and what comes before it
is bound. -/
theorem Settings.compile_items (hv : w.view.Forest) (hw : w.Ready m) (s : Settings)
    (root : Ref .node) (hq : ∀ i ∈ s.itemsBelow w.view root, i.Quiet s w k m) :
    ((∀ i ∈ s.itemsBelow w.view root, i.bound? w k m = some (.ok ())) →
      ∃ w', s.compile (Engine.ofFuel k).compute m root w = some (.ok (), w') ∧
        w.Adds m (s.itemsBelow w.view root) w' ∧
        ∀ n t path, .span n t path ∈ s.itemsBelow w.view root →
          ∃ w'', t.render (Engine.ofFuel k).compute m w' = some (.ok (w'.view.text n), w'')) ∧
    ∀ pre i post f, s.itemsBelow w.view root = pre ++ i :: post →
      (∀ j ∈ pre, j.bound? w k m = some (.ok ())) → i.bound? w k m = some (.error f) →
      ∃ w', s.compile (Engine.ofFuel k).compute m root w = some (.error f, w') ∧
        w.Adds m pre w' := by
  by_cases hroot : root.index < w.view.nodes.size
  · have hwalk := s.compile_bears hw.bindable (hv.bears hroot) hq
    refine ⟨fun h => ?_, fun pre i post f hi hp hf => ?_⟩
    · obtain ⟨w', he, hb, hshow⟩ := hwalk.ends h
      refine ⟨w', he, hb.adds h, fun n t path hi => ?_⟩
      obtain ⟨hsort, text, hshown, htext⟩ := hshow n t path hi
      obtain ⟨-, w'', hrender, -⟩ := t.render_of_found hb.bindable htext
      rw [View.text_of_sort hsort, hshown]
      exact ⟨w'', hrender⟩
    · obtain ⟨w', he, hb⟩ := hwalk.stops pre i post f hi hp hf
      exact ⟨w', he, hb.adds hp⟩
  · -- There is nothing below a node that was not made.
    have hnone : s.itemsBelow w.view root = [] := by
      rw [itemsBelow, View.treesBelow, View.children_of_size_le (Nat.le_of_not_lt hroot)]
      rfl
    obtain ⟨w', he, hview, hws, hms⟩ :=
      s.compile_unmade (Nat.le_of_not_lt hroot) (Engine.ofFuel k).compute m
    rw [hnone]
    refine ⟨fun _ => ⟨w', he, ⟨⟨[], ?_, rfl⟩, fun n => ?_⟩, fun _ _ _ hi => (by cases hi)⟩,
      fun pre i post f hi => ?_⟩
    · rw [World.bindingsOf, hms, hws, List.append_nil]
      rfl
    · rw [hview]
      exact (List.append_nil _).symm
    · have hlen := congrArg List.length hi
      simp at hlen

end Compiling

/-- Somebody's tags: an array that is made anew each time, with an object in it that is. -/
def Computed.tags : Computed where
  name := "tags"
  body := .array [.get none "name", .data (.object [("kind", .string "guest")])]
  model := ⟨0⟩

/-- Somebody with a greeting and tags, and a page that shows them around a directive that lacks its
argument. -/
def World.page : World where
  objects := ⟨#[{ slots := (((∅ : Keyed Slot).insert "name" (.cell ⟨0⟩)).insert "greeting"
    (.computed .greeting)).insert "tags" (.computed .tags) }]⟩
  cells := ⟨#[{ value := .string "Ann" }]⟩
  models := ⟨#[{ data := ⟨0⟩ }]⟩
  modelsInUse := [⟨0⟩]
  view := (View.create (.element "div" [] [
    .element "h1" [("id", "top"), ("directive-text", "greeting"), ("directive-model", "name")]
      [.element "b" [("directive-no", "name")] []],
    .comment "{{ no }}", .text "Dear {{ name }}",
    .element "p" [("directive-on", "name")] [.text "{{ tags }} of {{ name }}",
      .element "em" [("directive-html", "tags")] []]]) {}).2

theorem World.page_slot {o : Ref .object} {key : String} {slot : Slot}
    (h : World.page.slot? o key = some slot) :
    slot = .cell ⟨0⟩ ∨ slot = .computed .greeting ∨ slot = .computed .tags := by
  obtain ⟨o⟩ := o
  cases o with
  | zero =>
    have hslot : World.page.slot? ⟨0⟩ key = ((((∅ : Keyed Slot).insert "name"
        (.cell ⟨0⟩)).insert "greeting" (.computed .greeting)).insert "tags"
        (.computed .tags))[key]? := rfl
    simp only [hslot, Std.ExtTreeMap.getElem?_insert, Std.ExtTreeMap.getElem?_empty] at h
    grind
  | succ o =>
    have hslot : World.page.slot? ⟨o + 1⟩ key = (∅ : Keyed Slot)[key]? := rfl
    rw [hslot, Std.ExtTreeMap.getElem?_empty] at h
    cases h

theorem World.page_ready : World.page.Ready ⟨0⟩ where
  whole := {
    cell := fun o key c h => by
      obtain h | h | h := page_slot h <;> cases h
      decide
    value := fun ⟨c⟩ => by
      cases c <;> exact trivial
    root := fun ⟨m⟩ hm => by
      obtain rfl : m = 0 := Nat.lt_one_iff.1 hm
      decide
    living := fun m hm => by
      obtain hm | hm := (World.modelAlive_iff m).1 hm
      · obtain ⟨name, hname⟩ := (Holder.holds_iff _ m).1 hm
        have hnone : World.page.names.models.held[name]? = (∅ : Keyed (Ref .model))[name]? := rfl
        rw [hnone, Std.ExtTreeMap.getElem?_empty] at hname
        cases hname
      · obtain rfl := List.mem_singleton.1 hm
        decide
    saved := fun name v h => by
      have hnone : World.page.names.values[name]? = (∅ : Keyed Value)[name]? := rfl
      rw [hnone, Std.ExtTreeMap.getElem?_empty] at h
      cases h }
  heedless := fun o key c h => by
    obtain h | h | h := page_slot h <;> cases h
    · exact trivial
    · exact ⟨trivial, trivial, trivial, trivial⟩
  made := by decide
  owned := fun r hr => nomatch hr

def Template.tags : Template := ⟨[.path "tags", .literal " of ", .path "name"]⟩

def Item.ofHeading : List Item :=
  [.directive ⟨1⟩ (.ok ⟨.text, none⟩) "greeting", .directive ⟨1⟩ (.ok ⟨.model, none⟩) "name",
    .span ⟨3⟩ ⟨[.literal "Dear ", .path "name"]⟩ "name"]

def Item.ofParagraph : List Item :=
  [.span ⟨4⟩ .tags "tags", .span ⟨4⟩ .tags "name", .directive ⟨5⟩ (.ok ⟨.html, none⟩) "tags"]

/-- The greeting and the name are bound, in the heading and below it, before the directive without
an argument is met. Below that everything can be bound, although the tags are new each time. -/
theorem Settings.compile_items_page :
    (∃ w', ({} : Settings).compile (Engine.ofFuel 2).compute ⟨0⟩ ⟨7⟩ .page =
        some (.error (.missingArgument .on), w') ∧ World.page.Adds ⟨0⟩ Item.ofHeading w') ∧
    ∃ w' w'', ({} : Settings).compile (Engine.ofFuel 2).compute ⟨0⟩ ⟨6⟩ .page =
        some (.ok (), w') ∧ World.page.Adds ⟨0⟩ Item.ofParagraph w' ∧
      Template.tags.render (Engine.ofFuel 2).compute ⟨0⟩ w' =
        some (.ok (w'.view.text ⟨4⟩), w'') := by
  have hforest : World.page.view.Forest := (View.Forest.create _ View.forest_empty).forest
  have hgreeting : (World.page.found? 2 ⟨0⟩ "greeting").map (fun r => r.map Value.text) =
      some (.ok "Ann") := by decide +kernel
  have hall : ({} : Settings).itemsBelow World.page.view ⟨7⟩ = Item.ofHeading ++
      .directive ⟨6⟩ (.ok ⟨.on, none⟩) "name" :: Item.ofParagraph := by decide +kernel
  have hsome : ({} : Settings).itemsBelow World.page.view ⟨6⟩ = Item.ofParagraph := by
    decide +kernel
  have hq : ∀ i ∈ ({} : Settings).itemsBelow World.page.view ⟨7⟩, i.Quiet {} World.page 2 ⟨0⟩ := by
    rw [hall]
    simp only [Item.ofHeading, Item.ofParagraph, List.cons_append, List.nil_append,
      List.forall_mem_cons]
    refine ⟨fun _ v hv => ?_, fun h => (nomatch h), trivial, fun h => (nomatch h), trivial, trivial,
      fun h => (nomatch h), fun _ h => nomatch h⟩
    rw [hv] at hgreeting
    rw [Except.ok.inj (Option.some.inj hgreeting)]
    decide
  have hcompile := fun root => Settings.compile_items (k := 2) hforest World.page_ready {} root
  refine ⟨(hcompile ⟨7⟩ hq).2 _ _ _ _ hall (by decide +kernel) (by decide +kernel), ?_⟩
  obtain ⟨w', he, hadds, hshows⟩ := (hcompile ⟨6⟩ fun i hi => hq i <| by
    rw [hall]
    rw [hsome] at hi
    exact List.mem_append_right _ (List.mem_cons_of_mem _ hi)).1 (by rw [hsome]; decide +kernel)
  rw [hsome] at hadds hshows
  obtain ⟨w'', hrender⟩ := hshows ⟨4⟩ .tags "tags" List.mem_cons_self
  exact ⟨w', w'', he, hadds, hrender⟩

end ViewBinding
