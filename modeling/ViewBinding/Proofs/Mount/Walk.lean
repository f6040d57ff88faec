import ViewBinding.Proofs.Mount.Bound

/-! Binding a view tree watches the paths and listens to the events that it should, or fails with
the first fault on the way. -/

namespace ViewBinding

variable {w w' : World} {compute : Computed → Reading Value} {h : Host} {n : Ref .node}

theorem World.Hosts.write (hw : w.Hosts h) (face : Face) (n : Ref .node) (s : String) :
    ∃ w', face.write h.model n s w = some (.ok (), w') ∧ w'.Hosts h ∧
      w'.watched h.model = w.watched h.model ∧ w'.view = w.view.write face n s :=
  ⟨_, rfl, { hw with nodes := Nat.le_trans hw.nodes (w.view.size_write face n s) }, rfl, rfl⟩

theorem World.Hosts.attach (hw : w.Hosts h) (n : Ref .node) (l : Listener) :
    ∃ w', l.attach n w = some (.ok (), w') ∧ w'.Hosts h ∧
      w'.watched h.model = w.watched h.model ∧ w'.view = w.view.listen n l :=
  ⟨_, rfl, { hw with nodes := Nat.le_trans hw.nodes (Nat.le_of_eq (w.view.size_modify ..).symm) },
    rfl, rfl⟩

variable (compute) in
theorem Face.bind_binds (hp : h.Plain) (hw : w.Hosts h) (face : Face) (n : Ref .node)
    (path : String) : (face.bind compute n h.model path).Binds w ((h.reach path).map fun p => [p])
      fun ps w' => w'.Hosts h ∧ w'.watched h.model = w.watched h.model ++ ps ∧
        w'.view = w.view.write face n (h.shown path) := by
  rw [Face.bind]
  obtain ⟨f, w₁, hr, he⟩ | ⟨p, v, r, w₁, hr, hd, he, hw₁, hwa, hv, hview⟩ :=
    hw.watch_apply compute hp path (.write face n)
  · rw [hr]
    exact ⟨w₁, by rw [Action.bind_apply, he]⟩
  · obtain ⟨w₂, he₂, hw₂, hwa₂, hview₂⟩ := hw₁.write face n (h.shown path)
    rw [hr]
    refine ⟨w₂, ?_, hw₂, hwa₂.trans hwa, hview₂.trans (by rw [hview])⟩
    rw [Action.bind_apply, he]
    dsimp only
    rw [Action.get_bind, hv, ← he₂, Host.shown, hd]

section Element

variable {ts : List Tree} {r : Option String}

structure World.Binding (w : World) (h : Host) (n : Ref .node) (ts : List Tree)
    (r : Option String) :
    Prop where
  hosts : w.Hosts h
  below : w.view.Below h n ts r
  made : n.index < h.base
  apart : n ∉ Tree.nodesAll ts

theorem World.Binding.lt (hb : w.Binding h n ts r) : n.index < w.view.nodes.size :=
  Nat.lt_of_lt_of_le hb.made hb.hosts.nodes

theorem World.Binding.write (hb : w.Binding h n ts r) (face : Face) (path : String) :
    View.Changes h.base (n :: Tree.nodesAll ts) [] w.view (w.view.write face n (h.shown path)) ∧
      (w.view.write face n (h.shown path)).Below h n ts
        (if face = .text then some path else r) := by
  refine ⟨.write hb.lt hb.hosts.nodes (.inl List.mem_cons_self) (fun _ c hc => ?_) face _, ?_⟩
  · exact (hb.below.children hc).imp_left (List.mem_cons_of_mem n)
  · cases face with
    | text => exact hb.below.write_text hb.lt hb.hosts.nodes path
    | value => exact hb.below.modify hb.apart hb.lt _ (fun _ => rfl) fun _ => rfl
    | html => exact hb.below.modify hb.apart hb.lt _ (fun _ => rfl) fun _ => rfl

theorem World.Binding.listen (hb : w.Binding h n ts r) (l : Listener) :
    View.Changes h.base (n :: Tree.nodesAll ts) [(n, l)] w.view (w.view.listen n l) ∧
      (w.view.listen n l).Below h n ts r :=
  ⟨.listen hb.lt List.mem_cons_self l,
    hb.below.modify hb.apart hb.lt _ (fun _ => rfl) fun _ => rfl⟩

variable (compute n) in
theorem Directive.bind_on (m : Ref .model) (event value : String) (w : World) :
    Directive.bind compute ⟨.on, some event⟩ value n m w =
      if ViewModel.hasMethod w m value then
        Listener.attach { event, response := .call m value } n w
      else some (.error (.unknownMethod value), w) := by
  show (if ViewModel.hasMethod w m value = true then _ else _ : Action Unit) w = _
  cases ViewModel.hasMethod w m value <;> rfl

theorem Directive.bind_binds (hp : h.Plain) (hb : w.Binding h n ts r) (u : Directive.Use)
    (value : String) : (Directive.bind compute u value n h.model).Binds w
      (u.watched h.methods h.reach value) fun ps w' =>
        World.Bound h (n :: Tree.nodesAll ts) ((u.heard h.model value n).map (n, ·)) w ps w' ∧
          w'.Binding h n ts (if u.directive = .text then some value else r) := by
  obtain ⟨directive, argument⟩ := u
  have hface (face : Face) := Face.bind_binds compute hp hb.hosts face n value
  cases directive with
  | model =>
    refine Action.Binds.andThen (hface .value) fun ps w₁ ⟨hw₁, hwa, hv⟩ => ?_
    obtain ⟨hch, hbe⟩ := hb.write .value value
    have hb₁ : w₁.Binding h n ts r := { hb with hosts := hw₁, below := hv ▸ hbe }
    obtain ⟨w₂, he, hw₂, hwa₂, hv₂⟩ := hw₁.attach n
      { event := "input", response := .assign h.model value n }
    obtain ⟨hch₂, hbe₂⟩ := hb₁.listen { event := "input", response := .assign h.model value n }
    exact ⟨w₂, he, ⟨hw₂, hwa₂.trans hwa, (hv ▸ hch).trans (hv₂ ▸ hch₂)⟩,
      { hb with hosts := hw₂, below := hv₂ ▸ hbe₂ }⟩
  | html =>
    refine (hface .html).mono fun ps w₁ _ ⟨hw₁, hwa, hv⟩ => ?_
    obtain ⟨hch, hbe⟩ := hb.write .html value
    exact ⟨⟨hw₁, hwa, hv ▸ hch⟩, { hb with hosts := hw₁, below := hv ▸ hbe }⟩
  | text =>
    refine (hface .text).mono fun ps w₁ _ ⟨hw₁, hwa, hv⟩ => ?_
    obtain ⟨hch, hbe⟩ := hb.write .text value
    exact ⟨⟨hw₁, hwa, hv ▸ hch⟩, { hb with hosts := hw₁, below := hv ▸ hbe }⟩
  | on =>
    cases argument with
    | none => exact ⟨w, rfl⟩
    | some event =>
      have hm : ViewModel.hasMethod w h.model value = decide (value ∈ h.methods) := by
        rw [ViewModel.hasMethod, hb.hosts.methods]
      have he := Directive.bind_on compute n h.model event value w
      simp only [hm, decide_eq_true_eq] at he
      rw [Directive.Use.watched]
      by_cases hv : value ∈ h.methods
      · obtain ⟨w₂, he₂, hw₂, hwa₂, hv₂⟩ :=
          hb.hosts.attach n { event, response := .call h.model value }
        obtain ⟨hch₂, hbe₂⟩ := hb.listen { event, response := .call h.model value }
        rw [if_pos hv] at he ⊢
        exact ⟨w₂, he.trans he₂, ⟨hw₂, hwa₂.trans (List.append_nil _).symm, hv₂ ▸ hch₂⟩,
          { hb with hosts := hw₂, below := hv₂ ▸ hbe₂ }⟩
      · rw [if_neg hv] at he ⊢
        exact ⟨w, he⟩

def Settings.bindAttr (compute : Computed → Reading Value) (s : Settings) (n : Ref .node)
    (m : Ref .model) (attr : String × String) : Action Unit := do
  if let some u ← MonadExcept.ofExcept (Directive.parse s.marker attr.1) then
    Directive.bind compute u attr.2 n m

theorem Settings.bindAttr_binds (s : Settings) (hp : h.Plain) (hb : w.Binding h n ts r)
    (attr : String × String) : (s.bindAttr compute n h.model attr).Binds w
      (s.watchedAttr h.methods h.reach attr) fun ps w' =>
        World.Bound h (n :: Tree.nodesAll ts) (s.heardAttr h.model n attr) w ps w' ∧
          w'.Binding h n ts ((s.rendered? attr).or r) := by
  rw [bindAttr, watchedAttr, heardAttr, rendered?, use?]
  cases Directive.parse s.marker attr.1 with
  | error f => exact ⟨w, rfl⟩
  | ok u? =>
    cases u? with
    | none => exact ⟨w, rfl, .refl hb.hosts, hb⟩
    | some u =>
      refine (Directive.bind_binds hp hb u attr.2).mono fun ps w' _ ⟨hbo, hbi⟩ => ⟨hbo, ?_⟩
      by_cases hu : u.directive = .text
      · simpa [hu] using hbi
      · simpa [hu] using hbi

theorem Settings.attrs_binds (s : Settings) (hp : h.Plain) (attrs : List (String × String))
    (hb : w.Binding h n ts r) : (attrs.forM (s.bindAttr compute n h.model)).Binds w
      (s.watchedAttrs h.methods h.reach attrs) fun ps w' =>
        World.Bound h (n :: Tree.nodesAll ts) (attrs.flatMap (s.heardAttr h.model n)) w ps w' ∧
          w'.Binding h n ts ((s.textPath? attrs).or r) := by
  induction attrs generalizing w r with
  | nil => exact ⟨w, rfl, .refl hb.hosts, hb⟩
  | cons attr attrs ih =>
    refine (s.bindAttr_binds hp hb attr).bind fun ps w₁ _ ⟨hbo, hbi⟩ => ?_
    refine (ih hbi).mono fun qs w₂ _ ⟨hbo₂, hbi₂⟩ => ⟨hbo.trans hbo₂, ?_⟩
    rwa [textPath?, Option.or_assoc]

end Element

section Text

theorem Action.discard_apply {α : Type} (x : Action α) (w : World) :
    (discard x : Action Unit) w = (x >>= fun _ => pure ()) w := by
  show Option.bind (x w) _ = _
  rw [bind_apply]
  cases x w with
  | none => rfl
  | some p => obtain ⟨⟨⟩, _⟩ := p <;> rfl

theorem ViewModel.watch_binds (hp : h.Plain) (hw : w.Hosts h) (path : String)
    (callback : Callback) :
    (discard (ViewModel.watch compute h.model path callback) : Action Unit).Binds w
      ((h.reach path).map fun p => [p]) fun ps w' =>
        w'.Hosts h ∧ w'.watched h.model = w.watched h.model ++ ps ∧ w'.view = w.view := by
  obtain ⟨f, w₁, hr, he⟩ | ⟨p, v, r, w₁, hr, -, he, hw₁, hwa, -, hview⟩ :=
    hw.watch_apply compute hp path callback
  · rw [hr]
    exact ⟨w₁, by rw [Action.discard_apply, Action.bind_apply, he]⟩
  · rw [hr]
    refine ⟨w₁, ?_, hw₁, hwa, hview⟩
    rw [Action.discard_apply, Action.bind_apply, he]
    rfl

variable (compute) in
theorem ViewModel.watchAll_binds (hp : h.Plain) (hw : w.Hosts h) (callback : Callback)
    (paths : List String) : (paths.forM fun path =>
      discard (ViewModel.watch compute h.model path callback)).Binds w (paths.mapM h.reach)
        fun ps w' => w'.Hosts h ∧ w'.watched h.model = w.watched h.model ++ ps ∧
          w'.view = w.view := by
  induction paths generalizing w with
  | nil => exact ⟨w, rfl, hw, (List.append_nil _).symm, rfl⟩
  | cons path paths ih =>
    have hm : (path :: paths).mapM h.reach = do
        let ps ← (h.reach path).map fun p => [p]
        let qs ← paths.mapM h.reach
        return ps ++ qs := by
      rw [List.mapM_cons]
      cases h.reach path <;> rfl
    rw [hm]
    refine (ViewModel.watch_binds hp hw path callback).bind fun ps w₁ _ ⟨hw₁, hwa, hv⟩ => ?_
    refine (ih hw₁).mono fun qs w₂ _ ⟨hw₂, hwa₂, hv₂⟩ => ⟨hw₂, ?_, hv₂.trans hv⟩
    rw [hwa₂, hwa, List.append_assoc]

theorem World.Hosts.mapM_apply {α β : Type} {l : List α} {f : α → Action β} (hw : w.Hosts h)
    (hf : ∀ a ∈ l, ∀ w, w.Hosts h → ∃ b es, f a w = some (.ok b, { w with trace := es })) :
    ∃ bs es, l.mapM f w = some (.ok bs, { w with trace := es }) := by
  induction l generalizing w with
  | nil => exact ⟨[], w.trace, rfl⟩
  | cons a l ih =>
    obtain ⟨b, es, hb⟩ := hf a List.mem_cons_self w hw
    have hw₁ : World.Hosts { w with trace := es } h := { hw with }
    obtain ⟨bs, es', hbs⟩ := ih hw₁ fun a ha => hf a (List.mem_cons_of_mem _ ha)
    refine ⟨b :: bs, es', ?_⟩
    rw [List.mapM_cons, Action.bind_apply, hb]
    dsimp only
    rw [Action.bind_apply, hbs]
    rfl

theorem Template.mem_paths {t : Template} {path : String} (hp : .path path ∈ t.segments) :
    path ∈ t.paths := List.mem_filterMap.2 ⟨.path path, hp, rfl⟩

variable (compute) in
theorem Template.render_apply (hp : h.Plain) (hw : w.Hosts h) (t : Template)
    (ht : ∀ path ∈ t.paths, ∃ v, h.data path = .ok v) :
    ∃ s es, t.render compute h.model w = some (.ok s, { w with trace := es }) := by
  have hjoin {f : Segment → Action String} (hf : ∀ segment ∈ t.segments, ∀ w : World, w.Hosts h →
      ∃ s es, f segment w = some (.ok s, { w with trace := es })) :
      ∃ s es, (t.segments.mapM f >>= fun texts => pure (String.join texts)) w =
        some (.ok s, { w with trace := es }) := by
    obtain ⟨texts, es, he⟩ := hw.mapM_apply hf
    exact ⟨String.join texts, es, by rw [Action.bind_apply, he]; rfl⟩
  rw [render]
  refine hjoin fun segment hs w hw => ?_
  cases segment with
  | literal text => exact ⟨text, w.trace, rfl⟩
  | path path =>
    obtain ⟨v, hv⟩ := ht path (mem_paths hs)
    obtain ⟨es, he⟩ := hw.read_apply compute hp path
    refine ⟨v.text, es, ?_⟩
    dsimp only
    rw [Action.bind_apply, he, hv]
    rfl

theorem Host.data_of_mapM_reach {paths : List String} {ps : List Path}
    (hr : paths.mapM h.reach = .ok ps) : ∀ path ∈ paths, ∃ v, h.data path = .ok v := by
  induction paths generalizing ps with
  | nil => exact fun path hp => nomatch hp
  | cons path paths ih =>
    rw [List.mapM_cons] at hr
    cases hpath : h.reach path with
    | error f =>
      rw [hpath] at hr
      cases hr
    | ok p =>
      cases hpaths : paths.mapM h.reach with
      | error f =>
        rw [hpath, hpaths] at hr
        cases hr
      | ok qs => exact List.forall_mem_cons.2 ⟨h.data_of_reach hpath, ih hpaths⟩

theorem Template.bind_binds (hp : h.Plain) (hw : w.Hosts h) (t : Template) (n : Ref .node) :
    (t.bind compute n h.model).Binds w (t.paths.mapM h.reach) fun ps w' => w'.Hosts h ∧
      w'.watched h.model = w.watched h.model ++ ps ∧ ∃ s, w'.view = w.view.write .text n s := by
  have hw₁ := ViewModel.watchAll_binds compute hp hw (.render n t) t.paths
  rw [Template.bind]
  cases hr : t.paths.mapM h.reach with
  | error f =>
    rw [hr] at hw₁
    obtain ⟨w₁, he⟩ := hw₁
    exact ⟨w₁, by rw [Action.bind_apply, he]⟩
  | ok ps =>
    rw [hr] at hw₁
    obtain ⟨w₁, he, hw₁, hwa, hv⟩ := hw₁
    obtain ⟨s, es, hs⟩ := t.render_apply compute hp hw₁ (h.data_of_mapM_reach hr)
    have hw₁ : World.Hosts { w₁ with trace := es } h := { hw₁ with }
    obtain ⟨w₂, he₂, hw₂, hwa₂, hv₂⟩ := hw₁.write .text n s
    refine ⟨w₂, ?_, hw₂, hwa₂.trans hwa, s, hv₂.trans (by rw [hv])⟩
    rw [Action.bind_apply, he]
    dsimp only
    rw [Action.bind_apply, hs]
    exact he₂

variable (compute) in
theorem Settings.bindText_binds (s : Settings) (hp : h.Plain) (hw : w.Hosts h)
    (hn : (w.view.node n).sort = .text) : (s.bindText compute n h.model).Binds w
      ((Template.pathsOf s.delimiters (w.view.node n).text).mapM h.reach)
        (World.Bound h [n] [] w) := by
  have hl : n.index < w.view.nodes.size := View.lt_of_sort (by rw [hn]; decide)
  have he : s.bindText compute n h.model w =
      (match Template.parse s.delimiters (w.view.node n).text with
      | some t => t.bind compute n h.model
      | none => pure () : Action Unit) w := by
    rw [bindText, Action.get_bind, View.text_of_sort hn]
    cases Template.parse s.delimiters (w.view.node n).text <;> rfl
  refine .congr he ?_
  rw [Template.pathsOf]
  cases Template.parse s.delimiters (w.view.node n).text with
  | none => exact ⟨w, rfl, .refl hw⟩
  | some t =>
    refine (t.bind_binds hp hw n).mono fun ps w' _ ⟨hw', hwa, text, hv⟩ => ⟨hw', hwa, hv ▸ ?_⟩
    refine .write hl hw.nodes (.inl (List.mem_singleton_self n)) (fun hs => ?_) .text text
    rw [hn] at hs
    cases hs

end Text

namespace Settings

variable (s : Settings)

def bindNode (compute : Computed → Reading Value) (m : Ref .model) (depth : Nat) (n : Ref .node) :
    Action Unit := do
  match ((← get).view.node n).sort with
  | .element =>
    s.bindAttrs compute n m
    s.bindNodes compute m depth ((← get).view.children n)
  | .text => s.bindText compute n m
  | .other => return

theorem bindNodes_succ (m : Ref .model) (depth : Nat) (ns : List (Ref .node)) :
    s.bindNodes compute m (depth + 1) ns = ns.forM (s.bindNode compute m depth) := rfl

theorem bindNode_text {m : Ref .model} {depth : Nat} (hn : (w.view.node n).sort = .text) :
    s.bindNode compute m depth n w = s.bindText compute n m w := by
  rw [bindNode, Action.get_bind, hn]

theorem bindRendered_binds (hp : h.Plain) {depth : Nat} (hd : 0 < depth) {ts : List Tree}
    {path : String} (hb : w.Binding h n ts (some path)) :
    (s.bindNodes compute h.model depth (w.view.children n)).Binds w
      ((h.inner s.delimiters path).mapM h.reach) (World.Bound h (n :: Tree.nodesAll ts) [] w) := by
  obtain ⟨c, hch, hcs, hct, hc⟩ := hb.below.text path rfl
  obtain ⟨depth, rfl⟩ := Nat.exists_eq_add_one.2 hd
  have ht := s.bindText_binds compute hp hb.hosts hcs
  rw [hct] at ht
  rw [hch, bindNodes_succ]
  refine Action.Binds.andThen (ht.congr (s.bindNode_text hcs)) fun ps w₁ hbo => ⟨w₁, rfl, ?_⟩
  refine hbo.mono fun n' hn' => ?_
  obtain rfl := List.mem_singleton.1 hn'
  exact hc.imp_left (List.mem_cons_of_mem n)

def BindsTo (compute : Computed → Reading Value) (h : Host) (depth : Nat) : Prop :=
  ∀ (ts : List Tree) (w : World), Tree.heightAll ts < depth → w.Hosts h → w.view.HoldsAll ts →
    (Tree.nodesAll ts).Nodup → (∀ n ∈ Tree.nodesAll ts, n.index < h.base) →
    (s.bindNodes compute h.model depth (ts.map Tree.root)).Binds w
      (Tree.watchedAll s h.methods h.reach (h.inner s.delimiters) ts)
        (World.Bound h (Tree.nodesAll ts) (Tree.heardAll s h.model ts) w)

theorem bindElement_binds (hp : h.Plain) {depth : Nat} (ih : s.BindsTo compute h depth)
    {attrs : List (String × String)} {ts : List Tree} (hd : Tree.heightAll ts < depth)
    (ha : (w.view.node n).attrs = attrs) (hb : w.Binding h n ts none)
    (hu : (Tree.nodesAll ts).Nodup)
    (hm : ∀ n ∈ Tree.nodesAll ts, n.index < h.base) :
    (s.bindNode compute h.model depth n).Binds w
      ((Tree.element n attrs ts).watched s h.methods h.reach (h.inner s.delimiters))
        (World.Bound h (n :: Tree.nodesAll ts) ((Tree.element n attrs ts).heard s h.model) w) := by
  have he : s.bindNode compute h.model depth n w =
      (attrs.forM (s.bindAttr compute n h.model) >>= fun _ => do
        s.bindNodes compute h.model depth ((← get).view.children n)) w := by
    rw [bindNode, Action.get_bind, hb.below.sort, ← ha]
    rfl
  refine .congr he ?_
  rw [Tree.watched, Tree.heard]
  refine Action.Binds.bind (R := World.Bound h _ _ w) (s.attrs_binds hp attrs hb)
    fun ps w₁ _ ⟨hbo, hbi⟩ => ?_
  rw [Option.or_none] at hbi
  refine .congr (Action.get_bind _ w₁) ?_
  cases hr : s.textPath? attrs with
  | some path =>
    rw [hr] at hbi
    exact (s.bindRendered_binds hp (Nat.zero_lt_of_lt hd) hbi).mono fun qs w₂ _ hbo₂ =>
      hbo.trans hbo₂
  | none =>
    rw [hr] at hbi
    obtain ⟨hc, ht⟩ := hbi.below.trees rfl
    have hbo₂ := ih ts w₁ hd hbi.hosts ht hu hm
    rw [← hc] at hbo₂
    refine Action.Binds.mono hbo₂ fun qs w₂ _ hbo₂ => hbo.trans (hbo₂.mono fun n' hn' => ?_)
    exact .inl (List.mem_cons_of_mem n hn')

theorem bindTree_binds (hp : h.Plain) {depth : Nat} (ih : s.BindsTo compute h depth) (t : Tree)
    (hd : t.height ≤ depth) (hw : w.Hosts h) (ht : w.view.Holds t) (hu : t.nodes.Nodup)
    (hm : ∀ n ∈ t.nodes, n.index < h.base) : (s.bindNode compute h.model depth t.root).Binds w
      (t.watched s h.methods h.reach (h.inner s.delimiters))
        (World.Bound h t.nodes (t.heard s h.model) w) := by
  cases t with
  | element n attrs ts =>
    obtain ⟨hs, ha, hc, hts⟩ := ht
    rw [Tree.nodes, List.nodup_cons] at hu
    have hbe : w.view.Below h n ts none := ⟨hs, fun _ => ⟨hc, hts⟩, fun _ h => nomatch h⟩
    exact s.bindElement_binds hp ih hd ha ⟨hw, hbe, hm n List.mem_cons_self, hu.1⟩ hu.2
      fun n' hn' => hm n' (List.mem_cons_of_mem n hn')
  | text n content =>
    obtain ⟨hs, hc⟩ := ht
    have htext := s.bindText_binds compute hp hw hs
    rw [hc] at htext
    exact htext.congr (s.bindNode_text hs)
  | other n =>
    have hs : (w.view.node n).sort = .other := ht
    refine ⟨w, ?_, .refl hw⟩
    rw [bindNode, Action.get_bind, Tree.root, hs]
    rfl

variable (compute) in
theorem bindNodes_binds (hp : h.Plain) (depth : Nat) : s.BindsTo compute h depth := by
  induction depth with
  | zero => exact fun ts w hd => absurd hd (Nat.not_lt_zero _)
  | succ depth ih =>
    intro ts w hd hw ht hu hm
    rw [bindNodes_succ]
    induction ts generalizing w with
    | nil => exact ⟨w, rfl, .refl hw⟩
    | cons t ts ihs =>
      rw [Tree.nodesAll, List.nodup_append] at hu
      obtain ⟨hut, huts, hdisj⟩ := hu
      rw [Tree.heightAll] at hd
      have hbt := s.bindTree_binds hp ih t (by omega) hw ht.1 hut fun n hn =>
        hm n (List.mem_append_left _ hn)
      refine Action.Binds.bind (R := World.Bound h _ _ w) hbt fun ps w₁ _ hbo => ?_
      have hts : w₁.view.HoldsAll ts := View.HoldsAll.moved ts (fun n hn => ?_) ht.2
      · have hbts := ihs w₁ (by omega) hbo.hosts hts huts fun n hn =>
          hm n (List.mem_append_right _ hn)
        refine Action.Binds.mono hbts fun qs w₂ _ hbo₂ => ?_
        exact (hbo.mono fun n hn => .inl (List.mem_append_left _ hn)).trans
          (hbo₂.mono fun n hn => .inl (List.mem_append_right _ hn))
      · have hn' : n ∉ t.nodes := fun h' => hdisj n h' n hn rfl
        rw [hbo.view.others n hn' (hm n (List.mem_append_right _ hn))]
        exact .refl _

end Settings

end ViewBinding
