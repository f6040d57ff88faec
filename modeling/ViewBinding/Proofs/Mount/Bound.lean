import ViewBinding.Proofs.Mount.Host

/-! What binding may change of a view and of the world, and whether it goes as planned. -/

namespace ViewBinding

variable {w w' : World} {compute : Computed → Reading Value} {h : Host}

def heardAt (n : Ref .node) (ls : List (Ref .node × Listener)) : List Listener :=
  ls.filterMap fun l => if l.1 = n then some l.2 else none

theorem heardAt_append (n : Ref .node) (ls ls' : List (Ref .node × Listener)) :
    heardAt n (ls ++ ls') = heardAt n ls ++ heardAt n ls' := List.filterMap_append

structure View.Changes (base : Nat) (L : List (Ref .node)) (ls : List (Ref .node × Listener))
    (v v' : View) : Prop where
  size : v.nodes.size ≤ v'.nodes.size
  listeners : ∀ n, (v'.node n).listeners = (v.node n).listeners ++ heardAt n ls
  others : ∀ n, n ∉ L → n.index < base → v'.node n = v.node n

namespace View

variable {v v' v'' : View} {base : Nat} {L L' : List (Ref .node)}
  {ls ls' : List (Ref .node × Listener)} {n : Ref .node} {s : String}

namespace Changes

theorem refl (v : View) : Changes base L [] v v :=
  ⟨Nat.le_refl _, fun _ => (List.append_nil _).symm, fun _ _ _ => rfl⟩

theorem trans (h : Changes base L ls v v') (h' : Changes base L ls' v' v'') :
    Changes base L (ls ++ ls') v v'' where
  size := Nat.le_trans h.size h'.size
  listeners n := by rw [h'.listeners, h.listeners, heardAt_append, List.append_assoc]
  others n hn hb := (h'.others n hn hb).trans (h.others n hn hb)

theorem mono (h : Changes base L ls v v') (hL : ∀ n ∈ L, n ∈ L' ∨ base ≤ n.index) :
    Changes base L' ls v v' :=
  { h with others := fun n hn hb => h.others n (fun hl => (hL n hl).elim hn (Nat.not_le.2 hb)) hb }

theorem write (hn : n.index < v.nodes.size) (hb : base ≤ v.nodes.size) (hL : n ∈ L ∨ base ≤ n.index)
    (hc : (v.node n).sort = .element → ∀ c ∈ v.children n, c ∈ L ∨ base ≤ c.index) (face : Face)
    (s : String) :
    Changes base L [] v (v.write face n s) where
  size := v.size_write face n s
  listeners n' := (listeners_write hn face s n').trans (List.append_nil _).symm
  others n' hn' hb' := by
    refine node_write_of_notMem hn face s ?_ (Nat.lt_of_lt_of_le hb' hb) fun hs hc' => ?_
    · rintro rfl
      exact hL.elim hn' (Nat.not_le.2 hb')
    · exact (hc hs n' hc').elim hn' (Nat.not_le.2 hb')

theorem listen (hn : n.index < v.nodes.size) (hL : n ∈ L) (l : Listener) :
    Changes base L [(n, l)] v (v.listen n l) where
  size := Nat.le_of_eq (v.size_modify ..).symm
  listeners n' := by
    by_cases hnn : n = n'
    · subst hnn
      rw [View.listen, node_modify_self hn, heardAt, List.filterMap_cons, if_pos rfl]
      rfl
    · rw [View.listen, node_modify_of_ne hnn, heardAt, List.filterMap_cons, if_neg hnn]
      exact (List.append_nil _).symm
  others n' hn' _ := by
    refine node_modify_of_ne ?_ _
    rintro rfl
    exact hn' hL

end Changes

/-- What is below an element while its directives are bound: its trees, or the text that a directive
rendered there. -/
structure Below (v : View) (h : Host) (n : Ref .node) (ts : List Tree) (r : Option String) :
    Prop where
  sort : (v.node n).sort = .element
  trees : r = none → v.children n = ts.map Tree.root ∧ v.HoldsAll ts
  text : ∀ path, r = some path → ∃ c, v.children n = [c] ∧ (v.node c).sort = .text ∧
    (v.node c).text = h.shown path ∧ (c ∈ Tree.nodesAll ts ∨ h.base ≤ c.index)

namespace Below

variable {ts : List Tree} {r : Option String}

theorem children (hb : v.Below h n ts r) {c : Ref .node} (hc : c ∈ v.children n) :
    c ∈ Tree.nodesAll ts ∨ h.base ≤ c.index := by
  cases r with
  | none =>
    rw [(hb.trees rfl).1] at hc
    obtain ⟨t, ht, rfl⟩ := List.mem_map.1 hc
    exact .inl (Tree.mem_nodesAll ht t.root_mem_nodes)
  | some path =>
    obtain ⟨c', hch, -, -, hc'⟩ := hb.text path rfl
    rw [hch] at hc
    exact List.mem_singleton.1 hc ▸ hc'

theorem modify (hb : v.Below h n ts r) (hn : n ∉ Tree.nodesAll ts) (hl : n.index < v.nodes.size)
    (change : Node → Node) (hs : ∀ node, (change node).sort = node.sort)
    (hc : ∀ node, (change node).children = node.children) : (v.modify n change).Below h n ts r where
  sort := by rw [node_modify_self hl, hs, hb.sort]
  trees hr := by
    obtain ⟨hch, ht⟩ := hb.trees hr
    refine ⟨?_, HoldsAll.moved ts (fun n' hn' => ?_) ht⟩
    · rw [View.children, node_modify_self hl, hc]
      exact hch
    · have hne : n ≠ n' := fun e => hn (e.symm ▸ hn')
      rw [node_modify_of_ne hne]
      exact .refl _
  text path hr := by
    obtain ⟨c, hch, hcs, hct, hcb⟩ := hb.text path hr
    have hne : n ≠ c := by
      rintro rfl
      rw [hb.sort] at hcs
      cases hcs
    refine ⟨c, ?_, ?_, ?_, hcb⟩
    · rw [View.children, node_modify_self hl, hc]
      exact hch
    · rwa [node_modify_of_ne hne]
    · rwa [node_modify_of_ne hne]

theorem write_text (hb : v.Below h n ts r) (hl : n.index < v.nodes.size)
    (hbase : h.base ≤ v.nodes.size)
    (path : String) : (v.write .text n (h.shown path)).Below h n ts (some path) := by
  obtain ⟨hs, c, hch, hcs, hct, hc⟩ := children_write_text hl hb.sort (h.shown path)
  refine ⟨hs, (nomatch ·), fun path' hr => ?_⟩
  cases hr
  refine ⟨c, hch, hcs, hct, ?_⟩
  obtain hc | rfl := hc
  · exact hb.children (hc ▸ List.mem_singleton_self c)
  · exact .inr hbase

end Below

end View

structure World.Bound (h : Host) (L : List (Ref .node)) (ls : List (Ref .node × Listener))
    (w : World)
    (ps : List Path) (w' : World) : Prop where
  hosts : w'.Hosts h
  watched : w'.watched h.model = w.watched h.model ++ ps
  view : View.Changes h.base L ls w.view w'.view

namespace World.Bound

variable {L L' : List (Ref .node)} {ls ls' : List (Ref .node × Listener)} {ps qs : List Path}
  {w'' : World}

theorem refl (hw : w.Hosts h) : Bound h L [] w [] w :=
  ⟨hw, (List.append_nil _).symm, .refl _⟩

theorem trans (hb : Bound h L ls w ps w') (hb' : Bound h L ls' w' qs w'') :
    Bound h L (ls ++ ls') w (ps ++ qs) w'' :=
  ⟨hb'.hosts, by rw [hb'.watched, hb.watched, List.append_assoc], hb.view.trans hb'.view⟩

theorem mono (hb : Bound h L ls w ps w') (hL : ∀ n ∈ L, n ∈ L' ∨ h.base ≤ n.index) :
    Bound h L' ls w ps w' := { hb with view := hb.view.mono hL }

end World.Bound

def Action.Binds (x : Action Unit) (w : World) (plan : Except Fault (List Path))
    (Q : List Path → World → Prop) : Prop :=
  match plan with
  | .error f => ∃ w', x w = some (.error f, w')
  | .ok ps => ∃ w', x w = some (.ok (), w') ∧ Q ps w'

namespace Action.Binds

variable {x y : Action Unit} {plan plan' : Except Fault (List Path)}
  {Q R : List Path → World → Prop}

theorem mono (hx : x.Binds w plan Q) (hq : ∀ ps w', plan = .ok ps → Q ps w' → R ps w') :
    x.Binds w plan R := by
  cases plan with
  | error f => exact hx
  | ok ps =>
    obtain ⟨w', he, h⟩ := hx
    exact ⟨w', he, hq ps w' rfl h⟩

theorem congr (he : x w = y w) (hy : y.Binds w plan Q) : x.Binds w plan Q := by
  rw [Binds.eq_def, he]
  exact hy

theorem bind (hx : x.Binds w plan Q)
    (hy : ∀ ps w', plan = .ok ps → Q ps w' → y.Binds w' plan' fun qs w'' => R (ps ++ qs) w'') :
    (x >>= fun _ => y).Binds w (do let ps ← plan; let qs ← plan'; return ps ++ qs) R := by
  cases plan with
  | error f =>
    obtain ⟨w', he⟩ := hx
    exact ⟨w', by rw [bind_apply, he]⟩
  | ok ps =>
    obtain ⟨w', he, h⟩ := hx
    have hy := hy ps w' rfl h
    cases plan' with
    | error f =>
      obtain ⟨w'', he'⟩ := hy
      exact ⟨w'', by rw [bind_apply, he]; exact he'⟩
    | ok qs =>
      obtain ⟨w'', he', h'⟩ := hy
      exact ⟨w'', by rw [bind_apply, he]; exact he', h'⟩

theorem andThen (hx : x.Binds w plan Q)
    (hy : ∀ ps w', Q ps w' → ∃ w'', y w' = some (.ok (), w'') ∧ R ps w'') :
    (x >>= fun _ => y).Binds w plan R := by
  cases plan with
  | error f =>
    obtain ⟨w', he⟩ := hx
    exact ⟨w', by rw [bind_apply, he]⟩
  | ok ps =>
    obtain ⟨w', he, h⟩ := hx
    obtain ⟨w'', he', h'⟩ := hy ps w' h
    exact ⟨w'', by rw [bind_apply, he]; exact he', h'⟩

end Action.Binds

end ViewBinding
