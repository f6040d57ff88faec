import Mathlib.Data.List.Nodup
import Mathlib.Logic.Relation
import ViewBinding.Proofs.Nodes

/-! Views whose nodes form a forest. The links between parents and children agree, no node is in two
places, and none is below itself. -/

namespace ViewBinding.View

variable {v v' : View} {n n' c : Ref .node}

def Child (v : View) (c n : Ref .node) : Prop := c ∈ v.children n

def Under (v : View) : Ref .node → Ref .node → Prop := Relation.TransGen v.Child

theorem under_mono (h : ∀ n, ∀ c ∈ v'.children n, c ∈ v.children n) (hu : v'.Under n n') :
    v.Under n n' :=
  Relation.TransGen.mono (fun c n => h n c) n n' hu

structure Forest (v : View) : Prop where
  made : ∀ n, ∀ c ∈ v.children n, c.index < v.nodes.size
  nodup : ∀ n, (v.children n).Nodup
  parent_iff : ∀ n c, (v.node c).parent = some n ↔ c ∈ v.children n
  acyclic : ∀ n, ¬v.Under n n

theorem children_of_size_le (h : v.nodes.size ≤ n.index) : v.children n = [] := by
  rw [children, node_of_size_le h]
  rfl

theorem lt_of_child (h : c ∈ v.children n) : n.index < v.nodes.size := by
  by_contra hn
  rw [children_of_size_le (Nat.le_of_not_lt hn)] at h
  exact List.not_mem_nil h

theorem Under.exists_parent (h : v.Under n n') : ∃ m, n ∈ v.children m := by
  induction h using Relation.TransGen.head_induction_on with
  | single h => exact ⟨_, h⟩
  | head h => exact ⟨_, h⟩

theorem Under.exists_child (h : v.Under n n') : ∃ m, m ∈ v.children n' := by
  cases h with
  | single h => exact ⟨_, h⟩
  | tail _ h => exact ⟨_, h⟩

theorem modify_of_size_le (h : v.nodes.size ≤ n.index) (change : Node → Node) :
    v.modify n change = v := by
  have he : v.nodes.entries.modify n.index change = v.nodes.entries := by
    ext i hi hi'
    · rw [Array.size_modify]
    · rw [Array.getElem_modify, if_neg (Nat.ne_of_gt (Nat.lt_of_lt_of_le hi' h))]
  exact congrArg (fun entries => View.mk ⟨entries⟩) he

section Nodes

variable {parent : Option (Ref .node)} {ns : List (Ref .node)}

theorem node_modify (v : View) (n n' : Ref .node) (change : Node → Node)
    (h : n'.index < v.nodes.size) :
    (v.modify n change).node n' = if n = n' then change (v.node n') else v.node n' := by
  split
  · subst n'
    exact node_modify_self h change
  · exact node_modify_of_ne ‹_› change

theorem node_setParent (v : View) (parent : Option (Ref .node)) (ns : List (Ref .node))
    (h : n.index < v.nodes.size) : (v.setParent parent ns).node n =
      if n ∈ ns then { v.node n with parent } else v.node n := by
  induction ns generalizing v with
  | nil => rfl
  | cons n' ns ih =>
    have h' : n.index < (v.modify n' fun node => { node with parent }).nodes.size := by
      rwa [size_modify]
    refine (ih _ h').trans ?_
    rw [node_modify v n' n _ h]
    by_cases e : n' = n
    · subst e
      simp
    · by_cases hm : n ∈ ns <;> simp [e, hm, Ne.symm e]

theorem node_detach (v : View) (n : Ref .node) (h : n'.index < v.nodes.size) :
    (v.detach n).2.node n' = { v.node n' with
      children := if n = n' then [] else v.children n'
      parent := if n' ∈ v.children n then none else (v.node n').parent } := by
  have h' : n'.index < (v.modify n fun node => { node with children := [] }).nodes.size := by
    rwa [size_modify]
  refine (node_setParent _ none (v.children n) h').trans ?_
  rw [node_modify v n n' _ h]
  by_cases e : n = n'
  · subst e
    by_cases hm : n ∈ (v.node n).children <;> simp [hm, children]
  · by_cases hm : n' ∈ (v.node n).children <;> simp [e, hm, children]

theorem size_append (v : View) (n : Ref .node) (ns : List (Ref .node)) :
    (v.append n ns).nodes.size = v.nodes.size :=
  (size_modify ..).trans (size_setParent ..)

theorem node_append (v : View) (n : Ref .node) (ns : List (Ref .node))
    (h : n'.index < v.nodes.size) : (v.append n ns).node n' = { v.node n' with
      children := if n = n' then v.children n' ++ ns else v.children n'
      parent := if n' ∈ ns then some n else (v.node n').parent } := by
  have h' : n'.index < (v.setParent (some n) ns).nodes.size := by rwa [size_setParent]
  refine (node_modify _ n n' _ h').trans ?_
  rw [node_setParent v _ ns h]
  by_cases e : n = n' <;> by_cases hm : n' ∈ ns <;> simp [e, hm, children]

theorem children_detach_self (v : View) (n : Ref .node) : (v.detach n).2.children n = [] := by
  by_cases h : n.index < v.nodes.size
  · rw [children, node_detach v n h, if_pos rfl]
  · exact children_of_size_le (by rw [size_detach]; exact Nat.le_of_not_lt h)

theorem children_detach_of_ne (v : View) (h : n ≠ n') :
    (v.detach n).2.children n' = v.children n' := (moved_detach v h).children

theorem children_append_of_ne (v : View) (h : n ≠ n') (ns : List (Ref .node)) :
    (v.append n ns).children n' = v.children n' := (moved_append v h ns).children

theorem children_append_self (h : n.index < v.nodes.size) (ns : List (Ref .node)) :
    (v.append n ns).children n = v.children n ++ ns := (moved_append_self h ns).children

theorem child_append (h : n.index < v.nodes.size) {ns : List (Ref .node)} {c m : Ref .node} :
    c ∈ (v.append n ns).children m ↔ c ∈ v.children m ∨ n = m ∧ c ∈ ns := by
  by_cases e : n = m
  · subst e
    simp only [children_append_self h, List.mem_append, true_and]
  · simp only [children_append_of_ne v e, e, false_and, or_false]

theorem child_detach (v : View) (n : Ref .node) {c m : Ref .node}
    (h : c ∈ (v.detach n).2.children m) : n ≠ m ∧ c ∈ v.children m := by
  by_cases e : n = m
  · subst e
    rw [children_detach_self] at h
    cases h
  · exact ⟨e, by rwa [children_detach_of_ne v e] at h⟩

theorem parent_detach (v : View) (n : Ref .node) (n' : Ref .node) :
    ((v.detach n).2.node n').parent =
      if n' ∈ v.children n then none else (v.node n').parent := by
  by_cases h : n'.index < v.nodes.size
  · rw [node_detach v n h]
  · have hl := Nat.le_of_not_lt h
    rw [node_of_size_le (v := (v.detach n).2) (by rwa [size_detach]), node_of_size_le hl]
    split <;> rfl

theorem parent_append (v : View) (n : Ref .node) (ns : List (Ref .node))
    (h : n'.index < v.nodes.size) :
    ((v.append n ns).node n').parent = if n' ∈ ns then some n else (v.node n').parent := by
  rw [node_append v n ns h]

end Nodes

section Renewal

variable {s : String}

theorem children_renewText_of_ne (hl : n.index < v.nodes.size) (h : n ≠ n') :
    (v.renewText n s).children n' = v.children n' := by
  by_cases hf : n' = v.nodes.fresh
  · subst hf
    exact (moved_renewText_fresh hl).children.trans
      (children_of_size_le (Nat.le_refl v.nodes.size)).symm
  · exact (moved_renewText h hf).children

theorem sort_renewText (hl : n.index < v.nodes.size)
    (h : ((v.renewText n s).node n').sort = .element) : (v.node n').sort = .element := by
  by_cases hf : n' = v.nodes.fresh
  · subst hf
    rw [(moved_renewText_fresh hl).sort] at h
    cases h
  · by_cases e : n = n'
    · subst e
      rwa [(moved_renewText_self hl).sort] at h
    · rwa [(moved_renewText e hf).sort] at h

theorem parent_renewText (h : n'.index < v.nodes.size) :
    ((v.renewText n s).node n').parent =
      if n' ∈ v.children n then none else (v.node n').parent := by
  let w := (v.add { sort := .text, tag := "#text", text := s }).2
  have hsize : w.nodes.size = v.nodes.size + 1 := v.nodes.size_add _
  have hlt : n'.index < (w.detach n).2.nodes.size := by rw [size_detach]; omega
  have hc : w.children n = v.children n := by
    by_cases hf : n = v.nodes.fresh
    · subst hf
      exact (congrArg Node.children (node_add_fresh _)).trans
        (children_of_size_le (Nat.le_refl v.nodes.size)).symm
    · exact congrArg Node.children (node_add_of_ne _ hf)
  have hfresh : n' ∉ [v.nodes.fresh] := fun hm => ne_fresh h (List.mem_singleton.1 hm)
  rw [renewText_eq]
  refine (parent_append _ n _ hlt).trans ?_
  have hn : w.node n' = v.node n' := node_add_of_ne _ (ne_fresh h)
  rw [if_neg hfresh]
  refine (parent_detach w n n').trans ?_
  simp only [hc, hn]

end Renewal

namespace Forest

theorem ne_of_child (h : v.Forest) (hc : c ∈ v.children n) : c ≠ n := by
  rintro rfl
  exact h.acyclic c (.single hc)

theorem not_child (h : v.Forest) (hc : (v.node c).parent = none) : c ∉ v.children n := by
  intro hm
  rw [(h.parent_iff n c).2 hm] at hc
  cases hc

theorem parent_unique (h : v.Forest) (hc : c ∈ v.children n) (hc' : c ∈ v.children n') :
    n = n' :=
  Option.some.inj (((h.parent_iff n c).2 hc).symm.trans ((h.parent_iff n' c).2 hc'))

theorem of_links (h : v.Forest) (hsize : v.nodes.size ≤ v'.nodes.size)
    (hc : ∀ n, v'.children n = v.children n)
    (hp : ∀ n, (v'.node n).parent = (v.node n).parent) : v'.Forest where
  made n c hm := Nat.lt_of_lt_of_le (h.made n c (hc n ▸ hm)) hsize
  nodup n := hc n ▸ h.nodup n
  parent_iff n c := by rw [hp, hc, h.parent_iff]
  acyclic n hn := h.acyclic n (under_mono (fun n _ hm => hc n ▸ hm) hn)

theorem modify (h : v.Forest) (n : Ref .node) (change : Node → Node)
    (hc : ∀ node, (change node).children = node.children)
    (hp : ∀ node, (change node).parent = node.parent) : (v.modify n change).Forest := by
  refine h.of_links (Nat.le_of_eq (size_modify ..).symm) (fun n' => ?_) fun n' => ?_
  · obtain e | ⟨-, -, e⟩ := v.nodes.get_modify_cases n n' change
    · exact congrArg Node.children e
    · exact (congrArg Node.children e).trans (hc _)
  · obtain e | ⟨-, -, e⟩ := v.nodes.get_modify_cases n n' change
    · exact congrArg Node.parent e
    · exact (congrArg Node.parent e).trans (hp _)

theorem detach (h : v.Forest) (n : Ref .node) : (v.detach n).2.Forest where
  made m c hc := by
    rw [size_detach]
    exact h.made m c (child_detach v n hc).2
  nodup m := by
    by_cases e : n = m
    · subst e
      rw [children_detach_self]
      exact .nil
    · rw [children_detach_of_ne v e]
      exact h.nodup m
  parent_iff m c := by
    rw [parent_detach]
    by_cases e : n = m
    · subst e
      rw [children_detach_self]
      refine ⟨fun hc => ?_, fun hc => nomatch hc⟩
      split at hc
      · cases hc
      · exact absurd ((h.parent_iff n c).1 hc) ‹_›
    · rw [children_detach_of_ne v e]
      split
      · exact ⟨(nomatch ·), fun hm => absurd (h.parent_unique ‹_› hm) e⟩
      · exact h.parent_iff m c
  acyclic m hm := h.acyclic m (under_mono (fun _ _ hc => (child_detach v n hc).2) hm)

theorem under_append {ns : List (Ref .node)} {a b : Ref .node}
    (hn : n.index < v.nodes.size) (hns : ∀ c ∈ ns, c ≠ n ∧ ¬v.Under n c)
    (h : (v.append n ns).Under a b) : v.Under a b ∨
      (∃ c ∈ ns, a = c ∨ v.Under a c) ∧ (b = n ∨ v.Under n b) := by
  induction h with
  | single h =>
    obtain h | ⟨rfl, ha⟩ := (child_append hn).1 h
    · exact .inl (.single h)
    · exact .inr ⟨⟨a, ha, .inl rfl⟩, .inl rfl⟩
  | @tail d b _ h ih =>
    obtain hb | ⟨rfl, hd⟩ := (child_append hn).1 h
    · obtain ih | ⟨hc, ih⟩ := ih
      · exact .inl (ih.tail hb)
      · refine .inr ⟨hc, .inr ?_⟩
        obtain rfl | ih := ih
        · exact .single hb
        · exact ih.tail hb
    · obtain ih | ⟨-, ih⟩ := ih
      · exact .inr ⟨⟨d, hd, .inr ih⟩, .inl rfl⟩
      · exact absurd ih (not_or.2 (hns d hd))

theorem append (h : v.Forest) {ns : List (Ref .node)} (hn : n.index < v.nodes.size)
    (hns : ∀ c ∈ ns, c ≠ n ∧ ¬v.Under n c) (hm : ∀ c ∈ ns, c.index < v.nodes.size)
    (hu : ns.Nodup) (hp : ∀ c ∈ ns, (v.node c).parent = none) : (v.append n ns).Forest where
  made m c hc := by
    rw [size_append]
    exact ((child_append hn).1 hc).elim (h.made m c) fun hc => hm c hc.2
  nodup m := by
    by_cases e : n = m
    · subst e
      rw [children_append_self hn, List.nodup_append]
      -- Those who come had no parent, so none of them is a child already.
      refine ⟨h.nodup n, hu, fun a ha b hb e => ?_⟩
      exact h.not_child (hp b hb) (e ▸ ha)
    · rw [children_append_of_ne v e]
      exact h.nodup m
  parent_iff m c := by
    rw [child_append hn]
    by_cases hl : c.index < v.nodes.size
    · rw [node_append v n ns hl]
      by_cases hc : c ∈ ns
      · have hc' : c ∉ v.children m := h.not_child (hp c hc)
        simp [hc, hc']
      · simp [hc, h.parent_iff]
    · have hl' := Nat.le_of_not_lt hl
      rw [node_of_size_le (v := v.append n ns) (by rwa [size_append])]
      exact ⟨(nomatch ·), fun hc => absurd (hc.elim (h.made m c) fun hc => hm c hc.2) hl⟩
  acyclic m hcycle := by
    obtain hcycle | ⟨⟨c, hc, hmc⟩, hnm⟩ := under_append hn hns hcycle
    · exact h.acyclic m hcycle
    · -- The cycle would lead from the node down to itself.
      obtain ⟨hne, hnu⟩ := hns c hc
      rcases hmc with rfl | hmc <;> rcases hnm with rfl | hnm
      · exact hne rfl
      · exact hnu hnm
      · exact hnu hmc
      · exact hnu (hnm.trans hmc)

theorem add (h : v.Forest) {node : Node} (hc : node.children = []) (hp : node.parent = none) :
    (v.add node).2.Forest := by
  have hsize : (v.add node).2.nodes.size = v.nodes.size + 1 := v.nodes.size_add node
  have hnode (n : Ref .node) : (v.add node).2.node n = v.node n ∨
      (v.add node).2.node n = node ∧ v.node n = default := by
    by_cases e : n = v.nodes.fresh
    · subst e
      exact .inr ⟨node_add_fresh node, node_of_size_le (Nat.le_refl v.nodes.size)⟩
    · exact .inl (node_add_of_ne node e)
  refine h.of_links (by omega) (fun n => ?_) fun n => ?_
  · rw [children, children]
    obtain e | ⟨e, e'⟩ := hnode n
    · rw [e]
    · rw [e, e', hc]
      rfl
  · obtain e | ⟨e, e'⟩ := hnode n
    · rw [e]
    · rw [e, e', hp]
      rfl

theorem renewText (h : v.Forest) (hn : n.index < v.nodes.size) (s : String) :
    (v.renewText n s).Forest := by
  let node : Node := { sort := .text, tag := "#text", text := s }
  have hsize : (v.add node).2.nodes.size = v.nodes.size + 1 := v.nodes.size_add node
  have hadd : (v.add node).2.Forest := h.add rfl rfl
  have hfresh : (v.add node).2.node v.nodes.fresh = node := node_add_fresh node
  have hlt : v.nodes.fresh.index < (v.add node).2.nodes.size := by
    rw [hsize]
    exact Nat.lt_succ_self _
  have hnode : ((v.add node).2.detach n).2.node v.nodes.fresh = node := by
    have hnm : v.nodes.fresh ∉ (v.add node).2.children n :=
      hadd.not_child (by rw [hfresh])
    rw [node_detach _ n hlt, if_neg (ne_fresh hn), if_neg hnm, children, hfresh]
  rw [renewText_eq]
  refine (hadd.detach n).append (by rw [size_detach, hsize]; omega) ?_ ?_ (List.nodup_singleton _)
    ?_
  · rintro c hc
    obtain rfl := List.mem_singleton.1 hc
    refine ⟨(ne_fresh hn).symm, fun hu => ?_⟩
    obtain ⟨m, hm⟩ := hu.exists_child
    rw [children, hnode] at hm
    cases hm
  · rintro c hc
    obtain rfl := List.mem_singleton.1 hc
    rwa [size_detach]
  · rintro c hc
    obtain rfl := List.mem_singleton.1 hc
    rw [hnode]

theorem replaceText (h : v.Forest) (hn : n.index < v.nodes.size) (s : String) :
    (v.replaceText n s).Forest := by
  obtain ⟨-, e⟩ | ⟨-, ⟨c, -, -, e⟩ | e⟩ := v.replaceText_cases n s <;> rw [e]
  · exact h.modify n _ (fun _ => rfl) fun _ => rfl
  · exact h.modify c _ (fun _ => rfl) fun _ => rfl
  · exact h.renewText hn s

theorem write (h : v.Forest) (face : Face) (hn : n.index < v.nodes.size) (s : String) :
    (v.write face n s).Forest := by
  cases face with
  | text => exact (h.replaceText hn s).modify n _ (fun _ => rfl) fun _ => rfl
  | value => exact h.modify n _ (fun _ => rfl) fun _ => rfl
  | html => exact h.modify n _ (fun _ => rfl) fun _ => rfl

end Forest

section Creation

/-- What making nodes adds to a view: some of the new nodes, each without a parent. -/
structure Grown (v : View) (ns : List (Ref .node)) (v' : View) : Prop where
  forest : v'.Forest
  size : v.nodes.size ≤ v'.nodes.size
  old : ∀ n, n.index < v.nodes.size → v'.node n = v.node n
  nodup : ns.Nodup
  fresh : ∀ n ∈ ns, v.nodes.size ≤ n.index ∧ n.index < v'.nodes.size
  parent : ∀ n ∈ ns, (v'.node n).parent = none

namespace Forest

theorem grown_add (h : v.Forest) {node : Node} (hc : node.children = [])
    (hp : node.parent = none) : v.Grown [(v.add node).1] (v.add node).2 := by
  have hsize : (v.add node).2.nodes.size = v.nodes.size + 1 := v.nodes.size_add node
  refine ⟨h.add hc hp, by omega, fun n hn => node_add_of_ne node (ne_fresh hn),
    List.nodup_singleton _, fun n hn => ?_, fun n hn => ?_⟩
  · obtain rfl := List.mem_singleton.1 hn
    exact ⟨Nat.le_refl v.nodes.size, by rw [hsize]; exact Nat.lt_succ_self _⟩
  · obtain rfl := List.mem_singleton.1 hn
    exact (congrArg Node.parent (node_add_fresh node)).trans hp

theorem grown_append {ns : List (Ref .node)} (h : v.Grown ns v') {node : Node}
    (hc : node.children = []) (hp : node.parent = none) :
    v.Grown [(v'.add node).1] ((v'.add node).2.append (v'.add node).1 ns) := by
  have ha := h.forest.grown_add hc hp
  have hl := (ha.fresh _ (List.mem_singleton_self _)).2
  have hparent (c : Ref .node) (hm : c ∈ ns) : ((v'.add node).2.node c).parent = none := by
    rw [ha.old c (h.fresh c hm).2]
    exact h.parent c hm
  have hne (c : Ref .node) (hm : c ∈ ns) : c ≠ (v'.add node).1 := ne_fresh (h.fresh c hm).2
  have hself : (v'.add node).1 ∉ ns := fun hm => hne _ hm rfl
  refine ⟨ha.forest.append hl (fun c hm => ⟨hne c hm, fun hu => ?_⟩)
    (fun c hm => Nat.lt_of_lt_of_le (h.fresh c hm).2 ha.size) h.nodup hparent, ?_, fun n hn => ?_,
    List.nodup_singleton _, fun n hn => ?_, fun n hn => ?_⟩
  · obtain ⟨m, hm⟩ := hu.exists_parent
    exact ha.forest.not_child (ha.parent _ (List.mem_singleton_self _)) hm
  · rw [size_append]
    exact Nat.le_trans h.size ha.size
  · have hn' : n.index < v'.nodes.size := Nat.lt_of_lt_of_le hn h.size
    have hns : n ∉ ns := fun hm => Nat.not_lt.2 (h.fresh n hm).1 hn
    have hne' : (v'.add node).1 ≠ n := (ne_fresh hn').symm
    rw [node_append _ _ _ (Nat.lt_of_lt_of_le hn' ha.size), if_neg hns, if_neg hne']
    exact (ha.old n hn').trans (h.old n hn)
  · obtain rfl := List.mem_singleton.1 hn
    exact ⟨h.size, by rwa [size_append]⟩
  · obtain rfl := List.mem_singleton.1 hn
    rw [parent_append _ _ _ hl, if_neg hself]
    exact ha.parent _ (List.mem_singleton_self _)

mutual

theorem create : ∀ (m : Markup) {v : View}, v.Forest →
    v.Grown [(View.create m v).1] (View.create m v).2
  | .text _, _, h => h.grown_add rfl rfl
  | .comment _, _, h => h.grown_add rfl rfl
  | .element _ _ children, _, h => grown_append (createAll children h) rfl rfl

theorem createAll : ∀ (ms : List Markup) {v : View}, v.Forest →
    v.Grown (View.createAll ms v).1 (View.createAll ms v).2
  | [], v, h =>
    ⟨h, Nat.le_refl _, fun _ _ => rfl, .nil, fun _ hn => (nomatch hn), fun _ hn => (nomatch hn)⟩
  | m :: ms, v, h => by
    have hm := create m h
    have hms := createAll ms hm.forest
    have hlt := hm.fresh _ (List.mem_singleton_self _)
    refine ⟨hms.forest, Nat.le_trans hm.size hms.size, fun n hn => ?_,
      List.nodup_cons.2 ⟨fun hn => Nat.not_lt.2 (hms.fresh _ hn).1 hlt.2, hms.nodup⟩,
      fun n hn => ?_, fun n hn => ?_⟩
    · exact (hms.old n (Nat.lt_of_lt_of_le hn hm.size)).trans (hm.old n hn)
    · obtain rfl | hn := List.mem_cons.1 hn
      · exact ⟨hlt.1, Nat.lt_of_lt_of_le hlt.2 hms.size⟩
      · exact ⟨Nat.le_trans hm.size (hms.fresh n hn).1, (hms.fresh n hn).2⟩
    · obtain rfl | hn := List.mem_cons.1 hn
      · exact (congrArg Node.parent (hms.old _ hlt.2)).trans
          (hm.parent _ (List.mem_singleton_self _))
      · exact hms.parent n hn

end

end Forest

theorem forest_empty : View.Forest {} where
  made n c hc := nomatch hc
  nodup n := .nil
  parent_iff n c := ⟨(nomatch ·), (nomatch ·)⟩
  acyclic n hn := by
    obtain ⟨m, hm⟩ := hn.exists_parent
    cases hm

end Creation

end ViewBinding.View
