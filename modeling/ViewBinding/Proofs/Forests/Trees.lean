import ViewBinding.Proofs.Forests.Room
import ViewBinding.Proofs.Mount.Tree

/-! The trees below a node of a view. In a forest they are as the nodes are linked, and no node is
in two of them. -/

namespace ViewBinding

def View.tree (v : View) : Nat → Ref .node → Tree
  | 0, n => .other n
  | d + 1, n =>
    match (v.node n).sort with
    | .element => .element n (v.node n).attrs ((v.children n).map (v.tree d))
    | .text => .text n (v.node n).text
    | .other => .other n

def View.treesBelow (v : View) (root : Ref .node) : List Tree :=
  (v.children root).map (v.tree (v.nodes.size + 1))

namespace Tree

theorem nodesAll_eq (ts : List Tree) : nodesAll ts = ts.flatMap nodes := by
  induction ts with
  | nil => rfl
  | cons t ts ih => rw [nodesAll, ih, List.flatMap_cons]

end Tree

namespace View

variable {v : View} {a b n x : Ref .node} {d : Nat}

theorem root_tree (v : View) (d : Nat) (n : Ref .node) : (v.tree d n).root = n := by
  cases d with
  | zero => rfl
  | succ d =>
    rw [tree]
    cases (v.node n).sort <;> rfl

theorem map_root_tree (v : View) (d : Nat) (ns : List (Ref .node)) :
    (ns.map (v.tree d)).map Tree.root = ns := by
  simp only [List.map_map, Function.comp_def, root_tree, List.map_id']

theorem holdsAll_map {ns : List (Ref .node)} {f : Ref .node → Tree}
    (h : ∀ n ∈ ns, v.Holds (f n)) : v.HoldsAll (ns.map f) := by
  induction ns with
  | nil => trivial
  | cons n ns ih =>
    exact ⟨h n List.mem_cons_self, ih fun n' hn => h n' (List.mem_cons_of_mem n hn)⟩

theorem holds_tree (h : v.Fits d n) : v.Holds (v.tree d n) := by
  induction d generalizing n with
  | zero => exact h.elim
  | succ d ih =>
    rw [tree]
    cases hs : (v.node n).sort with
    | element =>
      exact ⟨hs, rfl, (map_root_tree ..).symm, holdsAll_map fun c hc => ih ((h hs).2 c hc)⟩
    | text => exact ⟨hs, rfl⟩
    | other => exact hs

theorem under_of_mem_tree (h : x ∈ (v.tree d n).nodes) : x = n ∨ v.Under x n := by
  induction d generalizing n with
  | zero => exact .inl (List.mem_singleton.1 h)
  | succ d ih =>
    rw [tree] at h
    cases hs : (v.node n).sort with
    | element =>
      rw [hs] at h
      dsimp only at h
      rw [Tree.nodes, Tree.nodesAll_eq, List.mem_cons, List.mem_flatMap] at h
      obtain rfl | ⟨t, ht, hx⟩ := h
      · exact .inl rfl
      · obtain ⟨c, hc, rfl⟩ := List.mem_map.1 ht
        obtain rfl | hx := ih hx
        · exact .inr (.single hc)
        · exact .inr (.tail hx hc)
    | text =>
      rw [hs] at h
      exact .inl (List.mem_singleton.1 h)
    | other =>
      rw [hs] at h
      exact .inl (List.mem_singleton.1 h)

theorem Under.cases_parent (h : v.Under x n) :
    x ∈ v.children n ∨ ∃ c, x ∈ v.children c ∧ v.Under c n := by
  obtain ⟨c, hc, hcn⟩ := Relation.TransGen.head'_iff.1 h
  obtain rfl | hcn := Relation.reflTransGen_iff_eq_or_transGen.1 hcn
  · exact .inl hc
  · exact .inr ⟨c, hc, hcn⟩

namespace Forest

theorem under_linear (h : v.Forest) (ha : v.Under x a) (hb : v.Under x b) :
    a = b ∨ v.Under a b ∨ v.Under b a := by
  induction ha using Relation.TransGen.head_induction_on with
  | single ha =>
    obtain hb | ⟨c, hc, hb⟩ := hb.cases_parent
    · exact .inl (h.parent_unique ha hb)
    · obtain rfl := h.parent_unique ha hc
      exact .inr (.inl hb)
  | head hc hca ih =>
    obtain hb | ⟨c', hc', hb⟩ := hb.cases_parent
    · obtain rfl := h.parent_unique hc hb
      exact .inr (.inr hca)
    · obtain rfl := h.parent_unique hc hc'
      exact ih hb

theorem not_under_sibling (h : v.Forest) (ha : a ∈ v.children n) (hb : b ∈ v.children n) :
    ¬v.Under a b := by
  intro hu
  obtain hab | ⟨c, hc, hcb⟩ := hu.cases_parent
  · obtain rfl := h.parent_unique ha hab
    exact h.ne_of_child hb rfl
  · obtain rfl := h.parent_unique ha hc
    exact h.acyclic _ (hcb.tail hb)

theorem tree_disjoint (h : v.Forest) (ha : a ∈ v.children n) (hb : b ∈ v.children n) (hab : a ≠ b)
    (hxa : x ∈ (v.tree d a).nodes) (hxb : x ∈ (v.tree d b).nodes) : False := by
  obtain rfl | hxa := under_of_mem_tree hxa <;> obtain hxb | hxb := under_of_mem_tree hxb
  · exact hab hxb
  · exact h.not_under_sibling ha hb hxb
  · subst hxb
    exact h.not_under_sibling hb ha hxa
  · obtain e | hu | hu := h.under_linear hxa hxb
    · exact hab e
    · exact h.not_under_sibling ha hb hu
    · exact h.not_under_sibling hb ha hu

theorem nodup_trees (h : v.Forest) (hd : ∀ c ∈ v.children n, (v.tree d c).nodes.Nodup) :
    (n :: Tree.nodesAll ((v.children n).map (v.tree d))).Nodup := by
  rw [List.nodup_cons, Tree.nodesAll_eq, List.flatMap_map, List.nodup_flatMap]
  refine ⟨fun hm => ?_, hd, (h.nodup n).imp_of_mem fun ha hb hab x hxa hxb => ?_⟩
  · obtain ⟨c, hc, hx⟩ := List.mem_flatMap.1 hm
    obtain rfl | hx := under_of_mem_tree hx
    · exact h.ne_of_child hc rfl
    · exact h.acyclic n (hx.tail hc)
  · exact h.tree_disjoint ha hb hab hxa hxb

theorem nodup_tree (h : v.Forest) (d : Nat) (n : Ref .node) : (v.tree d n).nodes.Nodup := by
  induction d generalizing n with
  | zero => exact List.nodup_singleton n
  | succ d ih =>
    rw [tree]
    cases (v.node n).sort with
    | element => exact h.nodup_trees fun c _ => ih c
    | text => exact List.nodup_singleton n
    | other => exact List.nodup_singleton n

theorem bears (h : v.Forest) {root : Ref .node} (hroot : root.index < v.nodes.size) :
    v.Bears root (v.treesBelow root) where
  children := (map_root_tree ..).symm
  holds := holdsAll_map fun c hc => holds_tree (h.fits (h.made root c hc))
  nodup := h.nodup_trees fun c _ => h.nodup_tree _ c
  made n hn := by
    obtain rfl | hn := List.mem_cons.1 hn
    · exact hroot
    · rw [treesBelow, Tree.nodesAll_eq, List.flatMap_map] at hn
      obtain ⟨c, hc, hn⟩ := List.mem_flatMap.1 hn
      obtain rfl | hu := under_of_mem_tree hn
      · exact h.made root n hc
      · obtain ⟨m, hm⟩ := hu.exists_parent
        exact h.made m n hm

end Forest

end View

end ViewBinding
