import ViewBinding.Proofs.Mirrors.Displays

/-! Writing the text of a node. What was written is read back, nothing changes but the node and what
is below it, and whoever writes again finds the text node that the first write left. -/

namespace ViewBinding.View

variable {v v' v'' : View} {n c d : Ref .node} {face : Face} {s : String}

/-- Whether there is a place for the text of a node. That of an element is a text node as its only
child. -/
def HasText (v : View) (n : Ref .node) : Prop :=
  (v.node n).sort = .element → ∃ c, v.children n = [c] ∧ (v.node c).sort = .text

structure SameShape (v v' : View) : Prop where
  size : v'.nodes.size = v.nodes.size
  sort : ∀ n, (v'.node n).sort = (v.node n).sort
  children : ∀ n, v'.children n = v.children n

namespace SameShape

theorem refl (v : View) : v.SameShape v := ⟨rfl, fun _ => rfl, fun _ => rfl⟩

theorem trans (h : v.SameShape v') (h' : v'.SameShape v'') : v.SameShape v'' where
  size := h'.size.trans h.size
  sort n := (h'.sort n).trans (h.sort n)
  children n := (h'.children n).trans (h.children n)

theorem hasText (h : v.SameShape v') (hn : v.HasText n) : v'.HasText n := by
  intro hs
  rw [h.sort] at hs
  obtain ⟨c, hch, hc⟩ := hn hs
  exact ⟨c, (h.children n).trans hch, (h.sort c).trans hc⟩

theorem modify (v : View) (n : Ref .node) {change : Node → Node}
    (hs : ∀ node, (change node).sort = node.sort)
    (hc : ∀ node, (change node).children = node.children) : v.SameShape (v.modify n change) where
  size := v.size_modify n change
  sort k := v.sort_modify n k hs
  children k := v.children_modify n k hc

end SameShape

theorem HasText.replaceText (h : v.HasText n) (s : String) :
    v.SameShape (v.replaceText n s) := by
  unfold View.replaceText
  split
  · obtain ⟨c, hch, hc⟩ := h ‹_›
    rw [hch]
    dsimp only
    rw [if_pos hc]
    exact .modify v c (fun _ => rfl) fun _ => rfl
  · exact .modify v n (fun _ => rfl) fun _ => rfl

theorem SameShape.write (v : View) (h : face = .text → v.HasText n) (s : String) :
    v.SameShape (v.write face n s) := by
  cases face with
  | text => exact ((h rfl).replaceText s).trans (.modify _ n (fun _ => rfl) fun _ => rfl)
  | value => exact .modify v n (fun _ => rfl) fun _ => rfl
  | html => exact .modify v n (fun _ => rfl) fun _ => rfl

theorem hasText_write (h : n.index < v.nodes.size) (s : String) :
    (v.write .text n s).HasText n := by
  intro hs
  rw [sort_write h] at hs
  obtain ⟨-, c, hch, hc, -⟩ := children_write_text h hs s
  exact ⟨c, hch, hc⟩

/-- What becomes of a forest when a text is written on one of its nodes. -/
structure Rewritten (v : View) (n : Ref .node) (s : String) (v' : View) : Prop where
  text : v'.text n = s
  /-- An element has one text node left below it. -/
  only : (v.node n).sort = .element → ∃ c, v'.children n = [c] ∧ (v'.node c).sort = .text
  others : ∀ k, k.index < v.nodes.size → k ≠ n → ¬v.Under k n → v'.node k = v.node k
  /-- Children that went have no parent any more, and nothing changes below them. -/
  replaced : ∀ c ∈ v.children n, c ∉ v'.children n →
    v'.node c = { v.node c with parent := none } ∧ ∀ d, v.Under d c → v'.node d = v.node d
  forest : v'.Forest
  /-- Writing again makes no node, and leaves the children of all nodes as they are. -/
  again : ∀ t, (v'.write .text n t).nodes.size = v'.nodes.size ∧
    ∀ k, (v'.write .text n t).children k = v'.children k

namespace Forest

theorem notMem_of_under (h : v.Forest) (hc : c ∈ v.children n) (hd : v.Under d c) :
    d ≠ n ∧ d ∉ v.children n := by
  have hn : ¬v.Under n c := fun hu => h.acyclic n (hu.tail hc)
  refine ⟨fun e => hn (e ▸ hd), fun hm => ?_⟩
  obtain ⟨m, hdm, hmc⟩ := Relation.TransGen.head'_iff.1 hd
  -- A node has one parent only, so the way down from `n` would lead back to it.
  obtain rfl : m = n := h.parent_unique hdm hm
  rcases Relation.reflTransGen_iff_eq_or_transGen.1 hmc with e | hu
  · exact h.ne_of_child hc e
  · exact hn hu

theorem text_write (h : v.Forest) (hn : n.index < v.nodes.size) (hs : (v.node n).sort ≠ .other)
    (s : String) : (v.write .text n s).text n = s := by
  cases hsort : (v.node n).sort with
  | element =>
    obtain ⟨ns, hd, -⟩ := Displays.write_forest h .text hn hsort s
    exact hd.eq_shown
  | text =>
    obtain ⟨hsort', ht⟩ := node_write_text hsort s
    rw [text_of_sort hsort', ht]
  | other => exact absurd hsort hs

theorem node_write_replaced (h : v.Forest) (hc : c ∈ v.children n)
    (hgone : c ∉ (v.write .text n s).children n) :
    (v.write .text n s).node c = { v.node c with parent := none } := by
  by_cases ht : v.HasText n
  · rw [(SameShape.write v (fun _ => ht) s).children] at hgone
    exact absurd hc hgone
  · have hnc : n ≠ c := (h.ne_of_child hc).symm
    have hlt : c.index < v.nodes.size := h.made n c hc
    have hrenew : v.replaceText n s = v.renewText n s := by
      rcases v.replaceText_cases n s with ⟨hs, -⟩ | ⟨-, ⟨c', hch, hc', -⟩ | e⟩
      · exact absurd (fun hs' => absurd hs' hs) ht
      · exact absurd (fun _ => ⟨c', hch, hc'⟩) ht
      · exact e
    have hnode : (v.write .text n s).node c = (v.renewText n s).node c := by
      rw [View.write, hrenew, node_modify_of_ne hnc]
    obtain ⟨parent, hmoved⟩ := moved_renewText (s := s) hnc (ne_fresh hlt)
    have hparent : parent = none := by
      have hp := parent_renewText (n := n) (s := s) hlt
      rw [hmoved, if_pos hc] at hp
      exact hp
    rw [hnode, hmoved, hparent]

/-- Writing the text of an element or of a text node in a forest: it is read back, it stays where it
was written, and writing it again makes nothing new. -/
theorem rewritten (h : v.Forest) (hn : n.index < v.nodes.size) (hs : (v.node n).sort ≠ .other)
    (s : String) : v.Rewritten n s (v.write .text n s) where
  text := h.text_write hn hs s
  only hsort := by
    obtain ⟨-, c, hch, hc, -⟩ := children_write_text hn hsort s
    exact ⟨c, hch, hc⟩
  others k hk hne hu :=
    node_write_of_notMem hn .text s hne.symm hk fun _ hm => hu (.single hm)
  replaced c hc hgone := by
    refine ⟨h.node_write_replaced hc hgone, fun d hd => ?_⟩
    obtain ⟨hne, hm⟩ := h.notMem_of_under hc hd
    obtain ⟨m, hdm⟩ := hd.exists_parent
    exact node_write_of_notMem hn .text s hne.symm (h.made m d hdm) fun _ => hm
  forest := h.write .text hn s
  again t := by
    have hw : (v.write .text n s).SameShape ((v.write .text n s).write .text n t) :=
      .write _ (fun _ => hasText_write hn s) t
    exact ⟨hw.size, hw.children⟩

end Forest

end ViewBinding.View
