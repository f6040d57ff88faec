import ViewBinding.Proofs.Sources

/-! The nodes of a view after writes. -/

namespace ViewBinding

variable {v : View} {n n' : Ref .node} {s : String}

def Node.Moved (a b : Node) : Prop := ∃ parent, b = { a with parent }

namespace Node.Moved

variable {a b c : Node}

theorem refl (a : Node) : a.Moved a := ⟨a.parent, rfl⟩

theorem trans (h : a.Moved b) (h' : b.Moved c) : a.Moved c := by
  obtain ⟨_, rfl⟩ := h
  obtain ⟨parent, rfl⟩ := h'
  exact ⟨parent, rfl⟩

theorem sort (h : a.Moved b) : b.sort = a.sort := by
  obtain ⟨_, rfl⟩ := h
  rfl

theorem attrs (h : a.Moved b) : b.attrs = a.attrs := by
  obtain ⟨_, rfl⟩ := h
  rfl

theorem children (h : a.Moved b) : b.children = a.children := by
  obtain ⟨_, rfl⟩ := h
  rfl

theorem text (h : a.Moved b) : b.text = a.text := by
  obtain ⟨_, rfl⟩ := h
  rfl

theorem listeners (h : a.Moved b) : b.listeners = a.listeners := by
  obtain ⟨_, rfl⟩ := h
  rfl

end Node.Moved

namespace View

theorem node_modify_self (h : n.index < v.nodes.size) (change : Node → Node) :
    (v.modify n change).node n = change (v.node n) := v.nodes.get_modify_self change h

theorem node_modify_of_ne (h : n ≠ n') (change : Node → Node) :
    (v.modify n change).node n' = v.node n' := v.nodes.get_modify_of_ne change h

theorem size_modify (v : View) (n : Ref .node) (change : Node → Node) :
    (v.modify n change).nodes.size = v.nodes.size := Store.size_modify ..

theorem listeners_modify (v : View) (n n' : Ref .node) (change : Node → Node)
    (h : ∀ node, (change node).listeners = node.listeners) :
    ((v.modify n change).node n').listeners = (v.node n').listeners := by
  obtain e | ⟨-, -, e⟩ := v.nodes.get_modify_cases n n' change
  · exact congrArg Node.listeners e
  · exact (congrArg Node.listeners e).trans (h _)

theorem node_of_size_le (h : v.nodes.size ≤ n.index) : v.node n = default :=
  v.nodes.get_of_size_le h

theorem lt_of_sort (h : (v.node n).sort ≠ .element) : n.index < v.nodes.size := by
  by_contra hn
  rw [node_of_size_le (Nat.le_of_not_lt hn)] at h
  exact h rfl

theorem text_of_sort (h : (v.node n).sort = .text) : v.text n = (v.node n).text := by
  rw [text]
  cases hk : v.nodes.size with
  | zero =>
    rw [node_of_size_le (by omega)] at h
    cases h
  | succ k => rw [textWithin, h]

section Parents

variable {parent : Option (Ref .node)} {ns : List (Ref .node)}

theorem size_setParent (v : View) (parent : Option (Ref .node)) (ns : List (Ref .node)) :
    (v.setParent parent ns).nodes.size = v.nodes.size := by
  induction ns generalizing v with
  | nil => rfl
  | cons n ns ih => exact (ih _).trans (v.size_modify ..)

theorem moved_setParent (v : View) (parent : Option (Ref .node)) (ns : List (Ref .node))
    (n : Ref .node) : (v.node n).Moved ((v.setParent parent ns).node n) := by
  induction ns generalizing v with
  | nil => exact .refl _
  | cons n' ns ih =>
    refine Node.Moved.trans ?_ (ih (v.modify n' fun node => { node with parent }))
    obtain e | ⟨-, -, e⟩ := v.nodes.get_modify_cases n' n fun node => { node with parent }
    · exact ⟨_, e⟩
    · exact ⟨parent, e⟩

theorem node_setParent_of_notMem (h : n ∉ ns) : (v.setParent parent ns).node n = v.node n := by
  induction ns generalizing v with
  | nil => rfl
  | cons n' ns ih =>
    rw [List.mem_cons, not_or] at h
    exact (ih h.2).trans (node_modify_of_ne (Ne.symm h.1) _)

theorem size_detach (v : View) (n : Ref .node) : (v.detach n).2.nodes.size = v.nodes.size :=
  (size_setParent ..).trans (v.size_modify ..)

theorem moved_detach (v : View) (h : n ≠ n') : (v.node n').Moved ((v.detach n).2.node n') := by
  have hm := moved_setParent (v.modify n fun node => { node with children := [] }) none
    (v.children n) n'
  rwa [node_modify_of_ne h] at hm

theorem moved_append (v : View) (h : n ≠ n') (ns : List (Ref .node)) :
    (v.node n').Moved ((v.append n ns).node n') := by
  have he := node_modify_of_ne (v := v.setParent (some n) ns) h
    fun node => { node with children := node.children ++ ns }
  exact (moved_setParent v (some n) ns n').trans ⟨_, he⟩

theorem moved_detach_self (h : n.index < v.nodes.size) :
    { v.node n with children := [] }.Moved ((v.detach n).2.node n) := by
  rw [← node_modify_self h fun node => { node with children := [] }]
  exact moved_setParent ..

theorem moved_append_self (h : n.index < v.nodes.size) (ns : List (Ref .node)) :
    { v.node n with children := (v.node n).children ++ ns }.Moved ((v.append n ns).node n) := by
  have hl : n.index < (v.setParent (some n) ns).nodes.size := by rwa [size_setParent]
  obtain ⟨parent, hp⟩ := moved_setParent v (some n) ns n
  have he := node_modify_self hl fun node => { node with children := node.children ++ ns }
  exact ⟨parent, he.trans (by rw [hp])⟩

theorem listeners_detach (v : View) (n n' : Ref .node) :
    ((v.detach n).2.node n').listeners = (v.node n').listeners :=
  (moved_setParent ..).listeners.trans
    (v.listeners_modify n n' (fun node => { node with children := [] }) fun _ => rfl)

theorem listeners_append (v : View) (n n' : Ref .node) (ns : List (Ref .node)) :
    ((v.append n ns).node n').listeners = (v.node n').listeners :=
  (listeners_modify (v.setParent (some n) ns) n n'
    (fun node => { node with children := node.children ++ ns }) fun _ => rfl).trans
      (v.moved_setParent ..).listeners

end Parents

section Renewal

theorem node_add_of_ne (node : Node) (h : n ≠ v.nodes.fresh) : (v.add node).2.node n = v.node n :=
  (v.nodes.get_add node n).trans (if_neg h)

theorem node_add_fresh (node : Node) : (v.add node).2.node v.nodes.fresh = node :=
  (v.nodes.get_add node _).trans (if_pos rfl)

theorem ne_fresh (h : n.index < v.nodes.size) : n ≠ v.nodes.fresh := by
  rintro rfl
  exact Nat.lt_irrefl _ h

theorem size_renewText (v : View) (n : Ref .node) (s : String) :
    (v.renewText n s).nodes.size = v.nodes.size + 1 :=
  (size_modify ..).trans ((size_setParent ..).trans ((size_detach ..).trans (v.nodes.size_add _)))

theorem renewText_eq (v : View) (n : Ref .node) (s : String) : v.renewText n s =
    ((v.add { sort := .text, tag := "#text", text := s }).2.detach n).2.append n [v.nodes.fresh] :=
  rfl

theorem moved_renewText (hn : n ≠ n') (hf : n' ≠ v.nodes.fresh) :
    (v.node n').Moved ((v.renewText n s).node n') := by
  rw [renewText_eq, ← node_add_of_ne { sort := .text, tag := "#text", text := s } hf]
  exact (moved_detach _ hn).trans (moved_append _ hn _)

theorem node_renewText_of_notMem (hn : n ≠ n') (hl : n.index < v.nodes.size)
    (hf : n' ≠ v.nodes.fresh) (hc : n' ∉ v.children n) : (v.renewText n s).node n' = v.node n' := by
  have hc' : n' ∉ (v.add { sort := .text, tag := "#text", text := s }).2.children n := by
    rw [children, node_add_of_ne _ (ne_fresh hl)]
    exact hc
  refine (node_modify_of_ne hn _).trans ((node_setParent_of_notMem ?_).trans ?_)
  · exact fun h => hf (List.mem_singleton.1 h)
  · exact (node_setParent_of_notMem hc').trans
      ((node_modify_of_ne hn _).trans (node_add_of_ne _ hf))

theorem moved_renewText_self (h : n.index < v.nodes.size) :
    { v.node n with children := [v.nodes.fresh] }.Moved ((v.renewText n s).node n) := by
  let w := (v.add { sort := .text, tag := "#text", text := s }).2
  have hl : n.index < w.nodes.size :=
    Nat.lt_of_lt_of_eq (Nat.lt_succ_of_lt h) (v.nodes.size_add _).symm
  obtain ⟨p, hp⟩ := moved_detach_self hl
  obtain ⟨q, hq⟩ := moved_append_self (Nat.lt_of_lt_of_eq hl (size_detach w n).symm) [v.nodes.fresh]
  refine ⟨q, hq.trans ?_⟩
  rw [hp, show w.node n = v.node n from node_add_of_ne _ (ne_fresh h)]
  rfl

theorem moved_renewText_fresh (h : n.index < v.nodes.size) :
    ({ sort := .text, tag := "#text", text := s } : Node).Moved
      ((v.renewText n s).node v.nodes.fresh) := by
  let w := (v.add { sort := .text, tag := "#text", text := s }).2
  have hm := (moved_detach w (ne_fresh h)).trans (moved_append _ (ne_fresh h) [v.nodes.fresh])
  rwa [show w.node v.nodes.fresh = _ from node_add_fresh _] at hm

theorem listeners_renewText (h : n.index < v.nodes.size) (n' : Ref .node) :
    ((v.renewText n s).node n').listeners = (v.node n').listeners := by
  by_cases hn : n = n'
  · subst hn
    exact (moved_renewText_self h).listeners
  · by_cases hf : n' = v.nodes.fresh
    · subst hf
      have hd : v.node v.nodes.fresh = default := node_of_size_le (Nat.le_refl v.nodes.size)
      rw [(moved_renewText_fresh h).listeners, hd]
      rfl
    · exact (moved_renewText hn hf).listeners

end Renewal

section Writes

theorem replaceText_cases (v : View) (n : Ref .node) (s : String) :
    ((v.node n).sort ≠ .element ∧ v.replaceText n s = v.setOwnText n s) ∨
      (v.node n).sort = .element ∧
        ((∃ c, v.children n = [c] ∧ (v.node c).sort = .text ∧
          v.replaceText n s = v.setOwnText c s) ∨ v.replaceText n s = v.renewText n s) := by
  rw [replaceText]
  split
  · refine .inr ⟨‹_›, ?_⟩
    split
    · split
      · exact .inl ⟨_, ‹_›, ‹_›, rfl⟩
      · exact .inr rfl
    · exact .inr rfl
  · exact .inl ⟨‹_›, rfl⟩

theorem size_replaceText (v : View) (n : Ref .node) (s : String) :
    v.nodes.size ≤ (v.replaceText n s).nodes.size := by
  obtain ⟨-, e⟩ | ⟨-, ⟨c, -, -, e⟩ | e⟩ := v.replaceText_cases n s <;> rw [e]
  · exact Nat.le_of_eq (size_modify ..).symm
  · exact Nat.le_of_eq (size_modify ..).symm
  · exact Nat.le_of_lt (Nat.lt_of_lt_of_eq (Nat.lt_succ_self _) (size_renewText ..).symm)

theorem size_write (v : View) (face : Face) (n : Ref .node) (s : String) :
    v.nodes.size ≤ (v.write face n s).nodes.size := by
  cases face with
  | text => exact Nat.le_trans (v.size_replaceText n s) (Nat.le_of_eq (size_modify ..).symm)
  | value => exact Nat.le_of_eq (size_modify ..).symm
  | html => exact Nat.le_of_eq (size_modify ..).symm

theorem listeners_replaceText (h : n.index < v.nodes.size) (s : String) (n' : Ref .node) :
    ((v.replaceText n s).node n').listeners = (v.node n').listeners := by
  obtain ⟨-, e⟩ | ⟨-, ⟨c, -, -, e⟩ | e⟩ := v.replaceText_cases n s <;> rw [e]
  · exact v.listeners_modify n n' _ fun _ => rfl
  · exact v.listeners_modify c n' _ fun _ => rfl
  · exact listeners_renewText h n'

theorem listeners_write (h : n.index < v.nodes.size) (face : Face) (s : String) (n' : Ref .node) :
    ((v.write face n s).node n').listeners = (v.node n').listeners := by
  cases face with
  | text =>
    exact ((v.replaceText n s).listeners_modify n n'
      (fun node => { node with textWrites := node.textWrites + 1 }) fun _ => rfl).trans
        (listeners_replaceText h s n')
  | value => exact v.listeners_modify n n' _ fun _ => rfl
  | html => exact v.listeners_modify n n' _ fun _ => rfl

theorem node_write_of_notMem (h : n.index < v.nodes.size) (face : Face) (s : String) (hn : n ≠ n')
    (hl : n'.index < v.nodes.size) (hc : (v.node n).sort = .element → n' ∉ v.children n) :
    (v.write face n s).node n' = v.node n' := by
  cases face with
  | text =>
    refine (node_modify_of_ne hn _).trans ?_
    obtain ⟨-, e⟩ | ⟨hs, ⟨c, hch, -, e⟩ | e⟩ := v.replaceText_cases n s <;> rw [e]
    · exact node_modify_of_ne hn _
    · refine node_modify_of_ne ?_ _
      rintro rfl
      exact hc hs (hch ▸ List.mem_singleton_self _)
    · exact node_renewText_of_notMem hn h (ne_fresh hl) (hc hs)
  | value => exact node_modify_of_ne hn _
  | html => exact node_modify_of_ne hn _

theorem node_write_text (h : (v.node n).sort = .text) (s : String) :
    ((v.write .text n s).node n).sort = .text ∧ ((v.write .text n s).node n).text = s := by
  have hs : ¬(v.node n).sort = .element := by
    rw [h]
    decide
  have hlt := lt_of_sort hs
  have hlt' : n.index < (v.setOwnText n s).nodes.size := by rwa [setOwnText, size_modify]
  rw [write, replaceText, if_neg hs, node_modify_self hlt', setOwnText, node_modify_self hlt]
  exact ⟨h, rfl⟩

theorem children_write_text (h : n.index < v.nodes.size) (hs : (v.node n).sort = .element)
    (s : String) : ((v.write .text n s).node n).sort = .element ∧
      ∃ c, (v.write .text n s).children n = [c] ∧ ((v.write .text n s).node c).sort = .text ∧
        ((v.write .text n s).node c).text = s ∧ (v.children n = [c] ∨ c = v.nodes.fresh) := by
  have hl := Nat.lt_of_lt_of_le h (v.size_replaceText n s)
  have hself := node_modify_self hl fun node => { node with textWrites := node.textWrites + 1 }
  obtain ⟨hne, -⟩ | ⟨-, ⟨c, hch, hct, e⟩ | e⟩ := v.replaceText_cases n s
  · exact absurd hs hne
  · have hnc : c ≠ n := by
      rintro rfl
      rw [hct] at hs
      cases hs
    have hlc : c.index < v.nodes.size := lt_of_sort (by rw [hct]; decide)
    have hn : (v.replaceText n s).node n = v.node n := e ▸ node_modify_of_ne hnc _
    have hc : (v.write .text n s).node c = { v.node c with text := s } :=
      (node_modify_of_ne hnc.symm _).trans (e ▸ node_modify_self hlc _)
    refine ⟨(congrArg Node.sort hself).trans ((congrArg Node.sort hn).trans hs), c, ?_, ?_, ?_,
      .inl hch⟩
    · exact (congrArg Node.children hself).trans ((congrArg Node.children hn).trans hch)
    · exact (congrArg Node.sort hc).trans hct
    · exact congrArg Node.text hc
  · have hn := e ▸ moved_renewText_self (s := s) h
    have hf := moved_renewText_fresh (s := s) h
    have hc : (v.write .text n s).node v.nodes.fresh = (v.renewText n s).node v.nodes.fresh :=
      (node_modify_of_ne (ne_fresh h) _).trans (e ▸ rfl)
    refine ⟨(congrArg Node.sort hself).trans (hn.sort.trans hs), v.nodes.fresh, ?_, ?_, ?_,
      .inr rfl⟩
    · exact (congrArg Node.children hself).trans hn.children
    · exact (congrArg Node.sort hc).trans hf.sort
    · exact (congrArg Node.text hc).trans hf.text

end Writes

end View

end ViewBinding
