import ViewBinding.Proofs.Forests.Forest

/-! What a node shows on one of its faces, the nodes that hold it, and the changes of a view that
leave it alone. -/

namespace ViewBinding

variable {face : Face} {ns : List (Ref .node)} {n c k : Ref .node} {s : String} {v v' v'' : View}

def Node.Shares (face : Face) (a b : Node) : Prop :=
  match face with
  | .text => b.sort = a.sort ∧ b.children = a.children ∧ b.text = a.text
  | .value => b.value = a.value
  | .html => b.html = a.html

namespace Node

theorem Shares.refl (face : Face) (a : Node) : a.Shares face a := by
  cases face with
  | text => exact ⟨rfl, rfl, rfl⟩
  | value => rfl
  | html => rfl

theorem Shares.trans {a b d : Node} (h : a.Shares face b) (h' : b.Shares face d) :
    a.Shares face d := by
  cases face with
  | text => exact ⟨h'.1.trans h.1, h'.2.1.trans h.2.1, h'.2.2.trans h.2.2⟩
  | value => exact Eq.trans h' h
  | html => exact Eq.trans h' h

theorem Moved.shares {a b : Node} (h : a.Moved b) : a.Shares face b := by
  obtain ⟨parent, rfl⟩ := h
  exact .refl face a

end Node

namespace View

theorem children_modify (v : View) (n n' : Ref .node) {change : Node → Node}
    (h : ∀ node, (change node).children = node.children) :
    (v.modify n change).children n' = v.children n' := by
  obtain e | ⟨-, -, e⟩ := v.nodes.get_modify_cases n n' change
  · exact congrArg Node.children e
  · exact (congrArg Node.children e).trans (h _)

theorem sort_modify (v : View) (n n' : Ref .node) {change : Node → Node}
    (h : ∀ node, (change node).sort = node.sort) :
    ((v.modify n change).node n').sort = (v.node n').sort := by
  obtain e | ⟨-, -, e⟩ := v.nodes.get_modify_cases n n' change
  · exact congrArg Node.sort e
  · exact (congrArg Node.sort e).trans (h _)

theorem sort_write (hk : k.index < v.nodes.size) (face : Face) (n : Ref .node) (s : String) :
    ((v.write face n s).node k).sort = (v.node k).sort := by
  cases face with
  | value => exact sort_modify v n k fun _ => rfl
  | html => exact sort_modify v n k fun _ => rfl
  | text =>
    have hr : ((v.write .text n s).node k).sort = ((v.replaceText n s).node k).sort :=
      sort_modify (v.replaceText n s) n k fun _ => rfl
    refine hr.trans ?_
    obtain ⟨-, e⟩ | ⟨-, ⟨c, -, -, e⟩ | e⟩ := v.replaceText_cases n s <;> rw [e]
    · exact sort_modify v n k fun _ => rfl
    · exact sort_modify v c k fun _ => rfl
    · have hl : k.index < (v.add { sort := .text, tag := "#text", text := s }).2.nodes.size :=
        Nat.lt_of_lt_of_eq (Nat.lt_succ_of_lt hk) (v.nodes.size_add _).symm
      rw [renewText_eq, node_append _ n _ (by rwa [size_detach]), node_detach _ n hl,
        node_add_of_ne _ (ne_fresh hk)]

/-- What a node shows on a face. -/
def shown (v : View) (face : Face) (n : Ref .node) : String :=
  match face with
  | .text => v.text n
  | .value => (v.node n).value
  | .html => (v.node n).html

/-- The nodes that hold what a node shows on a face: the node itself, and for its text also its
children. -/
def carriers (v : View) (face : Face) (n : Ref .node) : List (Ref .node) :=
  match face with
  | .text => n :: v.children n
  | .value => [n]
  | .html => [n]

/-- A node shows a text on a face, and the nodes that hold it are there for nothing else: an element
shows the text of the only node below it. -/
inductive Displays (v : View) : Face → List (Ref .node) → String → Prop
  | text {n c : Ref .node} : (v.node n).sort = .element → v.children n = [c] →
      (v.node c).sort = .text → (∀ n', c ∈ v.children n' → n' = n) →
      Displays v .text [n, c] (v.node c).text
  | value {n : Ref .node} : n.index < v.nodes.size → Displays v .value [n] (v.node n).value
  | html {n : Ref .node} : n.index < v.nodes.size → Displays v .html [n] (v.node n).html

structure Avoids (face : Face) (ns : List (Ref .node)) (v v' : View) : Prop where
  size : v.nodes.size ≤ v'.nodes.size
  shares : ∀ m ∈ ns, (v.node m).Shares face (v'.node m)
  child : ∀ m ∈ ns.tail, ∀ n, m ∈ v'.children n → m ∈ v.children n

namespace Displays

theorem lt (h : v.Displays face ns s) : ∀ m ∈ ns, m.index < v.nodes.size := by
  cases h with
  | @text n c _ hch hc _ =>
    have hn : n.index < v.nodes.size := lt_of_child (hch ▸ List.mem_singleton_self c)
    have hc' : c.index < v.nodes.size := lt_of_sort (by rw [hc]; decide)
    simp only [List.forall_mem_cons]
    exact ⟨hn, hc', fun _ h => nomatch h⟩
  | value hn => simpa using hn
  | html hn => simpa using hn

/-- Nothing but the node that shows it has a part of what it shows below it. -/
theorem mem_of_child (h : v.Displays face ns s) {m : Ref .node} (hm : m ∈ ns.tail)
    (hk : m ∈ v.children k) : k ∈ ns := by
  cases h with
  | text _ _ _ honly =>
    obtain rfl := List.mem_singleton.1 hm
    rw [honly k hk]
    exact List.mem_cons_self
  | value => nomatch hm
  | html => nomatch hm

theorem child (h : v.Displays face (n :: ns) s) : ∀ m ∈ ns, m ∈ v.children n := by
  cases h with
  | text _ hch => exact fun m hm => hch ▸ hm
  | value => exact fun m hm => nomatch hm
  | html => exact fun m hm => nomatch hm

theorem eq_carriers (h : v.Displays face (n :: ns) s) : v.carriers face n = n :: ns := by
  cases h with
  | text _ hch => rw [carriers, hch]
  | value => rfl
  | html => rfl

theorem eq_shown (h : v.Displays face (n :: ns) s) : v.shown face n = s := by
  cases h with
  | @text _ c hn hch hc _ =>
    have hl : n.index < v.nodes.size := lt_of_child (hch ▸ List.mem_singleton_self c)
    have hl' : c.index < v.nodes.size := lt_of_sort (by rw [hc]; decide)
    have hne : n.index ≠ c.index := fun e => by
      cases n
      cases c
      cases e
      rw [hn] at hc
      cases hc
    obtain ⟨size, hsize⟩ : ∃ size, v.nodes.size = size + 2 := ⟨v.nodes.size - 2, by omega⟩
    show v.text n = (v.node c).text
    rw [View.text, hsize, textWithin, hn]
    simp [hch, textWithin, hc]
  | value => rfl
  | html => rfl

theorem avoids (h : v.Displays face ns s) (h' : v.Avoids face ns v') : v'.Displays face ns s := by
  cases h with
  | @text n c hn hch hc honly =>
    obtain ⟨hs, hch', -⟩ := h'.shares n List.mem_cons_self
    have hmem : c ∈ [n, c] := List.mem_cons_of_mem n (List.mem_singleton_self c)
    obtain ⟨hcs, -, hct⟩ := h'.shares c hmem
    rw [← hct]
    exact .text (hs.trans hn) (hch'.trans hch) (hcs.trans hc) fun n' hn' =>
      honly n' (h'.child c (List.mem_singleton_self c) n' hn')
  | @value n hn =>
    have hv : (v'.node n).value = (v.node n).value := h'.shares n (List.mem_singleton_self n)
    rw [← hv]
    exact .value (Nat.lt_of_lt_of_le hn h'.size)
  | @html n hn =>
    have hv : (v'.node n).html = (v.node n).html := h'.shares n (List.mem_singleton_self n)
    rw [← hv]
    exact .html (Nat.lt_of_lt_of_le hn h'.size)

end Displays

namespace Avoids

theorem refl (face : Face) (ns : List (Ref .node)) (v : View) : v.Avoids face ns v :=
  ⟨Nat.le_refl _, fun _ _ => .refl face _, fun _ _ _ h => h⟩

theorem trans (h : v.Avoids face ns v') (h' : v'.Avoids face ns v'') : v.Avoids face ns v'' where
  size := Nat.le_trans h.size h'.size
  shares m hm := (h.shares m hm).trans (h'.shares m hm)
  child m hm n hn := h.child m hm n (h'.child m hm n hn)

theorem modify (v : View) (k : Ref .node) (change : Node → Node)
    (h : k ∈ ns → ∀ node : Node, node.Shares face (change node))
    (hc : ∀ node, (change node).children = node.children) :
    v.Avoids face ns (v.modify k change) where
  size := Nat.le_of_eq (v.size_modify k change).symm
  shares m hm := by
    obtain e | ⟨rfl, -, e⟩ := v.nodes.get_modify_cases k m change
    · exact (congrArg ((v.node m).Shares face) e).mpr (.refl face _)
    · exact (congrArg ((v.node k).Shares face) e).mpr (h hm _)
  child m _ n hn := by rwa [children_modify v k n hc] at hn

theorem add (hl : ∀ m ∈ ns, m.index < v.nodes.size) {node : Node} (hc : node.children = []) :
    v.Avoids face ns (v.add node).2 where
  size := Nat.le_of_lt (Nat.lt_of_lt_of_eq (Nat.lt_succ_self _) (v.nodes.size_add node).symm)
  shares m hm := by
    rw [node_add_of_ne node (ne_fresh (hl m hm))]
    exact .refl face _
  child m _ n hn := by
    by_cases e : n = v.nodes.fresh
    · subst e
      rw [children, node_add_fresh, hc] at hn
      cases hn
    · rwa [children, node_add_of_ne node e] at hn

theorem detach (v : View) (h : face = .text → k ∉ ns) : v.Avoids face ns (v.detach k).2 where
  size := Nat.le_of_eq (v.size_detach k).symm
  shares m hm := by
    by_cases e : k = m
    · subst e
      by_cases hl : k.index < v.nodes.size
      · rw [node_detach v k hl]
        cases face with
        | text => exact absurd hm (h rfl)
        | value => rfl
        | html => rfl
      · rw [node_of_size_le (v := (v.detach k).2) (by rw [size_detach]; exact Nat.le_of_not_lt hl),
          node_of_size_le (Nat.le_of_not_lt hl)]
        exact .refl face _
    · exact (v.moved_detach e).shares
  child m _ n hn := (v.child_detach k hn).2

theorem append (v : View) (h : face = .text → k ∉ ns) {cs : List (Ref .node)}
    (hcs : ∀ m ∈ ns.tail, m ∉ cs) : v.Avoids face ns (v.append k cs) where
  size := Nat.le_of_eq (v.size_append k cs).symm
  shares m hm := by
    by_cases e : k = m
    · subst e
      by_cases hl : k.index < v.nodes.size
      · rw [node_append v k cs hl]
        cases face with
        | text => exact absurd hm (h rfl)
        | value => rfl
        | html => rfl
      · rw [node_of_size_le (v := v.append k cs) (by rw [size_append]; exact Nat.le_of_not_lt hl),
          node_of_size_le (Nat.le_of_not_lt hl)]
        exact .refl face _
    · exact (v.moved_append e cs).shares
  child m hm n hn := by
    by_cases e : k = n
    · subst e
      have hl : k.index < v.nodes.size := Nat.lt_of_lt_of_eq (lt_of_child hn) (v.size_append k cs)
      exact ((child_append hl).1 hn).resolve_right fun hc => hcs m hm hc.2
    · rwa [children_append_of_ne v e] at hn

theorem renewText (h : face = .text → k ∉ ns) (hl : ∀ m ∈ ns, m.index < v.nodes.size)
    (s : String) : v.Avoids face ns (v.renewText k s) := by
  have ha : v.Avoids face ns (v.add { sort := .text, tag := "#text", text := s }).2 := add hl rfl
  refine (ha.trans (detach _ h)).trans (append _ h fun m hm hf => ?_)
  exact ne_fresh (hl m (List.mem_of_mem_tail hm)) (List.mem_singleton.1 hf)

theorem replaceText (hd : v.Displays face ns s) (h : face = .text → k ∉ ns) (s' : String) :
    v.Avoids face ns (v.replaceText k s') := by
  rcases v.replaceText_cases k s' with ⟨-, e⟩ | ⟨-, ⟨c, hch, hc, e⟩ | e⟩ <;> rw [e]
  · refine modify v k _ (fun hk node => ?_) fun _ => rfl
    cases face with
    | text => exact absurd hk (h rfl)
    | value => rfl
    | html => rfl
  · refine modify v c _ (fun hmem node => ?_) fun _ => rfl
    -- The only child of another node is none of those that hold a text.
    cases hd with
    | @text n c' hn _ _ honly =>
      obtain rfl | rfl : c = n ∨ c = c' := by simpa using hmem
      · rw [hn] at hc
        cases hc
      · obtain rfl := honly k (hch ▸ List.mem_singleton_self c)
        exact absurd List.mem_cons_self (h rfl)
    | value => rfl
    | html => rfl
  · exact renewText h hd.lt s'

theorem write (hd : v.Displays face ns s) {face' : Face} (h : face' = face → k ∉ ns)
    (s' : String) : v.Avoids face ns (v.write face' k s') := by
  cases face' with
  | text =>
    refine (replaceText hd (fun e => h e.symm) s').trans
      (modify _ k _ (fun hk node => ?_) fun _ => rfl)
    cases face with
    | text => exact absurd hk (h rfl)
    | value => rfl
    | html => rfl
  | value =>
    refine modify v k _ (fun hk node => ?_) fun _ => rfl
    cases face with
    | text => exact ⟨rfl, rfl, rfl⟩
    | value => exact absurd hk (h rfl)
    | html => rfl
  | html =>
    refine modify v k _ (fun hk node => ?_) fun _ => rfl
    cases face with
    | text => exact ⟨rfl, rfl, rfl⟩
    | value => rfl
    | html => exact absurd hk (h rfl)

theorem listen (v : View) (k : Ref .node) (l : Listener) : v.Avoids face ns (v.listen k l) := by
  refine modify v k _ (fun _ node => ?_) fun _ => rfl
  cases face with
  | text => exact ⟨rfl, rfl, rfl⟩
  | value => rfl
  | html => rfl

mutual

theorem create : ∀ (m : Markup) {v : View}, (∀ m ∈ ns, m.index < v.nodes.size) →
    v.Avoids face ns (View.create m v).2 ∧ v.nodes.size ≤ (View.create m v).1.index
  | .text _, v, hl => ⟨add hl rfl, Nat.le_refl _⟩
  | .comment _, v, hl => ⟨add hl rfl, Nat.le_refl _⟩
  | .element tag attrs children, v, hl => by
    obtain ⟨ha, hnew⟩ := createAll children hl
    have hl₁ := fun m hm => Nat.lt_of_lt_of_le (hl m hm) ha.size
    refine ⟨(ha.trans (add hl₁ rfl)).trans (append _ (fun _ hf => ?_) fun m hm hc => ?_), ha.size⟩
    · exact ne_fresh (hl₁ _ hf) rfl
    · exact absurd (hl m (List.mem_of_mem_tail hm)) (Nat.not_lt.2 (hnew m hc))

theorem createAll : ∀ (ms : List Markup) {v : View}, (∀ m ∈ ns, m.index < v.nodes.size) →
    v.Avoids face ns (View.createAll ms v).2 ∧
      ∀ n ∈ (View.createAll ms v).1, v.nodes.size ≤ n.index
  | [], v, _ => ⟨refl face ns v, fun _ h => nomatch h⟩
  | m :: ms, v, hl => by
    obtain ⟨ha, hnew⟩ := create m hl
    obtain ⟨ha', hnew'⟩ := createAll ms fun m hm => Nat.lt_of_lt_of_le (hl m hm) ha.size
    refine ⟨ha.trans ha', fun n hn => ?_⟩
    obtain rfl | hn := List.mem_cons.1 hn
    · exact hnew
    · exact Nat.le_trans ha.size (hnew' n hn)

end

end Avoids

namespace Displays

theorem write_value (h : n.index < v.nodes.size) (s : String) :
    (v.write .value n s).Displays .value [n] s := by
  have hl : n.index < (v.write .value n s).nodes.size := Nat.lt_of_lt_of_le h (v.size_write ..)
  have hs : ((v.write .value n s).node n).value = s := by rw [View.write, node_modify_self h]
  have hd := Displays.value hl
  rwa [hs] at hd

theorem write_html (h : n.index < v.nodes.size) (s : String) :
    (v.write .html n s).Displays .html [n] s := by
  have hl : n.index < (v.write .html n s).nodes.size := Nat.lt_of_lt_of_le h (v.size_write ..)
  have hs : ((v.write .html n s).node n).html = s := by rw [View.write, node_modify_self h]
  have hd := Displays.html hl
  rwa [hs] at hd

theorem write_text (h : v.Displays .text ns s) (hk : k ∈ ns) (s' : String) :
    (v.write .text k s').Displays .text ns s' := by
  cases h with
  | @text n c hn hch hc honly =>
    have hne : c ≠ n := by
      rintro rfl
      rw [hn] at hc
      cases hc
    have hr : v.replaceText k s' = v.setOwnText c s' := by
      obtain rfl | rfl : k = n ∨ k = c := by simpa using hk
      · rw [View.replaceText, if_pos hn, hch]
        exact if_pos hc
      · rw [View.replaceText, if_neg (by rw [hc]; decide)]
    let own (node : Node) : Node := { node with text := s' }
    have hnode : (v.modify c own).node c = own (v.node c) :=
      node_modify_self (lt_of_sort (by rw [hc]; decide)) own
    have hother : (v.modify c own).node n = v.node n := node_modify_of_ne hne own
    have hd : (v.modify c own).Displays .text [n, c] ((v.modify c own).node c).text := by
      refine .text ?_ ?_ ?_ fun n' hn' => honly n' ?_
      · rw [hother, hn]
      · rw [children, hother]
        exact hch
      · rw [hnode]
        exact hc
      · have hsame : (v.modify c own).children n' = v.children n' :=
          children_modify v c n' fun _ => rfl
        rwa [hsame] at hn'
    have ht : ((v.modify c own).node c).text = s' := by rw [hnode]
    rw [ht] at hd
    rw [View.write, hr]
    exact hd.avoids (.modify _ k _ (fun _ _ => ⟨rfl, rfl, rfl⟩) fun _ => rfl)

/-- After a write a face shows what was written if it is the one that was written, and what it
showed before otherwise. -/
theorem write (h : v.Displays face ns s) (face' : Face) (k : Ref .node) (s' : String) :
    (v.write face' k s').Displays face ns (if face' = face ∧ k ∈ ns then s' else s) := by
  by_cases hw : face' = face ∧ k ∈ ns
  · rw [if_pos hw]
    obtain ⟨rfl, hk⟩ := hw
    cases face' with
    | text => exact h.write_text hk s'
    | value =>
      cases h with
      | value hn =>
        obtain rfl := List.mem_singleton.1 hk
        exact write_value hn s'
    | html =>
      cases h with
      | html hn =>
        obtain rfl := List.mem_singleton.1 hk
        exact write_html hn s'
  · rw [if_neg hw]
    exact h.avoids (.write h (fun e hk => hw ⟨e, hk⟩) s')

theorem write_forest (hf : v.Forest) (face : Face) (hl : n.index < v.nodes.size)
    (hn : (v.node n).sort = .element) (s : String) :
    ∃ ns, (v.write face n s).Displays face (n :: ns) s ∧
      ∀ m ∈ ns, m ∈ (v.write face n s).children n := by
  have hf' := hf.write face hl s
  cases face with
  | text =>
    obtain ⟨hs, c, hch, hc, ht, -⟩ := children_write_text hl hn s
    have hmem : c ∈ (v.write .text n s).children n := hch ▸ List.mem_singleton_self c
    have hd := Displays.text hs hch hc fun n' hn' => hf'.parent_unique hn' hmem
    rw [ht] at hd
    refine ⟨[c], hd, fun m hm => ?_⟩
    rwa [List.mem_singleton.1 hm]
  | value => exact ⟨[], write_value hl s, fun _ h => nomatch h⟩
  | html => exact ⟨[], write_html hl s, fun _ h => nomatch h⟩

end Displays

end View

end ViewBinding
