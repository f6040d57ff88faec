import Mathlib.Data.List.Perm.Subperm
import ViewBinding.Proofs.Forests.Forest

/-! Writing in a part of a view. What is written below some nodes stays below them, and the rest of
the view is left alone. -/

namespace ViewBinding.View

variable {U : Ref .node → Prop} {v v' v'' : View} {n n' c : Ref .node} {d : Nat}

structure Room (U : Ref .node → Prop) (v : View) : Prop where
  forest : v.Forest
  closed : ∀ n, U n → ∀ c ∈ v.children n, U c
  fresh : ∀ n, v.nodes.size ≤ n.index → U n

theorem Room.of_under (h : v.Room U) (hn : U n) (hc : v.Under c n) : U c := by
  induction hc using Relation.TransGen.head_induction_on with
  | single hc => exact h.closed _ hn _ hc
  | head hc _ ih => exact h.closed _ ih _ hc

/-- A change inside a part of a view. Elements come to have no new children that are elements, and
no node without a parent is put below another. -/
structure Inside (U : Ref .node → Prop) (v v' : View) : Prop where
  size : v.nodes.size ≤ v'.nodes.size
  others : ∀ n, ¬U n → v'.node n = v.node n
  parentless : ∀ n, n.index < v.nodes.size → (v.node n).parent = none →
    (v'.node n).parent = none
  sort : ∀ n, (v'.node n).sort = .element → (v.node n).sort = .element
  children : ∀ n, ∀ c ∈ v'.children n, c ∈ v.children n ∨ (v'.node c).sort ≠ .element

namespace Inside

theorem refl (v : View) : v.Inside U v :=
  ⟨Nat.le_refl _, fun _ _ => rfl, fun _ _ h => h, fun _ h => h, fun _ _ h => .inl h⟩

theorem trans (h : v.Inside U v') (h' : v'.Inside U v'') : v.Inside U v'' where
  size := Nat.le_trans h.size h'.size
  others n hn := (h'.others n hn).trans (h.others n hn)
  parentless n hl hp :=
    h'.parentless n (Nat.lt_of_lt_of_le hl h.size) (h.parentless n hl hp)
  sort n hs := h.sort n (h'.sort n hs)
  children n c hc := by
    obtain hc | hc := h'.children n c hc
    · exact (h.children n c hc).imp_right fun hne he => hne (h'.sort c he)
    · exact .inr hc

theorem modify (hn : U n) (change : Node → Node) (hs : ∀ node, (change node).sort = node.sort)
    (hc : ∀ node, (change node).children = node.children)
    (hp : ∀ node, (change node).parent = node.parent) : v.Inside U (v.modify n change) := by
  have hnode (n' : Ref .node) : (v.modify n change).node n' = v.node n' ∨
      (v.modify n change).node n' = change (v.node n') :=
    (v.nodes.get_modify_cases n n' change).imp_right fun h => h.2.2
  refine ⟨Nat.le_of_eq (size_modify ..).symm, fun n' hn' => node_modify_of_ne ?_ _,
    fun n' _ h => ?_, fun n' h => ?_, fun n' c h => .inl ?_⟩
  · rintro rfl
    exact hn' hn
  · obtain e | e := hnode n' <;> rw [e]
    · exact h
    · rwa [hp]
  · obtain e | e := hnode n' <;> rw [e] at h
    · exact h
    · rwa [hs] at h
  · obtain e | e := hnode n' <;> rw [View.children, e] at h
    · exact h
    · rwa [hc] at h

end Inside

namespace Room

theorem modify (h : v.Room U) (n : Ref .node) (change : Node → Node)
    (hc : ∀ node, (change node).children = node.children)
    (hp : ∀ node, (change node).parent = node.parent) : (v.modify n change).Room U where
  forest := h.forest.modify n change hc hp
  closed m hm c hm' := by
    refine h.closed m hm c ?_
    obtain e | ⟨-, -, e⟩ := v.nodes.get_modify_cases n m change
    · rwa [children, node, View.modify, e] at hm'
    · rwa [children, node, View.modify, e, hc] at hm'
  fresh m hm := h.fresh m (by rwa [size_modify] at hm)

theorem renewText (h : v.Room U) (hn : U n) (hl : n.index < v.nodes.size) (s : String) :
    (v.renewText n s).Room U ∧ v.Inside U (v.renewText n s) := by
  have hf : U v.nodes.fresh := h.fresh _ (Nat.le_refl v.nodes.size)
  have hsize := v.size_renewText n s
  have hself : (v.renewText n s).children n = [v.nodes.fresh] :=
    (moved_renewText_self hl).children
  refine ⟨⟨h.forest.renewText hl s, fun m hm c hc => ?_, fun m hm => h.fresh m (by omega)⟩,
    by omega, fun m hm => ?_, fun m hm hp => ?_, fun m hs => ?_, fun m c hc => ?_⟩
  · by_cases e : n = m
    · subst e
      rw [hself] at hc
      obtain rfl := List.mem_singleton.1 hc
      exact hf
    · rw [children_renewText_of_ne hl e] at hc
      exact h.closed m hm c hc
  · -- The nodes that change are in the part.
    have hne : n ≠ m := fun e => hm (e ▸ hn)
    have hne' : m ≠ v.nodes.fresh := fun e => hm (e ▸ hf)
    exact node_renewText_of_notMem hne hl hne' fun hc => hm (h.closed n hn m hc)
  · rw [parent_renewText hm, if_neg (h.forest.not_child hp)]
    exact hp
  · exact sort_renewText hl hs
  · by_cases e : n = m
    · subst e
      rw [hself] at hc
      obtain rfl := List.mem_singleton.1 hc
      rw [(moved_renewText_fresh hl).sort]
      exact .inr (nomatch ·)
    · rw [children_renewText_of_ne hl e] at hc
      exact .inl hc

theorem replaceText (h : v.Room U) (hn : U n) (hl : n.index < v.nodes.size) (s : String) :
    (v.replaceText n s).Room U ∧ v.Inside U (v.replaceText n s) := by
  obtain ⟨-, e⟩ | ⟨-, ⟨c, hc, -, e⟩ | e⟩ := v.replaceText_cases n s <;> rw [e]
  · exact ⟨h.modify n _ (fun _ => rfl) fun _ => rfl,
      .modify hn _ (fun _ => rfl) (fun _ => rfl) fun _ => rfl⟩
  · have hcU : U c := h.closed n hn c (hc ▸ List.mem_singleton_self c)
    exact ⟨h.modify c _ (fun _ => rfl) fun _ => rfl,
      .modify hcU _ (fun _ => rfl) (fun _ => rfl) fun _ => rfl⟩
  · exact h.renewText hn hl s

theorem write (h : v.Room U) (hn : U n) (hl : n.index < v.nodes.size) (face : Face) (s : String) :
    (v.write face n s).Room U ∧ v.Inside U (v.write face n s) := by
  cases face with
  | text =>
    obtain ⟨hr, hi⟩ := h.replaceText hn hl s
    exact ⟨hr.modify n _ (fun _ => rfl) fun _ => rfl,
      hi.trans (.modify hn _ (fun _ => rfl) (fun _ => rfl) fun _ => rfl)⟩
  | value =>
    exact ⟨h.modify n _ (fun _ => rfl) fun _ => rfl,
      .modify hn _ (fun _ => rfl) (fun _ => rfl) fun _ => rfl⟩
  | html =>
    exact ⟨h.modify n _ (fun _ => rfl) fun _ => rfl,
      .modify hn _ (fun _ => rfl) (fun _ => rfl) fun _ => rfl⟩

theorem listen (h : v.Room U) (hn : U n) (l : Listener) :
    (v.listen n l).Room U ∧ v.Inside U (v.listen n l) :=
  ⟨h.modify n _ (fun _ => rfl) fun _ => rfl,
    .modify hn _ (fun _ => rfl) (fun _ => rfl) fun _ => rfl⟩

end Room

section Restoring

variable {root : Ref .node}

def Beneath (v : View) (root n : Ref .node) : Prop := v.Under n root ∨ v.nodes.size ≤ n.index

theorem Forest.not_beneath (h : v.Forest) (hroot : root.index < v.nodes.size) :
    ¬v.Beneath root root := fun hu => hu.elim (h.acyclic root) (Nat.not_le.2 hroot)

theorem Forest.room_detach (h : v.Forest) (root : Ref .node) :
    (v.detach root).2.Room (v.Beneath root) where
  forest := h.detach root
  closed n hn c hc := by
    have hc' := (child_detach v root hc).2
    exact .inl (Relation.TransGen.head hc' (hn.resolve_right (Nat.not_le.2 (lt_of_child hc'))))
  fresh n hn := .inr (by rwa [size_detach] at hn)

/-- A view in which a node has its children back, and all that has changed was below it. -/
structure Restored (root : Ref .node) (v v' : View) : Prop where
  size : v.nodes.size ≤ v'.nodes.size
  children : v'.children root = v.children root
  parent : ∀ c ∈ v.children root, (v'.node c).parent = some root
  others : ∀ n, n.index < v.nodes.size → ¬v.Under n root → v'.node n = v.node n
  forest : v'.Forest

/-- The children of a node can be put back after whatever was done to what is beneath it. -/
theorem Forest.restored (h : v.Forest) (hroot : root.index < v.nodes.size)
    (hr : v'.Room (v.Beneath root)) (hi : (v.detach root).2.Inside (v.Beneath root) v') :
    Restored root v (v'.append root (v.children root)) := by
  have hsize : v.nodes.size ≤ v'.nodes.size := by
    rw [← v.size_detach root]
    exact hi.size
  have hroot' : root.index < v'.nodes.size := Nat.lt_of_lt_of_le hroot hsize
  have hlt (c : Ref .node) (hc : c ∈ v.children root) : c.index < v'.nodes.size :=
    Nat.lt_of_lt_of_le (h.made root c hc) hsize
  have hnode (n : Ref .node) (hl : n.index < v.nodes.size) (hn : ¬v.Under n root) :
      v'.node n = (v.detach root).2.node n :=
    hi.others n fun hu => hu.elim hn (Nat.not_le.2 hl)
  have hself : v'.children root = [] := by
    rw [View.children, hnode root hroot (h.acyclic root)]
    exact children_detach_self v root
  have hnotin {n : Ref .node} (hn : ¬v.Under n root) : n ∉ v.children root :=
    fun hc => hn (.single hc)
  refine ⟨by rwa [size_append], ?_, fun c hc => ?_, fun n hl hn => ?_, hr.forest.append hroot' ?_
    hlt (h.nodup root) fun c hc => ?_⟩
  · rw [children_append_self hroot', hself, List.nil_append]
  · rw [parent_append _ _ _ (hlt c hc), if_pos hc]
  · rw [node_append _ _ _ (Nat.lt_of_lt_of_le hl hsize), if_neg (hnotin hn)]
    have hd := hnode n hl hn
    rw [node_detach v root hl, if_neg (hnotin hn)] at hd
    by_cases e : root = n
    · subst e
      rw [if_pos rfl, hself, hd, List.nil_append]
      rfl
    · rw [if_neg e, View.children, hd, if_neg e]
      rfl
  · intro c hc
    refine ⟨h.ne_of_child hc, fun hu => ?_⟩
    -- The root is not beneath itself, whatever was done there.
    exact h.not_beneath hroot (hr.of_under (.inl (.single hc)) hu)
  · refine hi.parentless c ?_ ?_
    · rw [size_detach]
      exact h.made root c hc
    · rw [parent_detach, if_pos hc]

end Restoring

section Depth

/-- Whether a node and all below it are within `d` levels, even if each element gets a new child
that is none. -/
def Fits (v : View) : Nat → Ref .node → Prop
  | 0, _ => False
  | d + 1, n => (v.node n).sort = .element → 0 < d ∧ ∀ c ∈ v.children n, v.Fits d c

theorem fits_of_ne (hd : 0 < d) (h : (v.node n).sort ≠ .element) : v.Fits d n := by
  obtain ⟨d, rfl⟩ := Nat.exists_eq_succ_of_ne_zero (Nat.ne_of_gt hd)
  exact fun he => absurd he h

theorem Fits.inside (hi : v.Inside U v') (h : v.Fits d n) : v'.Fits d n := by
  induction d generalizing n with
  | zero => exact h
  | succ d ih =>
    intro hs
    obtain ⟨hd, hc⟩ := h (hi.sort n hs)
    refine ⟨hd, fun c hm => ?_⟩
    obtain hm | hne := hi.children n c hm
    · exact ih (hc c hm)
    · exact fits_of_ne hd hne

theorem length_le_of_nodup {ns : List (Ref .node)} {k : Nat} (hu : ns.Nodup)
    (h : ∀ n ∈ ns, n.index < k) : ns.length ≤ k := by
  have hu' : (ns.map Ref.index).Nodup :=
    hu.map fun a b e => by cases a; cases b; cases e; rfl
  have hs : ns.map Ref.index ⊆ List.range k := fun i hi => by
    obtain ⟨n, hn, rfl⟩ := List.mem_map.1 hi
    exact List.mem_range.2 (h n hn)
  have hlen := (hu'.subperm hs).length_le
  rwa [List.length_map, List.length_range] at hlen

theorem Forest.fits_below (h : v.Forest) (hn : n.index < v.nodes.size)
    (above : List (Ref .node)) (ha : ∀ a ∈ above, a.index < v.nodes.size ∧ v.Under n a)
    (hu : above.Nodup) (hd : v.nodes.size + 1 ≤ above.length + d) : v.Fits d n := by
  have hself : (n :: above).Nodup :=
    List.nodup_cons.2 ⟨fun hm => h.acyclic n (ha n hm).2, hu⟩
  have hlen : (n :: above).length ≤ v.nodes.size :=
    length_le_of_nodup hself fun a hm => by
      obtain rfl | hm := List.mem_cons.1 hm
      · exact hn
      · exact (ha a hm).1
  rw [List.length_cons] at hlen
  induction d generalizing n above with
  | zero => omega
  | succ d ih =>
    refine fun _ => ⟨by omega, fun c hc => ?_⟩
    have hc' : v.Under c n := .single hc
    have hb : ∀ a ∈ n :: above, a.index < v.nodes.size ∧ v.Under c a := fun a hm => by
      obtain rfl | hm := List.mem_cons.1 hm
      · exact ⟨hn, hc'⟩
      · exact ⟨(ha a hm).1, hc'.trans (ha a hm).2⟩
    have hself' : (c :: n :: above).Nodup :=
      List.nodup_cons.2 ⟨fun hm => h.acyclic c (hb c hm).2, hself⟩
    refine ih (h.made n c hc) (n :: above) hb hself (by rw [List.length_cons]; omega) hself' ?_
    refine length_le_of_nodup hself' fun a hm => ?_
    obtain rfl | hm := List.mem_cons.1 hm
    · exact h.made n a hc
    · exact (hb a hm).1

theorem Forest.fits (h : v.Forest) (hn : n.index < v.nodes.size) : v.Fits (v.nodes.size + 1) n :=
  h.fits_below hn [] (fun _ hm => nomatch hm) .nil (by rw [List.length_nil]; omega)

end Depth

end ViewBinding.View
