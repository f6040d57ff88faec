import Mathlib.Logic.Relation
import ViewBinding.Proofs.Mirrors.Displays
import ViewBinding.Proofs.Course.Laws

/-! What is done to the view in a run, in small strokes. A node whose face one binding shows, and
which nothing else touches, shows between two strokes what the watcher of the binding saw last. -/

namespace ViewBinding

variable {face : Face} {n k : Ref .node} {ns : List (Ref .node)} {r r' : Ref .watcher}
  {s : Step} {v v' : View} {w w' w'' : World} {P : Step → Prop}

def Callback.shows? : Callback → Option (Face × Ref .node)
  | .run _ _ => none
  | .write face n => some (face, n)
  | .render n _ => some (.text, n)

namespace Step

/-- Steps that may change a face of a node by themselves: somebody types into it or writes it, or
takes its children off or gives it others. -/
def Touches (face : Face) (n : Ref .node) : Step → Prop
  | .input k _ => face = .value ∧ n = ⟨k⟩
  | .setValue k _ => face = .value ∧ n = ⟨k⟩
  | .setText k _ => face = .text ∧ n = ⟨k⟩
  | .detach k => face = .text ∧ n = ⟨k⟩
  | .append k children => face = .text ∧ (n = ⟨k⟩ ∨ n ∈ children.map Ref.mk)
  | .compile _ k _ => face = .text ∧ n = ⟨k⟩
  | .mount _ (.node k) _ _ _ _ => face = .text ∧ n = ⟨k⟩
  | .mount _ (.selector _) _ _ _ _ => face = .text
  | _ => False

/-- Steps that may bind everything below a node. -/
def BindsBelow (n : Ref .node) : Step → Prop
  | .compile _ k _ => n = ⟨k⟩
  | .mount _ (.node k) _ _ _ _ => n = ⟨k⟩
  | .mount _ (.selector _) _ _ _ _ => True
  | _ => False

theorem BindsBelow.not_mem (h : s.BindsBelow k) (hs : ∀ m ∈ ns, ¬s.Touches face m)
    (ht : face = .text) : k ∉ ns := by
  intro hk
  refine hs k hk ?_
  cases s with
  | compile => exact ⟨ht, h⟩
  | mount _ target =>
    cases target with
    | node => exact ⟨ht, h⟩
    | selector => exact ht
  | _ => cases h

/-- What a step changes that does not touch a face leaves it alone. -/
theorem Edits.avoids {text : String} (h : Edits v s v') (hs : ∀ m ∈ ns, ¬s.Touches face m)
    (hd : v.Displays face ns text) : v.Avoids face ns v' := by
  cases h with
  | create markup => exact (View.Avoids.create markup hd.lt).1
  | typed k text =>
    refine .modify v _ _ (fun hk node => ?_) fun _ => rfl
    cases face with
    | text => exact ⟨rfl, rfl, rfl⟩
    | value => exact absurd ⟨rfl, rfl⟩ (hs _ hk)
    | html => rfl
  | setText k text => exact .write hd (fun e hk => hs _ hk ⟨e.symm, rfl⟩) text
  | setValue k text => exact .write hd (fun e hk => hs _ hk ⟨e.symm, rfl⟩) text
  | detach k => exact .detach v fun e hk => hs _ hk ⟨e, rfl⟩
  | append k children =>
    refine .append v (fun e hk => hs _ hk ⟨e, .inl rfl⟩) fun m hm hc => ?_
    cases hd with
    | text => exact hs m (List.mem_of_mem_tail hm) ⟨rfl, .inr hc⟩
    | value => nomatch hm
    | html => nomatch hm

end Step

namespace World

/-- A change after which there may be more watchers, some of them kept by view-models, but those
that were there are as they were. -/
structure Extends (w w' : World) : Prop where
  size : w.watchers.size ≤ w'.watchers.size
  watcher : ∀ r, r.index < w.watchers.size → w'.watchers.get r = w.watchers.get r
  models : w.models.size ≤ w'.models.size
  kept : ∀ m, ∀ r ∈ (w.models.get m).watchers, r ∈ (w'.models.get m).watchers

theorem Extends.of_same (hw : w'.watchers = w.watchers) (hm : w'.models = w.models) :
    w.Extends w' where
  size := Nat.le_of_eq (by rw [hw])
  watcher r _ := by rw [hw]
  models := Nat.le_of_eq (by rw [hm])
  kept m r hr := by rwa [hm]

/-- The least that bindings do to the view, and everything that leaves it alone. -/
inductive Dab (w : World) : World → Prop
  | still {w' : World} : w'.view = w.view → w.Extends w' → Dab w w'
  /-- A watcher sees something new, and its callback begins. -/
  | call (r : Ref .watcher) (new : Value) :
      Dab w ((w.remember r new).startCallback r (w.watchers.get r).model
        { new, old := (w.watchers.get r).value } (w.watchers.get r).callback)
  /-- A binding shows what its watcher saw. -/
  | write {r : Ref .watcher} {face : Face} {n : Ref .node} :
      (w.watchers.get r).callback = .write face n →
      Dab w { w.tell (.wrote (w.watchers.get r).model face n (w.watchers.get r).value.text) with
        view := w.view.write face n (w.watchers.get r).value.text }
  /-- A binding shows what its template renders. -/
  | render {r : Ref .watcher} {n : Ref .node} {t : Template} (text : String) :
      (w.watchers.get r).callback = .render n t →
      Dab w { w.tell (.wrote (w.watchers.get r).model .text n text) with
        view := w.view.write .text n text }
  | listen (l : Listener) (n : Ref .node) :
      Dab w { w.emit (.listen n l.event) with view := w.view.listen n l }

abbrev Dabs : World → World → Prop := Relation.ReflTransGen Dab

/-- A single thing that is done to the view in a run whose steps all meet a condition. What is below
a node is off it while it is bound, and is put back in the end. -/
inductive Stroke (P : Step → Prop) (w : World) : World → Prop
  | dab {w' : World} : w.Dab w' → Stroke P w w'
  | edit {s : Step} {v : View} : P s → s.Edits w.view v → Stroke P w { w with view := v }
  | lift {s : Step} {n : Ref .node} : P s → s.BindsBelow n →
      Stroke P w { w with view := (w.view.detach n).2 }
  | bind {s : Step} {n : Ref .node} {w' : World} : P s → s.BindsBelow n →
      Dabs { w with view := (w.view.detach n).2 } w' →
      Stroke P w { w' with view := w'.view.append n (w.view.children n) }

/-- All that is done to the view in a part of a run whose steps all meet a condition. -/
abbrev Strokes (P : Step → Prop) : World → World → Prop := Relation.ReflTransGen (Stroke P)

/-- Whether no watcher but one shows anything on some nodes as their face. -/
def Sole (w : World) (r : Ref .watcher) (face : Face) (ns : List (Ref .node)) : Prop :=
  ∀ r', r' ≠ r → ∀ n ∈ ns, (w.watchers.get r').callback.shows? ≠ some (face, n)

/-- A binding of a face of a node: a watcher that its view-model keeps, and nodes that hold what the
node shows, which is what the watcher saw last unless another binding shows something there too. -/
structure Presents (w : World) (r : Ref .watcher) (face : Face) (n : Ref .node)
    (ns : List (Ref .node)) : Prop where
  made : r.index < w.watchers.size
  callback : (w.watchers.get r).callback = .write face n
  kept : r ∈ (w.models.get (w.watchers.get r).model).watchers
  displays : ∃ text, w.view.Displays face (n :: ns) text ∧
    (w.Sole r face (n :: ns) → text = (w.watchers.get r).value.text)

theorem Dab.watcher (h : w.Dab w') (hr : r.index < w.watchers.size) :
    r.index < w'.watchers.size ∧ (w'.watchers.get r).callback = (w.watchers.get r).callback ∧
      (w'.watchers.get r).model = (w.watchers.get r).model := by
  cases h with
  | still _ h =>
    exact ⟨Nat.lt_of_lt_of_le hr h.size, by rw [h.watcher r hr], by rw [h.watcher r hr]⟩
  | call r' new =>
    rw [startCallback_watchers, size_remember, callback_remember, model_remember]
    exact ⟨hr, rfl, rfl⟩
  | _ => exact ⟨hr, rfl, rfl⟩

theorem models_startCallback (w : World) (r : Ref .watcher) (m : Ref .model) (change : Change)
    (callback : Callback) : (w.startCallback r m change callback).models = w.models := by
  cases callback <;> rfl

theorem Dab.kept (h : w.Dab w') (m : Ref .model) (hr : r ∈ (w.models.get m).watchers) :
    r ∈ (w'.models.get m).watchers := by
  cases h with
  | still _ h => exact h.kept m r hr
  | call r' new =>
    rw [models_startCallback]
    exact hr
  | _ => exact hr

theorem Dab.models (h : w.Dab w') : w.models.size ≤ w'.models.size := by
  cases h with
  | still _ h => exact h.models
  | call r' new =>
    rw [models_startCallback]
    exact Nat.le_refl _
  | _ => exact Nat.le_refl _

theorem Dab.sort (h : w.Dab w') (hn : n.index < w.view.nodes.size) :
    n.index < w'.view.nodes.size ∧ (w'.view.node n).sort = (w.view.node n).sort := by
  have write (face : Face) (k : Ref .node) (text : String) :
      n.index < (w.view.write face k text).nodes.size ∧
        ((w.view.write face k text).node n).sort = (w.view.node n).sort :=
    ⟨Nat.lt_of_lt_of_le hn (w.view.size_write ..), View.sort_write hn face k text⟩
  cases h with
  | still hv =>
    rw [hv]
    exact ⟨hn, rfl⟩
  | call r' new =>
    generalize (w.watchers.get r').callback = callback
    cases callback with
    | write face k => exact write face k _
    | _ => exact ⟨hn, rfl⟩
  | write => exact write _ _ _
  | render => exact write _ _ _
  | listen l k =>
    exact ⟨Nat.lt_of_lt_of_eq hn (View.size_modify ..).symm, View.sort_modify _ k n fun _ => rfl⟩

namespace Dabs

theorem watcher (h : w.Dabs w') (hr : r.index < w.watchers.size) : r.index < w'.watchers.size ∧
    (w'.watchers.get r).callback = (w.watchers.get r).callback ∧
      (w'.watchers.get r).model = (w.watchers.get r).model := by
  induction h with
  | refl => exact ⟨hr, rfl, rfl⟩
  | tail _ h ih =>
    obtain ⟨hr', hc, hm⟩ := h.watcher ih.1
    exact ⟨hr', hc.trans ih.2.1, hm.trans ih.2.2⟩

theorem models (h : w.Dabs w') : w.models.size ≤ w'.models.size := by
  induction h with
  | refl => exact Nat.le_refl _
  | tail _ h ih => exact Nat.le_trans ih h.models

theorem sort (h : w.Dabs w') (hn : n.index < w.view.nodes.size) :
    n.index < w'.view.nodes.size ∧ (w'.view.node n).sort = (w.view.node n).sort := by
  induction h with
  | refl => exact ⟨hn, rfl⟩
  | tail _ h ih =>
    obtain ⟨hn', hs⟩ := h.sort ih.1
    exact ⟨hn', hs.trans ih.2⟩

theorem of_strokes (h : w.Strokes (fun _ => False) w') : w.Dabs w' := by
  induction h with
  | refl => exact .refl
  | tail _ h ih =>
    cases h with
    | dab h => exact ih.tail h
    | edit h => exact h.elim
    | lift h => exact h.elim
    | bind h => exact h.elim

end Dabs

theorem made_of_shows (h : (w.watchers.get r).callback.shows? ≠ none) :
    r.index < w.watchers.size := by
  by_contra hr
  rw [Store.get_of_size_le _ (Nat.le_of_not_lt hr)] at h
  exact h rfl

theorem Dab.sole (h : w.Dab w') (hs : w'.Sole r face ns) : w.Sole r face ns := by
  intro r' hne n hn hc
  have hr' : r'.index < w.watchers.size := made_of_shows (by rw [hc]; exact Option.some_ne_none _)
  refine hs r' hne n hn ?_
  rw [(h.watcher hr').2.1, hc]

namespace Presents

theorem view_dab (hb : w.Presents r face n ns) (h : w.Dab w') : ∃ text,
    w'.view.Displays face (n :: ns) text ∧
      (w'.Sole r face (n :: ns) → text = (w'.watchers.get r).value.text) := by
  obtain ⟨text, hd, ht⟩ := hb.displays
  cases h with
  | still hview h =>
    refine ⟨text, hview ▸ hd, fun hs => ?_⟩
    rw [h.watcher r hb.made]
    exact ht (Dab.sole (.still hview h) hs)
  | call r' new =>
    have hw := startCallback_watchers (w.remember r' new) r' (w.watchers.get r').model
      { new, old := (w.watchers.get r').value } (w.watchers.get r').callback
    have hsole : Sole _ r face (n :: ns) → w.Sole r face (n :: ns) := Dab.sole (.call r' new)
    by_cases e : r' = r
    · subst e
      rw [hb.callback] at hw ⊢
      refine ⟨_, hd.write face n new.text, fun _ => ?_⟩
      rw [if_pos ⟨rfl, List.mem_cons_self⟩, hw, value_remember_self w hb.made]
    · -- Somebody else is called, who shows nothing here if the binding is alone.
      have hvalue : (((w.remember r' new).startCallback r' (w.watchers.get r').model
          { new, old := (w.watchers.get r').value } (w.watchers.get r').callback).watchers.get
            r).value = (w.watchers.get r).value := by
        rw [hw, remember, Store.get_modify_of_ne _ _ e]
      rw [hvalue]
      cases hc : (w.watchers.get r').callback with
      | write face' n' =>
        refine ⟨_, hd.write face' n' new.text, fun hs => ?_⟩
        rw [hc] at hsole
        rw [if_neg, ht (hsole hs)]
        rintro ⟨rfl, hn'⟩
        exact hsole hs r' e n' hn' (by rw [hc]; rfl)
      | run id steps =>
        rw [hc] at hsole
        exact ⟨text, hd, fun hs => ht (hsole hs)⟩
      | render n' t =>
        rw [hc] at hsole
        exact ⟨text, hd, fun hs => ht (hsole hs)⟩
  | @write r' face' n' hc =>
    refine ⟨_, hd.write face' n' _, fun (hs : w.Sole r face (n :: ns)) => ?_⟩
    split
    · rename_i hn
      by_cases e : r' = r
      · exact congrArg (fun r => (w.watchers.get r).value.text) e
      · exact absurd (by rw [hc, ← hn.1]; rfl) (hs r' e n' hn.2)
    · exact ht hs
  | @render r' n' t shown hc =>
    refine ⟨_, hd.write .text n' shown, fun (hs : w.Sole r face (n :: ns)) => ?_⟩
    rw [if_neg]
    · exact ht hs
    · rintro ⟨rfl, hn⟩
      by_cases e : r' = r
      · rw [e, hb.callback] at hc
        cases hc
      · exact hs r' e n' hn (by rw [hc]; rfl)
  | listen l k => exact ⟨text, hd.avoids (.listen _ k l), ht⟩

theorem dab (hb : w.Presents r face n ns) (h : w.Dab w') : w'.Presents r face n ns := by
  obtain ⟨hr, hc, hm⟩ := h.watcher hb.made
  refine ⟨hr, hc.trans hb.callback, ?_, hb.view_dab h⟩
  rw [hm]
  exact h.kept _ hb.kept

theorem dabs (hb : w.Presents r face n ns) (h : w.Dabs w') : w'.Presents r face n ns := by
  induction h with
  | refl => exact hb
  | tail _ h ih => exact ih.dab h

theorem avoids (hb : w.Presents r face n ns) (h : w.view.Avoids face (n :: ns) v) :
    Presents { w with view := v } r face n ns := by
  obtain ⟨text, hd, ht⟩ := hb.displays
  exact ⟨hb.made, hb.callback, hb.kept, text, hd.avoids h, ht⟩

theorem stroke (hP : ∀ s, P s → ∀ m ∈ n :: ns, ¬s.Touches face m) (hb : w.Presents r face n ns)
    (h : w.Stroke P w') : w'.Presents r face n ns := by
  obtain ⟨text, hd, -⟩ := hb.displays
  cases h with
  | dab h => exact hb.dab h
  | edit hs h => exact hb.avoids (h.avoids (hP _ hs) hd)
  | lift hs h => exact hb.avoids (.detach _ (h.not_mem (hP _ hs)))
  | @bind s k w₁ hs h hdabs =>
    have hk : face = .text → k ∉ n :: ns := h.not_mem (hP s hs)
    have hb₁ := Presents.dabs (hb.avoids (.detach _ hk)) hdabs
    refine hb₁.avoids (.append _ hk fun m hm hc => ?_)
    -- What is put back was not below the node that shows it.
    have hmem := hd.mem_of_child hm hc
    cases face with
    | text => exact hk rfl hmem
    | value =>
      cases hd
      nomatch hm
    | html =>
      cases hd
      nomatch hm

theorem strokes (hP : ∀ s, P s → ∀ m ∈ n :: ns, ¬s.Touches face m) (hb : w.Presents r face n ns)
    (h : w.Strokes P w') : w'.Presents r face n ns := by
  induction h with
  | refl => exact hb
  | tail _ h ih => exact ih.stroke hP h

/-- The node shows what the watcher of its only binding saw last. -/
theorem shown (hb : w.Presents r face n ns) (hs : w.Sole r face (n :: ns)) :
    w.view.shown face n = (w.watchers.get r).value.text := by
  obtain ⟨text, hd, ht⟩ := hb.displays
  rw [hd.eq_shown, ht hs]

end Presents

end World

end ViewBinding
