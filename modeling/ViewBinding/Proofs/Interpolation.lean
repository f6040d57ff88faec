import ViewBinding.Proofs.FanOut
import ViewBinding.Proofs.Nodes

/-! Interpolated text nodes, and when a write leaves one with the text that a full render gives. -/

namespace ViewBinding

variable {w w' w'' : World} {f : Frame} {n k : Nat} {L : List Subscriber} {m : Ref .model}
  {node : Ref .node} {t : Template} {s : String}

/-- Whether a watcher keeps a node up to date with one of the spans of a template. -/
def World.IsSpan (w : World) (m : Ref .model) (node : Ref .node) (t : Template) (r : Ref .watcher) :
    Prop :=
  (w.watchers.get r).model = m ∧ (w.watchers.get r).callback = .render node t

/-- Whether nobody who takes a turn writes a text node, but for those that keep it up to date. -/
def Sparing (e : Engine) (m : Ref .model) (node : Ref .node) (t : Template) :
    List Subscriber → World → Prop
  | [], _ => True
  | s :: rest, w =>
    ((∃ r, s = .watcher r ∧ w.IsSpan m node t r) ∨ ∀ p, s.update e w = some p →
      (p.2.view.node node).sort = (w.view.node node).sort ∧
        (p.2.view.node node).text = (w.view.node node).text) ∧
    ∀ p, s.update e w = some p → Sparing e m node t rest (World.afterTurn s p)

def Shows (written : Prop) (s before after : String) : Prop :=
  written ∧ after = s ∨ ¬written ∧ after = before

theorem Shows.trans {P Q : Prop} {a b c : String} (h : Shows P s a b) (h' : Shows Q s b c) :
    Shows (P ∨ Q) s a c := by
  obtain ⟨hq, rfl⟩ | ⟨hq, rfl⟩ := h'
  · exact .inl ⟨.inr hq, rfl⟩
  · exact h.imp (And.imp_left .inl) (And.imp_left fun hp => not_or.2 ⟨hp, hq⟩)

theorem Shows.congr {P Q : Prop} {a b : String} (h : Shows P s a b) (e : P ↔ Q) :
    Shows Q s a b := by
  rwa [← propext e]

/-- Whether one of the watchers that fired keeps a node up to date. -/
def SpanFired (m : Ref .model) (node : Ref .node) (t : Template) (w : World)
    (fs : List (Ref .watcher × Change)) : Prop :=
  ∃ r c, (r, c) ∈ fs ∧ w.IsSpan m node t r

theorem World.IsSpan.turn {r : Ref .watcher} (h : w.IsSpan m node t r) (hw : w.Valid)
    (hr : r.index < w.watchers.size) {p : Except Fault Unit × World}
    (hp : Subscriber.update (Engine.ofFuel n) (.watcher r) w = some p)
    (hnode : (w.view.node node).sort = .text) {S : List Subscriber} (hi : w.Idle S w')
    (hw' : w'.Valid)
    {ms : List Mark} (hl : (t.look w'.sight (w'.sight.compute k) m).run = some (.ok s, ms)) :
    (p.2.view.node node).sort = .text ∧
      Shows (SpanFired m node t w (Subscriber.fires (Engine.ofFuel n) (.watcher r) w)) s
        (w.view.node node).text (p.2.view.node node).text := by
  obtain ⟨hst, -, hview, -⟩ | ⟨new, w₁, ms₁, q, hst, -, -, hi₁, hsight, hview, hq, he⟩ :=
    Watcher.update_cases hw hr hp
  · rw [hview]
    refine ⟨hnode, .inr ⟨fun ⟨_, _, hc, _⟩ => ?_, rfl⟩⟩
    rw [Subscriber.fires, hst] at hc
    cases hc
  · have hm := Watcher.modelAlive_of_starts hst
    have hvalid := Watcher.valid_of_starts hw hr hst
    rw [h.1] at hm hi₁ hq he
    have hlt := hw.lt_of_modelAlive hm
    have hm₁ : w₁.modelAlive m :=
      (hi₁.modelAlive hlt).2 ((World.modelAlive_useModel hm m).2 hm)
    rw [h.2, Callback.render_apply, if_pos hm₁, Option.map_eq_some_iff] at hq
    obtain ⟨⟨res, w₂⟩, hren, rfl⟩ := hq
    have hsteady : w₁.sight.Steady := hvalid.tracked.steady
    obtain ⟨⟨ms₂, hlook⟩, es, rfl⟩ := (t.render_sees m).eq_some
      (w := w₁.tell (.called r (.render node t) { new, old := (w.watchers.get r).value }))
      hsteady hren
    replace hlook : (t.look w₁.sight (w₁.sight.compute n) m).run = some (res, ms₂) := hlook
    rw [hsight] at hlook
    -- What the callback renders is what can be rendered after all turns, as they leave the data
    -- alone.
    have hlasts := Template.look_lasts (hi.later hw)
      (fun p hp => Sight.compute_lasts (hi.later hw) hw.tracked (Nat.le_refl n) hp) hm t
    have hlook' := hi.look hw hlasts (Template.look_within hw hlt t) hlook
    cases Template.look_unique hw' ((hi.modelAlive hlt).2 hm) hlook' hl
    have hnode₁ : (w₁.view.node node).sort = .text := by rwa [hview]
    obtain ⟨hsort, htext⟩ := View.node_write_text hnode₁ s
    rw [he]
    have hfires : (r, { new, old := (w.watchers.get r).value }) ∈
        Subscriber.fires (Engine.ofFuel n) (.watcher r) w := by
      rw [Subscriber.fires, hst]
      exact List.mem_singleton_self _
    exact ⟨hsort, .inl ⟨⟨r, _, hfires, h⟩, htext⟩⟩

theorem SpanFired.append (fs gs : List (Ref .watcher × Change)) :
    SpanFired m node t w fs ∨ SpanFired m node t w gs ↔ SpanFired m node t w (fs ++ gs) := by
  simp only [SpanFired, List.mem_append, or_and_right, exists_or]

theorem SpanFired.idle {S : List Subscriber} (hi : w.Idle S w') {fs : List (Ref .watcher × Change)}
    (hfs : ∀ r c, (r, c) ∈ fs → r.index < w.watchers.size) :
    SpanFired m node t w' fs ↔ SpanFired m node t w fs := by
  refine exists_congr fun r => exists_congr fun c => and_congr_right fun h => ?_
  rw [World.IsSpan, World.IsSpan, hi.model r (hfs r c h), hi.callback r (hfs r c h)]

/-- If nobody else writes a text node that can be rendered after the turns, it shows that if one of
the watchers of its spans fired, and else what it showed before. -/
theorem Sparing.shows (hsp : Sparing (Engine.ofFuel n) m node t L w)
    (hc : CalmTurns (Engine.ofFuel n) L w) (hw : w.Valid) (hs : ∀ s ∈ L, s.Made w)
    {j : Except Fault Nat}
    (h : updateEach (Subscriber.update (Engine.ofFuel n)) L w = some (j, w'))
    (hnode : (w.view.node node).sort = .text) {ms : List Mark}
    (hl : (t.look w'.sight (w'.sight.compute k) m).run = some (.ok s, ms)) :
    (w'.view.node node).sort = .text ∧
      Shows (SpanFired m node t w (fired (Engine.ofFuel n) L w)) s
        (w.view.node node).text (w'.view.node node).text := by
  have hu := Subscriber.update_settling (Engine.calls n)
  have hw' := (updateEach_passes hu hw hs h).1.valid
  induction L generalizing w j with
  | nil =>
    cases h
    exact ⟨hnode, .inr ⟨fun ⟨_, _, h, _⟩ => (nomatch h), rfl⟩⟩
  | cons x rest ih =>
    have hall := hc.idle hw hs h
    obtain ⟨p, j', hp, hj, -⟩ := updateEach_cons_eq_some h
    have hmade := hs x List.mem_cons_self
    have hi := hc.1.idle hw hmade hp
    have hpass := (hu.turn hw hmade hp).1
    have hview : (World.afterTurn x p).view = p.2.view := by
      obtain ⟨_ | _, w₁⟩ := p <;> rfl
    have hturn : (p.2.view.node node).sort = .text ∧
        Shows (SpanFired m node t w (x.fires (Engine.ofFuel n) w)) s
          (w.view.node node).text (p.2.view.node node).text := by
      -- Whoever is not a watcher of a span spares the node.
      by_cases hx : ∃ r, x = .watcher r ∧ w.IsSpan m node t r
      · obtain ⟨r, rfl, hr⟩ := hx
        exact hr.turn hw hmade hp hnode hall hw' hl
      · obtain ⟨hsort, ht⟩ := (hsp.1.resolve_left hx) p hp
        refine ⟨hsort.trans hnode, .inr ⟨fun ⟨r, c, h, hr⟩ => hx ⟨r, ?_, hr⟩, ht⟩⟩
        exact Subscriber.eq_of_mem_fires h
    rw [← hview] at hturn
    obtain ⟨hsort, hrest⟩ := ih (hsp.2 p hp) (hc.2 p hp) hpass.valid
      (fun y hy => (hs y (List.mem_cons_of_mem x hy)).passes hpass) hj hturn.1
    refine ⟨hsort, (hturn.2.trans hrest).congr ?_⟩
    rw [fired_cons hp, ← SpanFired.append, SpanFired.idle hi fun r c hr =>
      hs _ (List.mem_cons_of_mem x (mem_of_fired hr))]

theorem Shows.eq_iff {P : Prop} {a b : String} (h : Shows P s a b) : b = s ↔ P ∨ a = s := by
  obtain ⟨hp, rfl⟩ | ⟨hp, rfl⟩ := h
  · exact ⟨fun _ => .inl hp, fun _ => rfl⟩
  · exact ⟨.inr, fun h => h.resolve_left hp⟩

/-- Whether nobody whom a write updates writes a text node, but for those that keep it up to date.
-/
def Site.Spares (e : Engine) (v : Value) (site : Site) (m : Ref .model) (node : Ref .node)
    (t : Template) (w : World) : Prop :=
  ∀ source w', site.find e.compute w = some (source, w') → w'.changes source v →
    Sparing e m node t (w'.due source) (w'.turns source v)

theorem Site.write_shows {v : Value} (hq : w.Quiet) (hv : v.Within w.objects.size) {site : Site}
    (hc : site.Calm (Engine.ofFuel n) v w) (hsp : site.Spares (Engine.ofFuel n) v m node t w)
    {res : Except Fault Bool} (hw : site.write (Engine.ofFuel n) v w = some (res, w'))
    (hnode : (w.view.node node).sort = .text)
    (hr : t.render (Engine.ofFuel k).compute m w' = some (.ok s, w'')) :
    (w'.view.node node).sort = .text ∧
      Shows (SpanFired m node t w (site.fired (Engine.ofFuel n) v w)) s
        (w.view.node node).text (w'.view.node node).text := by
  have none : ¬SpanFired m node t w [] := fun ⟨_, _, h, _⟩ => nomatch h
  obtain ⟨hn, -, es, rfl⟩ | ⟨source, es, hs, hdone⟩ := write_written hq.valid hw
  · rw [fired, hn]
    exact ⟨hnode, .inr ⟨none, rfl⟩⟩
  have hq' : World.Quiet { w with trace := es } :=
    ((World.Noted.trace w es).onward hq.valid).quiet hq
  rw [fired, hs]
  dsimp only
  by_cases hch : World.changes { w with trace := es } source v
  · rw [if_pos hch]
    obtain ⟨-, j, w₁, hj, es', rfl⟩ := hdone.traced hch
    have hp := World.passes_turns hq'.valid (find_writable hs) hv
    have hmade (s : Subscriber) (hs : s ∈ World.due { w with trace := es } source) :
        s.Made (World.turns { w with trace := es } source v) :=
      (hq'.valid.made_of_alive (World.alive_of_mem_due hs)).passes hp
    have hw₁ :=
      (updateEach_passes (Subscriber.update_settling (Engine.calls n)) hp.valid hmade hj).1.valid
    obtain ⟨⟨ms, hl⟩, -⟩ := (t.render_sees m).eq_some (w := { w₁ with trace := es' })
      ((World.Noted.trace w₁ es').valid hw₁).tracked.steady hr
    have hview : (World.turns { w with trace := es } source v).view = w.view := by
      cases source <;> rfl
    have h := (hsp _ _ hs hch).shows (hc _ _ hs hch) hp.valid hmade hj (by rwa [hview]) hl
    rw [hview] at h
    refine h.imp_right fun h => h.congr ?_
    simp only [SpanFired, World.IsSpan, World.watchers_turns]
  · rw [if_neg hch]
    obtain ⟨-, rfl⟩ := hdone.same hch
    exact ⟨hnode, .inr ⟨none, rfl⟩⟩

/-- From any moment of a run, if what it starts leaves the data and the node alone, a write after
which an interpolated text node can be rendered in full leaves the node with just that text if and
only if one of its spans has been seen to change, or the node had that text before. -/
theorem Moment.text_eq_render_iff (h : Moment f w) {v : Value} (hv : v.Within w.objects.size)
    {site : Site} (hc : site.Calm (Engine.ofFuel n) v w)
    (hsp : site.Spares (Engine.ofFuel n) v m node t w) {res : Except Fault Bool}
    (hw : site.write (Engine.ofFuel n) v w = some (res, w'))
    (hnode : (w.view.node node).sort = .text)
    (hr : t.render (Engine.ofFuel k).compute m w' = some (.ok s, w'')) :
    w'.view.text node = s ↔
      SpanFired m node t w (site.fired (Engine.ofFuel n) v w) ∨ w.view.text node = s := by
  obtain ⟨hnode', hshows⟩ := Site.write_shows h.quiet hv hc hsp hw hnode hr
  rw [View.text_of_sort hnode, View.text_of_sort hnode']
  exact hshows.eq_iff

def paragraph : List Markup :=
  [.element "p" [] [.text "\x7b\x7b a \x7d\x7d \x7b\x7b b.y \x7d\x7d"]]

def paragraphTemplate : Template := ⟨[.path "a", .literal " ", .path "b.y"]⟩

def mountParagraph : Step :=
  .mount none (.node 1)
    (some (.data (.object [("a", .string "1"), ("b", .object [("y", .string "2")])]))) [] [] {}

def Callback.renders (node : Ref .node) (t : Template) : Callback → Bool
  | .render n t' => n == node && t' == t
  | _ => false

theorem Callback.eq_of_renders {callback : Callback} (h : callback.renders node t) :
    callback = .render node t := by
  cases callback with
  | render n t' => simpa [renders] using h
  | _ => cases h

theorem Moment.text_eq_render_iff_paragraph : ∃ (w w' w'' : World) (v : Value) (site : Site)
    (res : Except Fault Bool) (s : String), Moment {} w ∧ v.Within w.objects.size ∧
      site.Calm (Engine.ofFuel 4) v w ∧
      site.Spares (Engine.ofFuel 4) v ⟨0⟩ ⟨0⟩ paragraphTemplate w ∧
      site.write (Engine.ofFuel 4) v w = some (res, w') ∧ (w.view.node ⟨0⟩).sort = .text ∧
      paragraphTemplate.render (Engine.ofFuel 4).compute ⟨0⟩ w' = some (.ok s, w'') ∧
      (w'.view.text ⟨0⟩ = s ↔ SpanFired ⟨0⟩ ⟨0⟩ paragraphTemplate w
        (site.fired (Engine.ofFuel 4) v w) ∨ w.view.text ⟨0⟩ = s) := by
  let site : Site := .cell ⟨0⟩
  let v : Value := .string "5"
  obtain ⟨w, h, hc⟩ := Moment.exists_of_run 4 paragraph [mountParagraph]
    (fun w => w.due (.cell ⟨0⟩) == [.watcher ⟨0⟩] && 0 < w.watchers.size &&
      (w.watchers.get ⟨0⟩).model == ⟨0⟩ &&
      (w.watchers.get ⟨0⟩).callback.renders ⟨0⟩ paragraphTemplate &&
      (w.view.node ⟨0⟩).sort == .text && (site.write (Engine.ofFuel 4) v w).any fun p =>
        (paragraphTemplate.render (Engine.ofFuel 4).compute ⟨0⟩ p.2).any (·.1.isOk))
    (by simp [mountParagraph, Step.AllPlain, Step.Plain, Step.PlainMethods, Expr.IsOwn])
    (by decide +kernel)
  simp only [Bool.and_eq_true, Option.any_eq_true, beq_iff_eq, decide_eq_true_eq] at hc
  obtain ⟨⟨⟨⟨⟨hd, hsize⟩, hm⟩, hcb⟩, hnode⟩, ⟨res, w'⟩, hw, ⟨_ | s, w''⟩, hr, hok⟩ := hc
  · cases hok
  have hv : v.Within w.objects.size := Value.within_of_object? rfl
  have hspan : w.IsSpan ⟨0⟩ ⟨0⟩ paragraphTemplate ⟨0⟩ := ⟨hm, Callback.eq_of_renders hcb⟩
  have hcalm : site.Calm (Engine.ofFuel 4) v w := by
    rintro source w₁ hs -
    cases hs
    rw [hd]
    have hwritable : w.Writable (.cell ⟨0⟩) := trivial
    refine .of_idles (World.passes_turns h.quiet.valid hwritable hv).valid ?_
    rintro x hx
    cases List.mem_singleton.1 hx
    exact ⟨⟨0⟩, rfl, hsize, fun id steps h => by cases h.symm.trans hspan.2⟩
  have hspares : site.Spares (Engine.ofFuel 4) v ⟨0⟩ ⟨0⟩ paragraphTemplate w := by
    rintro source w₁ hs -
    cases hs
    rw [hd]
    exact ⟨.inl ⟨⟨0⟩, rfl, hspan⟩, fun _ _ => trivial⟩
  exact ⟨w, w', w'', v, site, res, s, h, hv, hcalm, hspares, hw, hnode, hr,
    h.text_eq_render_iff hv hcalm hspares hw hnode hr⟩

/-- A write that one span sees fails to be shown because of the other, and is not shown later
either. -/
theorem stale_paragraph : ∃ w w' : World, Moment {} w ∧ w.modelAlive ⟨0⟩ ∧
    w.IsSpan ⟨0⟩ ⟨0⟩ paragraphTemplate ⟨0⟩ ∧ w.IsSpan ⟨0⟩ ⟨0⟩ paragraphTemplate ⟨1⟩ ∧
    paragraphTemplate.render (Engine.ofFuel 4).compute ⟨0⟩ w = some (.ok "5 2", w') ∧
    w.view.text ⟨0⟩ = "1 2" := by
  obtain ⟨w, h, hc⟩ := Moment.exists_of_run 4 paragraph
    [mountParagraph, .write none "b" (.data .null), .write none "a" (.data (.string "5")),
      .write none "b" (.data (.object [("y", .string "2")]))]
    (fun w => w.modelAlive ⟨0⟩ && (w.watchers.get ⟨0⟩).model == ⟨0⟩ &&
      (w.watchers.get ⟨0⟩).callback.renders ⟨0⟩ paragraphTemplate &&
      (w.watchers.get ⟨1⟩).model == ⟨0⟩ &&
      (w.watchers.get ⟨1⟩).callback.renders ⟨0⟩ paragraphTemplate &&
      w.view.text ⟨0⟩ == "1 2" &&
      (paragraphTemplate.render (Engine.ofFuel 4).compute ⟨0⟩ w).any (·.1.toOption == some "5 2"))
    (by simp [mountParagraph, Step.AllPlain, Step.Plain, Step.PlainMethods, Expr.IsOwn])
    (by decide +kernel)
  simp only [Bool.and_eq_true, Option.any_eq_true, beq_iff_eq] at hc
  obtain ⟨⟨⟨⟨⟨⟨hm, hm0⟩, hc0⟩, hm1⟩, hc1⟩, ht⟩, ⟨_ | s, w'⟩, hr, hs⟩ := hc
  · cases hs
  · cases hs
    exact ⟨w, w', h, hm, ⟨hm0, Callback.eq_of_renders hc0⟩,
      ⟨hm1, Callback.eq_of_renders hc1⟩, hr, ht⟩

end ViewBinding
