import ViewBinding.Proofs.Ripple.Typing

/-! What comes back to a node that is bound both ways when a text is typed into it. -/

namespace ViewBinding

variable {w w' W w₂ : World} {f : Frame} {k : Nat} {n : Ref .node} {m : Ref .model}
  {path s : String} {r : Ref .watcher} {o root : Ref .object} {v : Value} {source : Source}
  {p : Path} {b : Bool}

abbrev World.rootOf (w : World) (r : Ref .watcher) : Ref .object :=
  (w.models.get (w.watchers.get r).model).data

abbrev World.siteOf (w : World) (r : Ref .watcher) : Site :=
  .path (w.watchers.get r).path (w.rootOf r)

/-- The only binding of the value of a node is in use, and its path leads through plain data up to
the last property. -/
structure World.ShowsPath (w : World) (n : Ref .node) (r : Ref .watcher) (path : String) :
    Prop where
  alive : w.alive (.watcher r)
  modelAlive : w.modelAlive (w.watchers.get r).model
  binds : w.Binds n r
  parse : Path.parse path = .ok (w.watchers.get r).path
  plain : w.Finite (.object (w.rootOf r))
  route : ∃ o, w.Route (w.rootOf r) (w.watchers.get r).path.parents o

/-- A node that is bound both ways: its value has one binding, and of its listeners for input one
assigns the text to the path of that, while all others are silent. -/
structure World.BindsBothWays (w : World) (n : Ref .node) (r : Ref .watcher) (path s : String) :
    Prop extends w.ShowsPath n r path where
  hears : w.Hears n (w.watchers.get r).model path s

def Shown.setsValue (n : Ref .node) (x : Shown) : Bool := x.face == .value && x.node == n

theorem Value.agrees_string (h : v.Agrees (.string s)) : v = .string s := by
  rcases h with h | ⟨_, _, -, h, -⟩
  · cases v with
    | string t =>
      rw [show t = s from by simpa [same] using h]
    | _ => simp [same] at h
  · cases h

theorem Value.eq_string {u : Value} (h : u.string? = some s) : u = .string s := by
  cases u with
  | string t => rw [Option.some.inj h]
  | _ => cases h

theorem Value.string_agrees {u : Value} (h : (Value.string s).Agrees u) : u = .string s := by
  rcases h with h | ⟨_, _, h, -⟩
  · cases u with
    | string t => rw [show s = t from by simpa [same] using h]
    | _ => simp [same] at h
  · cases h

namespace World

theorem callback_of_mem_shows {c : Change} {x : Shown} (h : x ∈ w.shows k r c)
    (hx : x.setsValue n) : (w.watchers.get r).callback = .write .value n := by
  unfold shows at h
  split at h
  · exact absurd h List.not_mem_nil
  · rename_i face node hcb
    obtain rfl := List.mem_singleton.1 h
    simp only [Shown.setsValue, Bool.and_eq_true, beq_iff_eq] at hx
    rw [hcb, hx.1, hx.2]
  · split at h
    · obtain rfl := List.mem_singleton.1 h
      simp [Shown.setsValue] at hx
    · exact absurd h List.not_mem_nil

theorem keeps_of_not_changes (hs : w.Writable source) (hc : ¬w.changes source (.string s)) :
    source.Keeps w (.string s) := by
  cases source with
  | cell c =>
    have hsame : (w.cells.get c).value.same (.string s) := by simpa [changes] using hc
    exact Value.agrees_string (.inl hsame)
  | waiting o key => exact absurd rfl hc
  | registry r => exact hs.elim

end World

theorem Source.Keeps.kept (h : source.Keeps w v) (hw : w.Valid) (hs : source.Within w)
    (hk : ∀ other : Source, other.Kept w w') : source.Keeps w' v := by
  cases source with
  | cell c => exact (hk (.cell c) hs).trans h
  | waiting o key =>
    obtain ⟨c, hc, hv⟩ := h
    refine ⟨c, (hk (.waiting o key) hs).trans hc, ?_⟩
    exact (hk (.cell c) (hw.cell o key c hc)).trans hv
  | registry r => exact h

theorem countP_eq_one_of_nodup {α β : Type} [BEq α] [LawfulBEq α] {xs : List (α × β)} {a : α × β}
    {q : α × β → Bool} (hnd : (xs.map Prod.fst).Nodup) (ha : a ∈ xs) (hq : q a)
    (hall : ∀ x ∈ xs, q x → x.1 = a.1) : xs.countP q = 1 := by
  have hcount : xs.countP q = xs.countP fun x => x.1 == a.1 := by
    refine List.countP_congr fun x hx => ⟨fun h => beq_iff_eq.2 (hall x hx h), fun h => ?_⟩
    obtain rfl := List.inj_on_of_nodup_map hnd hx ha (beq_iff_eq.1 h)
    exact hq
  have hmem : a.1 ∈ xs.map Prod.fst := List.mem_map.2 ⟨a, ha, rfl⟩
  rw [hcount, ← List.count_eq_one_of_mem hnd hmem, List.count, List.countP_map]
  rfl

/-- In one pass the value of a node is set once, by its only binding, if the path of that has come
to lead to a new text. -/
theorem Site.SinglePass.sets_value {site : Site} {res : Except Fault Bool}
    (h : site.SinglePass k (.string s) W res w₂) (hb : W.Binds n r) (ha : W.alive (.watcher r))
    (hm : W.modelAlive (W.watchers.get r).model) (hv : w₂.Resolves k r (.string s))
    (hne : (W.watchers.get r).value ≠ .string s) :
    ((site.writes k (.string s) W w₂).map Prod.snd).countP (Shown.setsValue n) = 1 := by
  have hagrees : ¬(W.watchers.get r).value.Agrees (.string s) :=
    fun h => hne (Value.agrees_string h)
  have hmem := h.complete r .value n ha hm hb.callback k (.string s) hv hagrees
  rw [List.countP_map]
  refine countP_eq_one_of_nodup h.once hmem (by simp [Shown.setsValue]) fun x hx hq => ?_
  obtain ⟨⟨r', c⟩, -, hx⟩ := List.mem_flatMap.1 hx
  obtain ⟨y, hy, rfl⟩ := List.mem_map.1 hx
  have hcallback := World.callback_of_mem_shows hy hq
  obtain ⟨u, hu⟩ := h.paints.watchers r'
  rw [hu] at hcallback
  exact hb.only r' hcallback

section Reads

variable (compute : Computed → Reading Value) (hp : Path.parse path = .ok p)
  (h : w.Route (w.models.get m).data p.parents o)
include hp h

theorem World.Route.read (hs : w.property? o p.last = some source) :
    (ViewModel.read compute m path).once w = some (.ok (w.sight.field o p.last), w) := by
  have hlast := @World.read_of_property w o p.last compute source hs
  rw [ViewModel.read_once hp, h.resolve hlast]

theorem World.Route.read_cell {c : Ref .cell} (hs : w.slot? o p.last = some (.cell c))
    (hv : (w.cells.get c).value = v) :
    (ViewModel.read compute m path).once w = some (.ok v, w) := by
  have hproperty : w.property? o p.last = some (.cell c) := by rw [World.property?, hs]
  have hfield : w.sight.field o p.last = v := by
    rw [Sight.field, show w.sight.slot? o p.last = some (.cell c) from hs]
    exact hv
  rw [h.read compute hp hproperty, hfield]

end Reads

theorem World.resolves_of_read {j : Nat} (hp : Path.parse path = .ok (w.watchers.get r).path)
    (h : (ViewModel.read (Engine.ofFuel j).compute (w.watchers.get r).model path).once w =
      some (.ok v, w)) : w.Resolves j r v := by
  rw [ViewModel.read_once hp] at h
  exact ⟨w, h⟩

/-- What typing a text into a node that is bound both ways comes to, if all listeners succeed. It is
one write of the text to the path, in one pass, and nothing else but remarks. The text is there
then; the value of the node was set once if the text is new there, and not at all otherwise; and
when it is typed once more nothing is shown at all. -/
structure World.TypesOnce (k : Nat) (n : Ref .node) (r : Ref .watcher) (path s : String)
    (w w' : World) : Prop where
  stored : ∀ j, (ViewModel.read (Engine.ofFuel j).compute (w.watchers.get r).model path).once w' =
    some (.ok (.string s), w')
  pass : ∃ W b w₂,
    let m := (w.watchers.get r).model
    let shown := ((w.siteOf r).writes k (.string s) W w₂).map Prod.snd
    ((w.type n s).useModel m).Remarks W ∧ (w.siteOf r).SinglePass k (.string s) W (.ok b) w₂ ∧
      (w₂.releaseModel m).Remarks w' ∧ w'.shown = w.shown ++ shown ∧
      ∃ u, (∀ j, (ViewModel.read (Engine.ofFuel j).compute m path).once w = some (.ok u, w)) ∧
        shown.countP (Shown.setsValue n) = if u.string? = some s then 0 else 1
  again : ∀ j res w'', Event.input (Engine.ofFuel j) n s w' = some (res, w'') → w''.shown = w'.shown

@[simp] theorem World.useModel_models (w : World) (m : Ref .model) :
    (w.useModel m).models = w.models := rfl

theorem World.paints_type (w : World) (n : Ref .node) (s : String) : w.Paints [] (w.type n s) where
  models := rfl
  watchers r := ⟨(w.watchers.get r).value, rfl⟩
  nodes := Nat.le_of_eq (View.size_modify ..).symm
  listeners k _ := w.view.listeners_modify n k _ fun _ => rfl
  shown := (List.append_nil _).symm

/-- How typing a text goes that is assigned to the path of a watcher: remarks, the assignment, and
remarks. -/
structure World.TypedInto (k : Nat) (n : Ref .node) (r : Ref .watcher) (s : String)
    (w W : World) (b : Bool) (w₂ w' : World) : Prop where
  before : ((w.type n s).useModel (w.watchers.get r).model).Remarks W
  assigned : (w.watchers.get r).path.assign (Engine.ofFuel k).compute
    (Subscriber.update (Engine.ofFuel k)) (w.rootOf r) (.string s) W = some (.ok b, w₂)
  after : w₂.models = w.models → (w₂.releaseModel (w.watchers.get r).model).Remarks w'

theorem World.Hears.typedInto (h : w.Hears n (w.watchers.get r).model path s)
    (hm : w.modelAlive (w.watchers.get r).model)
    (hp : Path.parse path = .ok (w.watchers.get r).path)
    (hi : Event.input (Engine.ofFuel k) n s w = some (.ok (), w')) :
    ∃ W b w₂, w.TypedInto k n r s W b w₂ w' := by
  rcases h.input_cases hi with ⟨g, hg, -⟩ | ⟨w₁, res, w₃, hremarks, hassign, hend⟩
  · cases hg
  have hres : res = .ok () := by rcases hend with ⟨rfl, -⟩ | ⟨rfl, -⟩ <;> rfl
  have hm₁ : w₁.modelAlive (w.watchers.get r).model := by
    rw [show w₁.modelAlive = w.modelAlive from congrArg Sight.alive hremarks.sight]
    exact hm
  rw [Response.assign_apply, if_pos hm₁, Option.map_eq_some_iff] at hassign
  obtain ⟨⟨res', w₂⟩, hwrite, he⟩ := hassign
  obtain ⟨hres', rfl⟩ := Prod.mk.inj he
  obtain ⟨b, rfl⟩ : ∃ b, res' = .ok b := by
    cases res' with
    | error g => cases hres'.trans hres
    | ok b => exact ⟨b, rfl⟩
  have hmodels₁ : w₁.models = w.models := hremarks.paints.models
  rw [ViewModel.write_apply hp, World.useModel_models, hmodels₁] at hwrite
  refine ⟨w₁.useModel (w.watchers.get r).model, b, w₂, ?_, hwrite, fun hmodels => ?_⟩
  · obtain ⟨⟨es, rfl⟩, hs⟩ := hremarks
    exact ⟨⟨es, rfl⟩, hs⟩
  · rcases hend with ⟨-, rfl⟩ | ⟨-, hend⟩
    · exact .refl _
    · exact hend hmodels

theorem World.ShowsPath.remarks (h : w.ShowsPath n r path)
    (hr : ((w.type n s).useModel (w.watchers.get r).model).Remarks W) : W.ShowsPath n r path := by
  have halive := World.alive_useModel (w := w.type n s) h.modelAlive
  have hsight := World.sight_useModel (w := w.type n s) h.modelAlive
  obtain ⟨⟨es, rfl⟩, -⟩ := hr
  obtain ⟨ha, hma, ⟨hmade, hcallback, honly⟩, hp, hplain, o, hroute⟩ := h
  refine ⟨?_, ?_, ⟨hmade, hcallback, honly⟩, hp, hplain.of_eq rfl rfl, o, hroute.of_eq rfl rfl⟩
  · exact (congrFun halive (.watcher r)).trans ha
  · exact (congrFun (congrArg Sight.alive hsight) (w.watchers.get r).model).trans hma

theorem Moment.assign_route (h : Moment f W) (hb : W.OnlyBindings)
    (hroot : root.index < W.objects.size) (hplain : W.Finite (.object root))
    (hroute : W.Route root p.parents o)
    (hw : p.assign (Engine.ofFuel k).compute (Subscriber.update (Engine.ofFuel k)) root (.string s)
      W = some (.ok b, w₂)) :
    w₂.Route root p.parents o ∧
      (∃ c, w₂.slot? o p.last = some (.cell c) ∧ (w₂.cells.get c).value = .string s) ∧
      ∃ source, W.property? o p.last = some source ∧
        (W.sight.field o p.last = .string s →
          (Site.path p root).writes k (.string s) W w₂ = []) := by
  have hvalid := h.quiet.valid
  have hv : (Value.string s).Within W.objects.size := Value.within_of_object? rfl
  have hpass := h.single_pass hb hroot hv hw
  rcases Path.assign_cases hvalid hw with ⟨-, ⟨g, hg⟩, -⟩ | ⟨source, W', hfind, -, -⟩
  · cases hg
  have hproperty : W.property? o p.last = some source ∧ W' = W := by
    rw [hroute.find] at hfind
    obtain ⟨source', hs, he⟩ := Option.map_eq_some_iff.1 hfind
    cases he
    exact ⟨hs, rfl⟩
  obtain ⟨hs, rfl⟩ := hproperty
  have hwritten := Site.written_of_find (v := .string s) hfind
  have hfired := Site.fired_of_find (v := .string s) hfind
  have hkept (other : Source) (hne : source ≠ other) : other.Kept W' w₂ := by
    refine hpass.kept other ?_
    rw [hwritten]
    split
    · exact fun he => hne (Option.some.inj he)
    · simp
  have hkeeps : source.Keeps w₂ (.string s) := by
    by_cases hc : W'.changes source (.string s)
    · exact hpass.keeps source (by rw [hwritten, if_pos hc])
    · have hold := World.keeps_of_not_changes (Site.find_writable hfind) hc
      refine hold.kept hvalid (Site.find_within hvalid hroot hfind) fun other => ?_
      exact hpass.kept other (by simp [hwritten, hc])
  obtain ⟨hroute', hslot⟩ := hroute.keeps hvalid hplain hroot hs hkept hkeeps
  refine ⟨hroute', hslot, source, hs, fun hfield => ?_⟩
  -- The text is in the cell of the property already, so the write changes nothing.
  have hsame : ¬W'.changes source (.string s) := by
    unfold World.property? at hs
    unfold Sight.field at hfield
    split at hs
    · rename_i c hslot
      cases hs
      rw [show W'.sight.slot? o p.last = some (.cell c) from hslot] at hfield
      have hvalue : (W'.cells.get c).value = .string s := hfield
      simp [World.changes, hvalue, Value.same]
    · cases hs
    · rename_i hslot
      rw [show W'.sight.slot? o p.last = none from hslot] at hfield
      cases hfield
  rw [if_neg hsame] at hfired
  simp [Site.writes, hfired]

theorem Moment.sets_value (h : Moment f W) (hb : W.OnlyBindings) (ht : W.ShowsPath n r path)
    (hroute : W.Route (W.rootOf r) (W.watchers.get r).path.parents o)
    (hw : (W.watchers.get r).path.assign (Engine.ofFuel k).compute
      (Subscriber.update (Engine.ofFuel k)) (W.rootOf r) (.string s) W = some (.ok b, w₂)) :
    (((W.siteOf r).writes k (.string s) W w₂).map Prod.snd).countP (Shown.setsValue n) =
      if (W.sight.field o (W.watchers.get r).path.last).string? = some s then 0 else 1 := by
  have hvalid := h.quiet.valid
  have hroot := hvalid.root _ (hvalid.model r (hvalid.lt_of_alive ht.alive))
  have hpass := h.single_pass hb hroot (Value.within_of_object? rfl) hw
  obtain ⟨hroute₂, ⟨c, hslot, hvalue⟩, source, hsource, hnothing⟩ :=
    h.assign_route hb hroot ht.plain hroute hw
  split
  · rename_i hu
    simp [hnothing (Value.eq_string hu)]
  · rename_i hu
    have hread := hroute.read (Engine.ofFuel 0).compute ht.parse hsource
    have hagrees := h.quiet.agrees ht.alive ht.modelAlive (World.resolves_of_read ht.parse hread)
    obtain ⟨u, hseen⟩ := hpass.paints.watchers r
    refine hpass.sets_value ht.binds ht.alive ht.modelAlive ?_ fun hold => ?_
    · have hparse₂ : Path.parse path = .ok (w₂.watchers.get r).path := by
        rw [hseen]
        exact ht.parse
      refine World.resolves_of_read hparse₂ ?_
      rw [hseen]
      refine World.Route.read_cell _ ht.parse ?_ hslot hvalue
      rw [hpass.paints.models]
      exact hroute₂
    · -- The binding had seen another value, as the text is new.
      rw [hold] at hagrees
      rw [Value.string_agrees hagrees] at hu
      exact hu rfl

theorem World.property?_congr (hs : w'.slot? = w.slot?) (o : Ref .object) (key : String) :
    w'.property? o key = w.property? o key := by
  rw [World.property?, World.property?, hs]

theorem Moment.types_once (h : Moment f w) (hb : w.OnlyBindings) (ht : w.BindsBothWays n r path s)
    (hi : Event.input (Engine.ofFuel k) n s w = some (.ok (), w')) :
    w.TypesOnce k n r path s w' := by
  obtain ⟨W, b, w₂, hbefore, hwrite, hafter⟩ := ht.hears.typedInto ht.modelAlive ht.parse hi
  have hshows := ht.toShowsPath.remarks hbefore
  have hsight : W.sight = w.sight :=
    hbefore.sight.trans (World.sight_useModel (w := w.type n s) ht.modelAlive)
  obtain ⟨hmoment, hb', hget, hroot⟩ : Moment f W ∧ W.OnlyBindings ∧
      W.watchers.get r = w.watchers.get r ∧ W.rootOf r = w.rootOf r := by
    obtain ⟨⟨es, rfl⟩, -⟩ := hbefore
    have hu := World.OnlyBindings.useModel (w := w.type n s) ⟨hb.watcher, hb.reaction⟩ ht.modelAlive
    exact ⟨.trace es (.use (.view _ h) ht.modelAlive), ⟨hu.watcher, hu.reaction⟩, rfl, rfl⟩
  have hsite : W.siteOf r = w.siteOf r := by rw [World.siteOf, hget, hroot]
  have hwithin : (w.rootOf r).index < W.objects.size := by
    have hvalid := hmoment.quiet.valid
    rw [← hroot]
    exact hvalid.root _ (hvalid.model r (hvalid.lt_of_alive hshows.alive))
  have hpass := hmoment.single_pass hb' hwithin (Value.within_of_object? rfl) hwrite
  have hmodels₂ : w₂.models = w.models := hpass.paints.models.trans hbefore.paints.models
  have hremarks := hafter hmodels₂
  have hpaints := (w.paints_type n s).trans
    ((hbefore.paints.trans hpass.paints).released.trans hremarks.paints)
  -- The text is at the end of the path now, which is still a route.
  obtain ⟨o, hroute⟩ := ht.route
  have hroute₁ : W.Route (w.rootOf r) (w.watchers.get r).path.parents o :=
    hroute.of_eq hbefore.slot? hbefore.cells
  obtain ⟨hroute₂, ⟨c, hslot, hvalue⟩, source, hsource, -⟩ := hmoment.assign_route hb' hwithin
    (ht.plain.of_eq hbefore.slot? hbefore.cells) hroute₁ hwrite
  have hroute' : w'.Route (w'.models.get (w.watchers.get r).model).data
      (w.watchers.get r).path.parents o := by
    rw [hpaints.models]
    exact hroute₂.of_eq hremarks.slot? hremarks.cells
  have hslot' : w'.slot? o (w.watchers.get r).path.last = some (.cell c) :=
    (congrFun (congrFun hremarks.slot? o) _).trans hslot
  have hvalue' : (w'.cells.get c).value = .string s := by
    rw [hremarks.cells]
    exact hvalue
  -- What was there before is what the assignment found.
  have hsource₀ : w.property? o (w.watchers.get r).path.last = some source :=
    (World.property?_congr hbefore.slot? ..).symm.trans hsource
  rw [← hget, ← hroot] at hwrite hroute₁
  have hcount := hmoment.sets_value hb' hshows hroute₁ hwrite
  rw [hsite, hsight, hget] at hcount
  refine ⟨fun j => hroute'.read_cell _ ht.parse hslot' hvalue', ⟨W, b, w₂, hbefore, hpass, hremarks,
    ?_, _, fun j => hroute.read _ ht.parse hsource₀, hcount⟩, fun j res w'' hagain => ?_⟩
  · simpa using hpaints.shown
  · exact (ht.hears.paints hpaints).again ht.parse hroute' hslot' hvalue' hagain

end ViewBinding
