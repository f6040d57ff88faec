import ViewBinding.Proofs.Mount.Mounting

/-! When a view tree is mounted alike on data that differs in its values only. -/

namespace ViewBinding

variable {w₁ w₂ : World} {o₁ o₂ : Ref .object} {R : Ref .object → Ref .object → Prop}
  {root : Ref .node} {ts : List Tree} {point : MountPoint}
  (compute : Computed → Reading Value) (methods : List (String × List Step))

/-- Whether two mounts fail alike, or succeed with view-models that watch the same paths in the same
order and with the same listeners on every node. -/
def MountsAlike : Option (Except Fault (Ref .model) × World) →
    Option (Except Fault (Ref .model) × World) → Prop
  | some (.error f, _), some (.error g, _) => f = g
  | some (.ok m₁, w₁), some (.ok m₂, w₂) => w₁.watched m₁ = w₂.watched m₂ ∧
      ∀ n, (w₁.view.node n).listeners = (w₂.view.node n).listeners
  | _, _ => False

theorem Sight.Resembles.reach {methods : List (String × List Step)}
    (hd : w₁.sight.Resembles w₂.sight R) (ho : R o₁ o₂) :
    (w₁.host o₁ methods).reach = (w₂.host o₂ methods).reach := by
  funext path
  rw [Host.reach, Host.reach]
  cases Path.parse path with
  | error f => rfl
  | ok p =>
    have hroot : (Value.object o₁).Alike R (.object o₂) :=
      ⟨rfl, fun _ _ h₁ h₂ => by cases h₁; cases h₂; exact ho⟩
    obtain ⟨f, h₁, h₂⟩ | ⟨u, v, h₁, h₂, -⟩ := hd.follow p p.segments hroot
    · show (w₁.sight.follow p p.segments (.object o₁)).map _ =
        (w₂.sight.follow p p.segments (.object o₂)).map _
      rw [h₁, h₂]
    · show (w₁.sight.follow p p.segments (.object o₁)).map _ =
        (w₂.sight.follow p p.segments (.object o₂)).map _
      rw [h₁, h₂]
      rfl

/-- From one view, mounts on data with the same keys and sorts but other values are alike if and
only if the same paths are watched as planned, and so they are if the texts that text directives
render have the same interpolated paths. -/
theorem ViewModel.mounts_alike_iff (hview : w₁.view = w₂.view)
    (hmodel : w₁.models.fresh = w₂.models.fresh) (hdata : w₁.sight.Resembles w₂.sight R)
    (ho : R o₁ o₂)
    (hb : w₁.view.Bears root ts) (hpoint : point.find w₁.view = some root) (s : Settings)
    (name : Option String) :
    let h₁ := w₁.host o₁ methods
    let h₂ := w₂.host o₂ methods
    let alike := MountsAlike
      (ViewModel.mount compute point { data := .object o₁, methods } s (Script.nameModel name) w₁)
      (ViewModel.mount compute point { data := .object o₂, methods } s (Script.nameModel name) w₂)
    (alike ↔ Tree.watchedAll s h₁.methods h₁.reach (h₁.inner s.delimiters) ts =
      Tree.watchedAll s h₂.methods h₂.reach (h₂.inner s.delimiters) ts) ∧
    ((∀ path ∈ Tree.textPathsAll s ts, h₁.inner s.delimiters path = h₂.inner s.delimiters path) →
      alike) := by
  intro h₁ h₂ alike
  have hiff : alike ↔ Tree.watchedAll s h₁.methods h₁.reach (h₁.inner s.delimiters) ts =
      Tree.watchedAll s h₂.methods h₂.reach (h₂.inner s.delimiters) ts := by
    obtain ⟨herr₁, hok₁⟩ := mount_binds compute methods hdata.plainOn ⟨o₂, ho⟩ hb hpoint s name
    obtain ⟨herr₂, hok₂⟩ := mount_binds compute methods hdata.symm.plainOn ⟨o₁, ho⟩ (hview ▸ hb)
      (hview ▸ hpoint) s name
    cases hp₁ : Tree.watchedAll s h₁.methods h₁.reach (h₁.inner s.delimiters) ts with
    | error f =>
      obtain ⟨w₁', he₁⟩ := herr₁ f hp₁
      cases hp₂ : Tree.watchedAll s h₂.methods h₂.reach (h₂.inner s.delimiters) ts with
      | error g =>
        obtain ⟨w₂', he₂⟩ := herr₂ g hp₂
        simp only [alike, he₁, he₂, MountsAlike, Except.error.injEq]
      | ok qs =>
        obtain ⟨w₂', he₂, -⟩ := hok₂ qs hp₂
        simp only [alike, he₁, he₂, MountsAlike, reduceCtorEq]
    | ok ps =>
      obtain ⟨w₁', he₁, hw₁, hl₁⟩ := hok₁ ps hp₁
      cases hp₂ : Tree.watchedAll s h₂.methods h₂.reach (h₂.inner s.delimiters) ts with
      | error g =>
        obtain ⟨w₂', he₂⟩ := herr₂ g hp₂
        simp only [alike, he₁, he₂, MountsAlike, reduceCtorEq]
      | ok qs =>
        obtain ⟨w₂', he₂, hw₂, hl₂⟩ := hok₂ qs hp₂
        have hl (n : Ref .node) : (w₁'.view.node n).listeners = (w₂'.view.node n).listeners := by
          rw [hl₁, hl₂, hview, hmodel]
        simp only [alike, he₁, he₂, MountsAlike, hw₁, hw₂, hl, implies_true, and_true,
          Except.ok.injEq]
  refine ⟨hiff, fun hinner => hiff.2 ?_⟩
  rw [show h₂.reach = h₁.reach from (hdata.reach ho).symm]
  exact Tree.watchedAll_congr s h₁.methods h₁.reach ts hinner

/-- A heading with a text directive. -/
def View.heading : View :=
  (View.create (.element "div" [] [.element "h1" [("directive-text", "title")] []]) {}).2

/-- The heading shows the title of the only object. -/
def World.titled (title : String) : World where
  objects :=
    ⟨#[{ slots := ((∅ : Keyed Slot).insert "title" (.cell ⟨0⟩)).insert "name" (.cell ⟨1⟩) }]⟩
  cells := ⟨#[{ value := .string title }, { value := .string "Ann" }]⟩
  view := .heading

def Tree.heading : List Tree := [.element ⟨0⟩ [("directive-text", "title")] []]

theorem World.titled_resembles (s t : String) :
    (World.titled s).sight.Resembles (World.titled t).sight fun o o' => o = ⟨0⟩ ∧ o' = ⟨0⟩ := by
  rintro _ _ ⟨rfl, rfl⟩ key
  have hslot (title : String) : (World.titled title).sight.slot? ⟨0⟩ key =
      (((∅ : Keyed Slot).insert "title" (.cell ⟨0⟩)).insert "name" (.cell ⟨1⟩))[key]? := rfl
  have hstring (s t : String) :
      (Value.string s).Alike (fun o o' => o = ⟨0⟩ ∧ o' = ⟨0⟩) (.string t) :=
    ⟨rfl, fun _ _ h => nomatch h⟩
  rw [hslot, hslot, Std.ExtTreeMap.getElem?_insert, Std.ExtTreeMap.getElem?_insert]
  split
  · exact .inr ⟨⟨1⟩, ⟨1⟩, rfl, rfl, hstring _ _⟩
  · split
    · exact .inr ⟨⟨0⟩, ⟨0⟩, rfl, rfl, hstring _ _⟩
    · exact .inl ⟨Std.ExtTreeMap.getElem?_empty, Std.ExtTreeMap.getElem?_empty⟩

theorem View.heading_bears : View.heading.Bears ⟨1⟩ Tree.heading where
  children := by decide +kernel
  holds := ⟨⟨by decide +kernel, by decide +kernel, by decide +kernel, trivial⟩, trivial⟩
  nodup := by decide
  made := by decide +kernel

/-- Titles without interpolations are alike. -/
theorem ViewModel.mounts_alike_iff_titles : MountsAlike
    (ViewModel.mount (Engine.ofFuel 0).compute (.selector "div") { data := .object ⟨0⟩ } {}
      (Script.nameModel none) (World.titled "Hello"))
    (ViewModel.mount (Engine.ofFuel 0).compute (.selector "div") { data := .object ⟨0⟩ } {}
      (Script.nameModel none) (World.titled "Bye")) := by
  have hview : (World.titled "Hello").view = (World.titled "Bye").view := rfl
  have hmodel : (World.titled "Hello").models.fresh = (World.titled "Bye").models.fresh := rfl
  have hb : (World.titled "Hello").view.Bears ⟨1⟩ Tree.heading := View.heading_bears
  have hpoint : (MountPoint.selector "div").find (World.titled "Hello").view = some ⟨1⟩ := by
    decide +kernel
  have hboth := ViewModel.mounts_alike_iff (Engine.ofFuel 0).compute [] hview hmodel
    (World.titled_resembles "Hello" "Bye") ⟨rfl, rfl⟩ hb hpoint {} none
  exact hboth.2 (by decide +kernel)

theorem World.mount_titled (title : String) {k : Nat}
    (hk : (Tree.watchedAll {} ((World.titled title).host ⟨0⟩ []).methods
      ((World.titled title).host ⟨0⟩ []).reach
        (((World.titled title).host ⟨0⟩ []).inner {}) Tree.heading).toOption.map List.length =
          some k) : ∃ w', ViewModel.mount (Engine.ofFuel 0).compute (.selector "div")
      { data := .object ⟨0⟩ } {} (Script.nameModel none) (World.titled title) = some (.ok ⟨0⟩, w') ∧
        (w'.watched ⟨0⟩).length = k := by
  have hb : (World.titled title).view.Bears ⟨1⟩ Tree.heading := View.heading_bears
  have hview : (World.titled title).view = .heading := rfl
  have hpoint : (MountPoint.selector "div").find (World.titled title).view = some ⟨1⟩ := by
    rw [hview]
    decide +kernel
  have hone := (ViewModel.mount_binds (Engine.ofFuel 0).compute []
    (World.titled_resembles title title).plainOn ⟨⟨0⟩, rfl, rfl⟩ hb hpoint {} none).2
  cases hplan : Tree.watchedAll {} ((World.titled title).host ⟨0⟩ []).methods
      ((World.titled title).host ⟨0⟩ []).reach
        (((World.titled title).host ⟨0⟩ []).inner {}) Tree.heading with
  | error f =>
    rw [hplan] at hk
    cases hk
  | ok ps =>
    rw [hplan] at hk
    obtain ⟨w', he, hw, -⟩ := hone ps hplan
    exact ⟨w', he, (congrArg List.length hw).trans (Option.some.inj hk)⟩

/-- A title that looks like a template is bound like one. -/
theorem title_as_template :
    (World.titled "\x7b\x7b name \x7d\x7d").view = (World.titled "Hello").view ∧
    (World.titled "\x7b\x7b name \x7d\x7d").sight.Resembles (World.titled "Hello").sight
      (fun o o' => o = ⟨0⟩ ∧ o' = ⟨0⟩) ∧
    ¬MountsAlike
      (ViewModel.mount (Engine.ofFuel 0).compute (.selector "div") { data := .object ⟨0⟩ } {}
        (Script.nameModel none) (World.titled "\x7b\x7b name \x7d\x7d"))
      (ViewModel.mount (Engine.ofFuel 0).compute (.selector "div") { data := .object ⟨0⟩ } {}
        (Script.nameModel none) (World.titled "Hello")) := by
  refine ⟨rfl, World.titled_resembles _ _, fun h => ?_⟩
  obtain ⟨w₁, he₁, hw₁⟩ := World.mount_titled "\x7b\x7b name \x7d\x7d" (k := 2) (by decide +kernel)
  obtain ⟨w₂, he₂, hw₂⟩ := World.mount_titled "Hello" (k := 1) (by decide +kernel)
  rw [he₁, he₂] at h
  have hw := congrArg List.length h.1
  rw [hw₁, hw₂] at hw
  cases hw

end ViewBinding
