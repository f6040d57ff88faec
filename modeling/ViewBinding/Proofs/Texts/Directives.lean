import ViewBinding.Directive

/-! Directive attributes in their written form: which are passed over, which name a directive and
which name none, and that writing and reading undo each other. -/

namespace ViewBinding.Directive

variable {marker attrName name : String} {argument : Option String}

/-- An attribute cut behind its marker and at the first colon after that, if there is one. -/
structure Cut (marker attrName name : String) (argument : Option String) : Prop where
  colonFree : ':' ∉ name.toList
  joined : attrName = marker ++ name ++ (argument.map (":" ++ ·)).getD ""

theorem not_colon_mem_name (d : Directive) : ':' ∉ d.name.toList := by
  cases d <;> decide

theorem ofName?_name (d : Directive) : ofName? d.name = some d :=
  (ofName?_eq_some_iff d.name d).2 rfl

theorem ofName?_eq_none (h : ∀ d : Directive, d.name ≠ name) : ofName? name = none :=
  Option.eq_none_iff_forall_ne_some.2 fun d hd => h d ((ofName?_eq_some_iff name d).1 hd).symm

theorem cut_append {cs : List Char} (h : ':' ∉ cs) (argument : Option (List Char)) :
    cut (cs ++ (argument.map (':' :: ·)).getD []) = (cs, argument) := by
  induction cs with
  | nil => cases argument <;> simp [cut]
  | cons c cs ih =>
    obtain ⟨hc, hcs⟩ : ':' ≠ c ∧ ':' ∉ cs := by simpa using h
    rw [List.cons_append, cut, if_neg (Ne.symm hc), ih hcs]

theorem toList_joined (marker name : String) (argument : Option String) :
    (marker ++ name ++ (argument.map (":" ++ ·)).getD "").toList = marker.toList ++
      (name.toList ++ ((argument.map String.toList).map (':' :: ·)).getD []) := by
  cases argument <;> simp

theorem exists_cut (marker rest : String) :
    ∃ name argument, Cut marker (marker ++ rest) name argument := by
  refine ⟨String.ofList (cut rest.toList).1, (cut rest.toList).2.map String.ofList, ?_, ?_⟩
  · rw [String.toList_ofList]
    exact not_colon_mem_cut rest.toList
  · have hargument : ((cut rest.toList).2.map String.ofList).map String.toList =
        (cut rest.toList).2 := by
      simp [Function.comp_def]
    rw [← String.toList_inj, toList_joined, hargument, String.toList_ofList, cut_join,
      String.toList_append]

theorem parse_of_unmarked (h : ¬∃ rest, attrName = marker ++ rest) :
    parse marker attrName = .ok none := by
  have hnone : Text.after? marker.toList attrName.toList = none := by
    refine Option.eq_none_iff_forall_ne_some.2 fun rest hrest => h ⟨String.ofList rest, ?_⟩
    rw [← String.toList_inj, String.toList_append, String.toList_ofList]
    exact (Text.after?_eq_some_iff _ _ _).1 hrest
  rw [parse, hnone]

namespace Cut

/-- The reader makes the same cut, also if there are colons in the marker or in the argument. -/
theorem reads (h : Cut marker attrName name argument) :
    ∃ rest, Text.after? marker.toList attrName.toList = some rest ∧
      cut rest = (name.toList, argument.map String.toList) := by
  refine ⟨_, (Text.after?_eq_some_iff _ _ _).2 ?_, cut_append h.colonFree _⟩
  rw [h.joined, toList_joined]

theorem parse_name {d : Directive} (h : Cut marker attrName d.name argument) :
    parse marker attrName = .ok (some ⟨d, argument⟩) := by
  obtain ⟨rest, hafter, hcut⟩ := h.reads
  have hargument : (argument.map String.toList).map String.ofList = argument := by
    simp [Function.comp_def]
  simp only [parse, hafter, hcut, String.ofList_toList, ofName?_name, hargument]

theorem parse_unknown (h : Cut marker attrName name argument)
    (hname : ∀ d : Directive, d.name ≠ name) :
    parse marker attrName = .error (.unknownDirective name) := by
  obtain ⟨rest, hafter, hcut⟩ := h.reads
  simp only [parse, hafter, hcut, String.ofList_toList, ofName?_eq_none hname]

end Cut

theorem cut_name_iff (u : Use) :
    Cut marker attrName u.directive.name u.argument ↔ attrName = u.attrName marker :=
  ⟨Cut.joined, fun h => ⟨not_colon_mem_name u.directive, h⟩⟩

/-- An attribute has no marker, or names a directive behind it, or something else. -/
theorem cut_cases (marker attrName : String) : (¬∃ rest, attrName = marker ++ rest) ∨
    (∃ u : Use, Cut marker attrName u.directive.name u.argument) ∨
      ∃ name argument, Cut marker attrName name argument ∧ ∀ d : Directive, d.name ≠ name := by
  by_cases hmark : ∃ rest, attrName = marker ++ rest
  · obtain ⟨rest, rfl⟩ := hmark
    obtain ⟨name, argument, hcut⟩ := exists_cut marker rest
    by_cases hname : ∃ d : Directive, d.name = name
    · obtain ⟨d, rfl⟩ := hname
      exact .inr (.inl ⟨⟨d, argument⟩, hcut⟩)
    · exact .inr (.inr ⟨name, argument, hcut, not_exists.1 hname⟩)
  · exact .inl hmark

theorem parse_eq_ok_some_iff (u : Use) :
    parse marker attrName = .ok (some u) ↔ attrName = u.attrName marker := by
  rw [← cut_name_iff]
  refine ⟨fun h => ?_, Cut.parse_name⟩
  rcases cut_cases marker attrName with hmark | ⟨u', hcut⟩ | ⟨name, argument, hcut, hname⟩
  · cases (parse_of_unmarked hmark).symm.trans h
  · cases hcut.parse_name.symm.trans h
    exact hcut
  · cases (hcut.parse_unknown hname).symm.trans h

theorem parse_eq_ok_none_iff :
    parse marker attrName = .ok none ↔ ¬∃ rest, attrName = marker ++ rest := by
  refine ⟨fun h => ?_, parse_of_unmarked⟩
  rcases cut_cases marker attrName with hmark | ⟨u, hcut⟩ | ⟨name, argument, hcut, hname⟩
  · exact hmark
  · cases hcut.parse_name.symm.trans h
  · cases (hcut.parse_unknown hname).symm.trans h

theorem parse_eq_error_iff {fault : Fault} : parse marker attrName = .error fault ↔
    ∃ name argument, Cut marker attrName name argument ∧ (∀ d : Directive, d.name ≠ name) ∧
      fault = .unknownDirective name := by
  constructor
  · intro h
    rcases cut_cases marker attrName with hmark | ⟨u, hcut⟩ | ⟨name, argument, hcut, hname⟩
    · cases (parse_of_unmarked hmark).symm.trans h
    · cases hcut.parse_name.symm.trans h
    · cases (hcut.parse_unknown hname).symm.trans h
      exact ⟨name, argument, hcut, hname, rfl⟩
  · rintro ⟨name, argument, hcut, hname, rfl⟩
    exact hcut.parse_unknown hname

theorem attrName_injective (marker : String) : Function.Injective (Use.attrName marker) := by
  intro u u' h
  have hu : parse marker (u.attrName marker) = .ok (some u) := (parse_eq_ok_some_iff u).2 rfl
  have hu' : parse marker (u.attrName marker) = .ok (some u') := (parse_eq_ok_some_iff u').2 h
  exact Option.some.inj (Except.ok.inj (hu.symm.trans hu'))

/-- An attribute reads as a use exactly if it is what that use is written as. It is passed over
exactly if it does not start with the marker, and is a fault exactly if it does and what follows up
to the first colon is no name of a directive; the fault tells that name. No two uses are written as
the same attribute. -/
theorem parse_outcomes (marker attrName : String) :
    (∀ u : Use, parse marker attrName = .ok (some u) ↔ attrName = u.attrName marker) ∧
      (parse marker attrName = .ok none ↔ ¬∃ rest, attrName = marker ++ rest) ∧
      (∀ fault, parse marker attrName = .error fault ↔ ∃ name argument,
        Cut marker attrName name argument ∧ (∀ d : Directive, d.name ≠ name) ∧
          fault = .unknownDirective name) ∧
      Function.Injective (Use.attrName marker) :=
  ⟨parse_eq_ok_some_iff, parse_eq_ok_none_iff, fun _ => parse_eq_error_iff,
    attrName_injective marker⟩

/-- A colon in the marker does not cut, and neither does one in the argument. -/
example : parse "on:" "on:on:on:click" = .ok (some ⟨.on, some "on:click"⟩) := rfl

end ViewBinding.Directive
