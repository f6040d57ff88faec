import ViewBinding.Fault
import ViewBinding.Text.After

/-! Directive attributes: a marker, the name of a directive, and perhaps a colon and an argument. -/

namespace ViewBinding.Directive

/-- A directive with the text after the first colon of its attribute, if there is a colon. -/
structure Use where
  directive : Directive
  argument : Option String
  deriving DecidableEq, Inhabited

def cut : List Char → List Char × Option (List Char)
  | [] => ([], none)
  | c :: cs => if c = ':' then ([], some cs) else (c :: (cut cs).1, (cut cs).2)

/-- Reads the name of an attribute; one without the marker is no directive. -/
def parse (marker attrName : String) : Except Fault (Option Use) :=
  match Text.after? marker.toList attrName.toList with
  | none => .ok none
  | some rest =>
    match ofName? (String.ofList (cut rest).1) with
    | none => .error (.unknownDirective (String.ofList (cut rest).1))
    | some d => .ok (some ⟨d, (cut rest).2.map String.ofList⟩)

def Use.attrName (marker : String) (u : Use) : String :=
  marker ++ u.directive.name ++ (u.argument.map (":" ++ ·)).getD ""

theorem cut_join (cs : List Char) :
    (cut cs).1 ++ ((cut cs).2.map (':' :: ·)).getD [] = cs := by
  fun_induction cut cs with
  | case1 => rfl
  | case2 => simp_all
  | case3 c cs h ih => simp [ih]

theorem not_colon_mem_cut (cs : List Char) : ':' ∉ (cut cs).1 := by
  fun_induction cut cs with
  | case1 => simp
  | case2 => simp
  | case3 c cs h ih => simp [ih, Ne.symm h]

end ViewBinding.Directive
