/-! What follows a fixed text at the start of another. -/

namespace ViewBinding.Text

def after? : List Char → List Char → Option (List Char)
  | [], cs => some cs
  | _ :: _, [] => none
  | m :: ms, c :: cs => if m = c then after? ms cs else none

theorem after?_eq_some_iff (mark cs rest : List Char) :
    after? mark cs = some rest ↔ cs = mark ++ rest := by
  fun_induction after? mark cs with
  | case1 cs => simp [eq_comm]
  | case2 => simp
  | case3 ms c cs ih => simp [ih]
  | case4 ms m c cs h => simp [Ne.symm h]

theorem after?_length_le {mark cs rest : List Char} (h : after? mark cs = some rest) :
    rest.length ≤ cs.length := by
  simp [(after?_eq_some_iff mark cs rest).1 h]

end ViewBinding.Text
