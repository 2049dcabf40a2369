import CssTheming.Proofs.Success
import CssTheming.Theme.Interpolation

/-!
# Placeholders

The placeholders of a text are found from left to right, each behind the one in front of it. A text
can be interpolated exactly if all of them name tokens.
-/

namespace CssTheming.Theme

variable {tokens : Table Literal}

/-- The names of the placeholders in a text, in order. -/
def placeholderNames (s : List Char) : List String :=
  match s with
  | [] => []
  | c :: r =>
    if c = '$' then
      match _h : placeholder? r with
      | some (name, rest) => String.ofList name :: placeholderNames rest
      | none => placeholderNames r
    else placeholderNames r
termination_by s.length
decreasing_by
  · have := length_of_placeholder? _h
    simp
    omega
  · simp
  · simp

theorem placeholderNames_placeholder {r name rest : List Char}
    (h : placeholder? r = some (name, rest)) :
    placeholderNames ('$' :: r) = String.ofList name :: placeholderNames rest := by
  rw [placeholderNames, if_pos rfl]
  split <;> simp_all

theorem placeholderNames_dollar {r : List Char} (h : placeholder? r = none) :
    placeholderNames ('$' :: r) = placeholderNames r := by
  rw [placeholderNames, if_pos rfl]
  split <;> simp_all

theorem placeholderNames_cons {c : Char} (hc : c ≠ '$') (r : List Char) :
    placeholderNames (c :: r) = placeholderNames r := by
  rw [placeholderNames, if_neg hc]

/-- A text is interpolated exactly if all names in it are tokens. -/
theorem isOk_interpolateChars (tokens : Table Literal) (s : List Char) :
    (interpolateChars tokens s).isOk = (placeholderNames s).all fun name =>
      (tokens.get? name).isSome := by
  fun_induction interpolateChars tokens s with
  | case1 =>
    rw [placeholderNames]
    rfl
  | case2 r name rest hname value hvalue ih =>
    rw [isOk_map, ih, placeholderNames_placeholder hname, List.all_cons, hvalue]
    rfl
  | case3 r name rest hname hvalue =>
    rw [placeholderNames_placeholder hname, List.all_cons, hvalue]
    rfl
  | case4 r hname ih => rw [isOk_map, ih, placeholderNames_dollar hname]
  | case5 c r hc ih => rw [isOk_map, ih, placeholderNames_cons hc]

theorem isOk_interpolate (tokens : Table Literal) (value : String) :
    (interpolate tokens value).isOk = (placeholderNames value.toList).all fun name =>
      (tokens.get? name).isSome := by
  rw [interpolate, isOk_map, isOk_interpolateChars]

end CssTheming.Theme
