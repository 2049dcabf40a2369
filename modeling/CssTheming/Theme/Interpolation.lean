import CssTheming.Text.Lexeme
import CssTheming.Text.Whitespace
import CssTheming.Theme.Basic

/-!
# Interpolation

Texts of a theme may name tokens, as `${name}` or as `$name` up to the next white space. `interpolate` puts the
tokens' values in, which are not looked at again.
-/

namespace CssTheming.Theme

def isNameChar (c : Char) : Bool := !Text.isWhitespace c

/-- A name without braces: everything up to white space, unless that is nothing. -/
def bareName? (s : List Char) : Option (List Char × List Char) :=
  if (s.takeWhile isNameChar).isEmpty then none else some (s.takeWhile isNameChar, s.dropWhile isNameChar)

/-- The name behind a dollar sign and the rest. Braces that are not closed, or hold nothing, are part of a bare name. -/
def placeholder? (s : List Char) : Option (List Char × List Char) :=
  match s with
  | '{' :: r =>
    match r.takeWhile (· ≠ '}'), r.dropWhile (· ≠ '}') with
    | c :: name, '}' :: rest => some (c :: name, rest)
    | _, _ => bareName? s
  | _ => bareName? s

theorem length_of_bareName? {s name rest : List Char} (h : bareName? s = some (name, rest)) :
    rest.length ≤ s.length := by
  unfold bareName? at h
  split at h
  · simp at h
  · have := Text.length_dropWhile_le isNameChar s
    simp only [Option.some.injEq, Prod.mk.injEq] at h
    rw [← h.2]; exact this

theorem length_of_placeholder? {s name rest : List Char} (h : placeholder? s = some (name, rest)) :
    rest.length ≤ s.length := by
  unfold placeholder? at h
  split at h
  · rename_i r
    split at h
    · rename_i hd
      have := Text.length_dropWhile_le (· ≠ '}') r
      simp only [Option.some.injEq, Prod.mk.injEq] at h
      rw [hd] at this
      simp at this ⊢; rw [← h.2]; omega
    · exact length_of_bareName? h
  · exact length_of_bareName? h

/-- The text with the tokens' values, or the first name that is no token. -/
def interpolateChars (tokens : Table Literal) (s : List Char) : Except String (List Char) :=
  match s with
  | [] => .ok []
  | c :: r =>
    if c = '$' then
      match _h : placeholder? r with
      | some (name, rest) =>
        match tokens.get? (String.ofList name) with
        | some value => (interpolateChars tokens rest).map (value.css.toList ++ ·)
        | none => .error (String.ofList name)
      | none => (interpolateChars tokens r).map (c :: ·)
    else (interpolateChars tokens r).map (c :: ·)
termination_by s.length
decreasing_by
  · have := length_of_placeholder? _h; simp; omega
  · simp
  · simp

def interpolate (tokens : Table Literal) (text : String) : Except String String :=
  (interpolateChars tokens text.toList).map String.ofList

end CssTheming.Theme
