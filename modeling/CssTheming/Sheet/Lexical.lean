import CssTheming.Text.Lexeme

/-!
# Lexical structure of stylesheet text

Where a selector, the parameters of an at-rule, a property or a value ends: at the first stop character outside escapes,
strings, comments, parentheses and brackets. `readUntil` reads up to there; `opensBlock` looks ahead for a brace without
reading. A newline ends a string for the first, but not for the second.
-/

namespace CssTheming.Sheet

def isQuote (c : Char) : Bool := c = '"' || c = '\''

/-- A string behind its opening quote, through its closing quote or the end of the line, and the rest. -/
def readString (mark : Char) : List Char → List Char × List Char
  | [] => ([], [])
  | '\\' :: d :: r =>
    let (t, rest) := readString mark r
    ('\\' :: d :: t, rest)
  | c :: r =>
    if c = mark ∨ c = '\n' then ([c], r)
    else
      let (t, rest) := readString mark r
      (c :: t, rest)

/-- The lexical unit that starts with a character, and the rest: an escaped character, a string, a comment or the
character alone. -/
def unit (c : Char) (r : List Char) : List Char × List Char :=
  if c = '\\' then (c :: r.take 1, r.drop 1)
  else if isQuote c then (c :: (readString c r).1, (readString c r).2)
  else if c = '/' ∧ r.head? = some '*' then
    match Text.comment? r.tail with
    | some (t, rest) => ('/' :: '*' :: t ++ ['*', '/'], rest)
    | none => (c :: r, [])
  else ([c], r)

/-- How deep in parentheses and brackets the text behind a unit is. -/
def depthAfter (depth : Nat) (c : Char) : Nat :=
  if c = '(' ∨ c = '[' then depth + 1 else if c = ')' ∨ c = ']' then depth - 1 else depth

theorem readString_append (mark : Char) (s : List Char) : (readString mark s).1 ++ (readString mark s).2 = s := by
  fun_induction readString mark s <;> simp_all

theorem unit_append (c : Char) (r : List Char) : (unit c r).1 ++ (unit c r).2 = c :: r := by
  unfold unit
  split
  · cases r <;> simp
  · split
    · simp [readString_append]
    · split
      · rename_i h
        split
        · rename_i t rest ht
          cases r with
          | nil => simp at h
          | cons d r =>
            simp only [List.head?_cons, Option.some.injEq] at h
            simp only [List.tail_cons] at ht
            simp [h, Text.comment?_eq_some ht]
        · simp
      · simp

theorem length_unit_le (c : Char) (r : List Char) : (unit c r).2.length ≤ r.length := by
  have h := congrArg List.length (unit_append c r)
  have hne : (unit c r).1 ≠ [] := by unfold unit; split <;> (try split) <;> (try split) <;> (try split) <;> simp
  have := List.length_pos_iff.2 hne
  simp at h; omega

/-- The text in front of the first stop character outside everything that hides it, and the rest from there. -/
def readUntil (stops : List Char) (depth : Nat) (s : List Char) : List Char × List Char :=
  match s with
  | [] => ([], [])
  | c :: r =>
    if depth = 0 ∧ c ∈ stops then ([], c :: r)
    else
      let (t, rest) := readUntil stops (depthAfter depth c) (unit c r).2
      ((unit c r).1 ++ t, rest)
termination_by s.length
decreasing_by have := length_unit_le c r; simp; omega

theorem readUntil_append (stops : List Char) (depth : Nat) (s : List Char) :
    (readUntil stops depth s).1 ++ (readUntil stops depth s).2 = s := by
  fun_induction readUntil stops depth s with
  | case1 => rfl
  | case2 => rfl
  | case3 depth c r _ t rest h ih => rw [h] at ih; rw [List.append_assoc, ih, unit_append]

theorem length_of_readUntil {stops : List Char} {depth : Nat} {s t rest : List Char}
    (h : readUntil stops depth s = (t, rest)) : s.length = t.length + rest.length := by
  have := readUntil_append stops depth s
  rw [h] at this
  rw [← this, List.length_append]

/-- Whether a statement reaches an opening brace before it ends. -/
def opensBlock (depth : Nat) (s : List Char) : Bool :=
  match s with
  | [] => false
  | c :: r =>
    if c = '\\' then opensBlock depth (r.drop 1)
    else if isQuote c then
      match _h : Text.quoted? c r with
      | some (_, rest) => opensBlock depth rest
      | none => false
    else if c = '/' ∧ r.head? = some '*' then
      match _h : Text.comment? r.tail with
      | some (_, rest) => opensBlock depth rest
      | none => false
    else if depth = 0 ∧ c = '{' then true
    else if depth = 0 ∧ (c = ';' ∨ c = '}') then false
    else opensBlock (depthAfter depth c) r
termination_by s.length
decreasing_by
  · rw [List.length_cons, List.length_drop]; omega
  · have := congrArg List.length (Text.quoted?_eq_some _h)
    rw [List.length_append, List.length_cons] at this
    rw [List.length_cons]; omega
  · have := congrArg List.length (Text.comment?_eq_some _h); simp at this ⊢; omega
  · simp

end CssTheming.Sheet
