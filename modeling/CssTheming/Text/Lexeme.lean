/-!
# Quoted text and comments

Where a quoted text or a comment ends. A backslash takes the next character into quoted text.
-/

namespace CssTheming.Text

/-- The text up to an unescaped `mark` and the rest behind the mark, if there is one. -/
def quoted? (mark : Char) : List Char → Option (List Char × List Char)
  | [] => none
  | '\\' :: d :: r => (quoted? mark r).map fun (t, rest) => ('\\' :: d :: t, rest)
  | c :: r => if c = mark then some ([], r) else (quoted? mark r).map fun (t, rest) => (c :: t, rest)

/-- The text up to the end of a comment and the rest behind it, if the comment ends. -/
def comment? : List Char → Option (List Char × List Char)
  | [] => none
  | '*' :: '/' :: r => some ([], r)
  | c :: r => (comment? r).map fun (t, rest) => (c :: t, rest)

/-- Quoted text that is not closed takes in everything. -/
def readQuoted (mark : Char) (s : List Char) : List Char × List Char := (quoted? mark s).getD (s, [])

/-- A comment that is not closed takes in everything. -/
def readComment (s : List Char) : List Char × List Char := (comment? s).getD (s, [])

theorem quoted?_eq_some {mark : Char} {s t rest : List Char} (h : quoted? mark s = some (t, rest)) :
    s = t ++ mark :: rest := by
  fun_induction quoted? mark s generalizing t with
  | case1 => simp at h
  | case2 d r ih =>
    obtain ⟨⟨t', rest'⟩, h', he⟩ := Option.map_eq_some_iff.1 h
    simp only [Prod.mk.injEq] at he
    obtain ⟨rfl, rfl⟩ := he
    simp [ih h']
  | case3 => simp_all
  | case4 c r _ hc ih =>
    obtain ⟨⟨t', rest'⟩, h', he⟩ := Option.map_eq_some_iff.1 h
    simp only [Prod.mk.injEq] at he
    obtain ⟨rfl, rfl⟩ := he
    simp [ih h']

theorem comment?_eq_some {s t rest : List Char} (h : comment? s = some (t, rest)) : s = t ++ '*' :: '/' :: rest := by
  fun_induction comment? s generalizing t with
  | case1 => simp at h
  | case2 => simp_all
  | case3 c r _ ih =>
    obtain ⟨⟨t', rest'⟩, h', he⟩ := Option.map_eq_some_iff.1 h
    simp only [Prod.mk.injEq] at he
    obtain ⟨rfl, rfl⟩ := he
    simp [ih h']

theorem length_readQuoted_le (mark : Char) (s : List Char) : (readQuoted mark s).2.length ≤ s.length := by
  unfold readQuoted
  cases h : quoted? mark s with
  | none => simp
  | some p => simp [quoted?_eq_some h]; omega

theorem length_readComment_le (s : List Char) : (readComment s).2.length ≤ s.length := by
  unfold readComment
  cases h : comment? s with
  | none => simp
  | some p => simp [comment?_eq_some h]; omega

theorem length_dropWhile_le (p : Char → Bool) (s : List Char) : (s.dropWhile p).length ≤ s.length :=
  (List.dropWhile_suffix p).length_le

end CssTheming.Text
