import CssTheming.Text.Lexeme
import CssTheming.Text.Part
import Mathlib.Data.List.Basic

/-!
# Quoted texts and comments in front of more text

What a reader finds closed stays as it is when more text follows. What it finds open is closed by
its own closing mark, unless the text ends in a backslash that would take the mark in.
-/

namespace CssTheming.Text

/-- The text ends in a backslash that no other backslash escapes. -/
def dangles : List Char → Bool
  | [] => false
  | ['\\'] => true
  | '\\' :: _ :: r => dangles r
  | _ :: r => dangles r

variable {mark c : Char} {r s t rest : List Char}

/-- A text does not start with a character of a kind. -/
def StartsOff (p : Char → Bool) (s : List Char) : Prop := ∀ c ∈ s.head?, p c = false

theorem takeWhile_append_of {p : Char → Bool} (hw : ∀ c ∈ s, p c = true) (ht : StartsOff p t) :
    (s ++ t).takeWhile p = s ∧ (s ++ t).dropWhile p = t := by
  rw [List.takeWhile_append_of_pos hw, List.dropWhile_append_of_pos hw]
  cases t with
  | nil => simp
  | cons c t =>
    have hc : p c = false := ht c rfl
    simp [hc]

theorem startsOff_dropWhile (p : Char → Bool) (s : List Char) : StartsOff p (s.dropWhile p) := by
  intro c hc
  have := List.head?_dropWhile_not p s
  rw [hc] at this
  exact this

theorem dangles_cons_of_ne (h : c ≠ '\\') (r : List Char) : dangles (c :: r) = dangles r := by
  rw [dangles]
  · rintro rfl
    exact absurd rfl h
  · rintro _ _ rfl
    exact absurd rfl h

theorem dangles_append (h : dangles s = false) (t : List Char) : dangles (s ++ t) = dangles t := by
  fun_induction dangles s with
  | case1 => rfl
  | case2 => simp at h
  | case3 d r ih => exact ih h
  | case4 c r hlone hne ih =>
    have hc : c ≠ '\\' := by
      rintro rfl
      cases r with
      | nil => exact hlone rfl rfl
      | cons d r => exact hne d r rfl rfl
    rw [List.cons_append, dangles_cons_of_ne hc, ih h]

theorem getLast?_append_of_dangles (h : dangles s = true) (t : List Char) :
    (t ++ s).getLast? = some '\\' := by
  fun_induction dangles s generalizing t with
  | case1 => simp at h
  | case2 => simp
  | case3 d r ih => simpa using ih h (t ++ ['\\', d])
  | case4 c r _ _ ih => simpa using ih h (t ++ [c])

theorem quoted?_cons_of_ne (h : c ≠ '\\') (r : List Char) :
    quoted? mark (c :: r) = if c = mark then some ([], r) else (quoted? mark r).map fun (t, rest) =>
      (c :: t, rest) := by
  rw [quoted?]
  exact fun _ _ hc => absurd hc h

theorem readQuoted_cons (hmark : mark ≠ '\\') (c : Char) (r : List Char) :
    readQuoted mark (c :: r) =
      if c = '\\' then
        (c :: r.take 1 ++ (readQuoted mark (r.drop 1)).1, (readQuoted mark (r.drop 1)).2)
      else if c = mark then ([], r)
      else (c :: (readQuoted mark r).1, (readQuoted mark r).2) := by
  by_cases hc : c = '\\'
  · subst hc
    rw [if_pos rfl]
    cases r with
    | nil => simp [readQuoted, quoted?, hmark.symm]
    | cons d r =>
      rw [readQuoted, readQuoted, quoted?, List.drop_one, List.tail_cons]
      cases quoted? mark r <;> rfl
  · rw [if_neg hc, readQuoted, quoted?_cons_of_ne hc]
    split
    · rfl
    · rw [readQuoted]
      cases quoted? mark r <;> rfl

theorem comment?_cons_of_not (h : ¬(c = '*' ∧ r.head? = some '/')) :
    comment? (c :: r) = (comment? r).map fun (t, rest) => (c :: t, rest) := by
  rw [comment?]
  rintro _ rfl rfl
  exact h ⟨rfl, rfl⟩

/-- The pattern of the third rule of `quoted?` and `dangles`: a lone character, or one that escapes
nothing. -/
theorem eq_nil_of_not_escape (hne : ∀ d r', c = '\\' → r = d :: r' → False) :
    c ≠ '\\' ∨ r = [] := by
  by_cases hc : c = '\\'
  · cases r with
    | nil => exact .inr rfl
    | cons d r => exact absurd rfl (hne d r hc)
  · exact .inl hc

theorem quoted?_append (hmark : mark ≠ '\\') (h : quoted? mark s = some (t, rest)) (u : List Char) :
    quoted? mark (s ++ u) = some (t, rest ++ u) := by
  fun_induction quoted? mark s generalizing t with
  | case1 => simp at h
  | case2 d r ih =>
    obtain ⟨⟨t', rest'⟩, h', he⟩ := Option.map_eq_some_iff.1 h
    obtain ⟨rfl, rfl⟩ : '\\' :: d :: t' = t ∧ rest' = rest := by simpa using he
    simp [quoted?, ih h']
  | case3 r =>
    obtain ⟨rfl, rfl⟩ : [] = t ∧ r = rest := by simpa using h
    rw [List.cons_append, quoted?_cons_of_ne hmark, if_pos rfl]
  | case4 c r hne hc ih =>
    obtain ⟨⟨t', rest'⟩, h', he⟩ := Option.map_eq_some_iff.1 h
    obtain ⟨rfl, rfl⟩ : c :: t' = t ∧ rest' = rest := by simpa using he
    have hescape : c ≠ '\\' := by
      rcases eq_nil_of_not_escape hne with hescape | rfl
      · exact hescape
      · simp [quoted?] at h'
    rw [List.cons_append, quoted?_cons_of_ne hescape, if_neg hc, ih h']
    rfl

/-- The text in front of the mark is found closed without the rest. -/
theorem quoted?_take (hmark : mark ≠ '\\') (h : quoted? mark s = some (t, rest)) :
    quoted? mark (t ++ [mark]) = some (t, []) := by
  fun_induction quoted? mark s generalizing t with
  | case1 => simp at h
  | case2 d r ih =>
    obtain ⟨⟨t', rest'⟩, h', he⟩ := Option.map_eq_some_iff.1 h
    obtain ⟨rfl, rfl⟩ : '\\' :: d :: t' = t ∧ rest' = rest := by simpa using he
    simp [quoted?, ih h']
  | case3 r =>
    obtain ⟨rfl, rfl⟩ : [] = t ∧ r = rest := by simpa using h
    rw [List.nil_append, quoted?_cons_of_ne hmark, if_pos rfl]
  | case4 c r hne hc ih =>
    obtain ⟨⟨t', rest'⟩, h', he⟩ := Option.map_eq_some_iff.1 h
    obtain ⟨rfl, rfl⟩ : c :: t' = t ∧ rest' = rest := by simpa using he
    have hescape : c ≠ '\\' := by
      rcases eq_nil_of_not_escape hne with hescape | rfl
      · exact hescape
      · simp [quoted?] at h'
    rw [List.cons_append, quoted?_cons_of_ne hescape, if_neg hc, ih h']
    rfl

theorem comment?_take (h : comment? s = some (t, rest)) :
    comment? (t ++ ['*', '/']) = some (t, []) := by
  fun_induction comment? s generalizing t with
  | case1 => simp at h
  | case2 r =>
    obtain ⟨rfl, rfl⟩ : [] = t ∧ r = rest := by simpa using h
    rfl
  | case3 c r hne ih =>
    obtain ⟨⟨t', rest'⟩, h', he⟩ := Option.map_eq_some_iff.1 h
    obtain ⟨rfl, rfl⟩ : c :: t' = t ∧ rest' = rest := by simpa using he
    rw [List.cons_append, comment?, ih h']
    · rfl
    · rintro v rfl hv
      have hr := comment?_eq_some h'
      cases t' with
      | nil => simp at hv
      | cons d t' =>
        obtain ⟨rfl, -⟩ : d = '/' ∧ _ := by simpa using hv
        exact hne _ rfl hr

/-- A text that is open is closed by the next mark. -/
theorem quoted?_close (hmark : mark ≠ '\\') (h : quoted? mark s = none) (hend : dangles s = false)
    (u : List Char) :
    quoted? mark (s ++ mark :: u) = some (s, u) := by
  fun_induction quoted? mark s with
  | case1 => rw [List.nil_append, quoted?_cons_of_ne hmark, if_pos rfl]
  | case2 d r ih =>
    rw [List.cons_append, List.cons_append, quoted?, ih (Option.map_eq_none_iff.1 h) hend]
    rfl
  | case3 => simp at h
  | case4 c r hne hc ih =>
    have hescape : c ≠ '\\' := by
      rcases eq_nil_of_not_escape hne with hescape | rfl
      · exact hescape
      · rintro rfl
        simp [dangles] at hend
    rw [dangles_cons_of_ne hescape] at hend
    rw [List.cons_append, quoted?_cons_of_ne hescape, if_neg hc,
      ih (Option.map_eq_none_iff.1 h) hend]
    rfl

/-- A backslash at the end of an open text takes the next character in. -/
theorem quoted?_of_dangles (h : quoted? mark s = none) (hend : dangles s = true) (d : Char)
    (u : List Char) :
    quoted? mark (s ++ d :: u) = (quoted? mark u).map fun (t, rest) => (s ++ d :: t, rest) := by
  fun_induction quoted? mark s with
  | case1 => simp [dangles] at hend
  | case2 e r ih =>
    rw [List.cons_append, List.cons_append, quoted?,
      ih (Option.map_eq_none_iff.1 h) hend, Option.map_map]
    rfl
  | case3 => simp at h
  | case4 c r hne hc ih =>
    by_cases hescape : c = '\\'
    · subst hescape
      cases r with
      | nil => rfl
      | cons e r => exact absurd rfl (hne e r rfl)
    · rw [dangles_cons_of_ne hescape] at hend
      rw [List.cons_append, quoted?_cons_of_ne hescape, if_neg hc,
        ih (Option.map_eq_none_iff.1 h) hend, Option.map_map]
      rfl

/-- A comment that is open is closed by the next mark. -/
theorem comment?_close (h : comment? s = none) (u : List Char) :
    comment? (s ++ '*' :: '/' :: u) = some (s, u) := by
  fun_induction comment? s with
  | case1 => rfl
  | case2 => simp at h
  | case3 c r hne ih =>
    rw [List.cons_append, comment?, ih (Option.map_eq_none_iff.1 h)]
    · rfl
    · rintro v rfl hv
      cases r with
      | nil => simp at hv
      | cons d r =>
        simp only [List.cons_append, List.cons.injEq] at hv
        exact hne r rfl (by rw [hv.1])

theorem comment?_append {r s rest : List Char} (h : comment? r = some (s, rest)) (t : List Char) :
    comment? (r ++ t) = some (s, rest ++ t) := by
  fun_induction comment? r generalizing s with
  | case1 => simp at h
  | case2 r =>
    obtain ⟨rfl, rfl⟩ : [] = s ∧ r = rest := by simpa using h
    simp [comment?]
  | case3 c r hne ih =>
    obtain ⟨⟨s', rest'⟩, h', he⟩ := Option.map_eq_some_iff.1 h
    obtain ⟨rfl, rfl⟩ : c :: s' = s ∧ rest' = rest := by simpa using he
    rw [List.cons_append, comment?, ih h']
    · rfl
    · rintro u rfl hu
      cases r with
      | nil => simp [comment?] at h'
      | cons d r =>
        simp only [List.cons_append, List.cons.injEq] at hu
        exact hne r rfl (by rw [hu.1])

theorem comment?_of_not_occursIn {s : List Char} (h : occursIn ['*', '/'] s = false)
    (rest : List Char) :
    comment? (s ++ '*' :: '/' :: rest) = some (s, rest) := by
  induction s with
  | nil => rfl
  | cons c s ih =>
    rw [occursIn, Bool.or_eq_false_iff] at h
    rw [List.cons_append, comment?, ih h.2]
    · rfl
    · rintro t rfl ht
      have hprefix : ['*', '/'].isPrefixOf ('*' :: s) = false := h.1
      cases s with
      | nil => simp at ht
      | cons d s =>
        obtain ⟨rfl, -⟩ : d = '/' ∧ _ := by simpa using ht
        simp at hprefix

/-- A comment is read up to the first end of a comment. -/
theorem not_occursIn_of_comment? {rest : List Char} (h : comment? s = some (t, rest)) :
    occursIn ['*', '/'] t = false := by
  fun_induction comment? s generalizing t with
  | case1 => simp at h
  | case2 r =>
    obtain ⟨rfl, -⟩ : [] = t ∧ r = rest := by simpa using h
    rfl
  | case3 c r hne ih =>
    obtain ⟨⟨u, rest'⟩, hcomment, he⟩ := Option.map_eq_some_iff.1 h
    obtain ⟨rfl, rfl⟩ : c :: u = t ∧ rest' = rest := by simpa using he
    rw [occursIn, ih hcomment, Bool.or_false, Bool.eq_false_iff]
    intro hprefix
    obtain ⟨v, hv⟩ := List.isPrefixOf_iff_prefix.1 hprefix
    obtain ⟨rfl, rfl⟩ : '*' = c ∧ '/' :: v = u := by simpa using hv
    exact hne _ rfl (comment?_eq_some hcomment)

/-- A character that does not occur at the end of a text occurs in front of it. -/
theorem exists_of_append_eq {u v : List Char} (ht : c ∉ t) (h : s ++ t = u ++ c :: v) :
    ∃ a, s = u ++ c :: a := by
  rcases List.append_eq_append_iff.1 h with ⟨a, ha, ha'⟩ | ⟨a, ha, ha'⟩
  · exact absurd (ha' ▸ List.mem_append_right a List.mem_cons_self) ht
  · cases a with
    | nil =>
      rw [List.nil_append] at ha'
      exact absurd (ha' ▸ List.mem_cons_self) ht
    | cons d a =>
      obtain ⟨rfl, -⟩ := List.cons.inj ha'
      exact ⟨a, ha⟩

theorem stripStart?_eq_some {start text rest : String} :
    stripStart? start text = some rest ↔ text = start ++ rest := by
  rw [stripStart?, Option.map_eq_some_iff, ← String.toList_inj, String.toList_append]
  simp only [List.isPrefixOf?_eq_some_iff_append_eq]
  constructor
  · rintro ⟨r, hr, rfl⟩
    rw [String.toList_ofList, hr]
  · intro h
    exact ⟨rest.toList, h.symm, String.ofList_toList⟩

end CssTheming.Text
