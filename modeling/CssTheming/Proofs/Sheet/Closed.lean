import CssTheming.Proofs.Text.Lexeme
import CssTheming.Sheet.Parser

/-!
# Closed texts

A text is closed if it can be read alone to its end and leaves nothing open: no escape, string,
comment, parenthesis or bracket. What stands behind a closed text is read as if it stood alone, by
`readUntil` and by `opensBlock`, whose rules differ only on strings that a newline ends.
-/

namespace CssTheming.Sheet

/-- Whether a string, given the text behind its opening quote, is closed before its line ends. -/
def stringCloses (mark : Char) : List Char → Bool
  | [] | ['\\'] => false
  | '\\' :: _ :: r => stringCloses mark r
  | c :: r => c = mark || (c ≠ '\n' && stringCloses mark r)

/-- Whether the lexical unit that starts with a character is complete. -/
def unitCloses (c : Char) (r : List Char) : Bool :=
  if c = '\\' then !r.isEmpty
  else if isQuote c then stringCloses c r
  else if c = '/' ∧ r.head? = some '*' then (Text.comment? r.tail).isSome
  else true

/-- Whether a text at a depth of parentheses and brackets closes everything, the parentheses and
brackets included. -/
def closes (depth : Nat) (s : List Char) : Bool :=
  match s with
  | [] => depth = 0
  | c :: r => unitCloses c r && closes (depthAfter depth c) (unit c r).2
termination_by s.length
decreasing_by have := length_unit_le c r; simp; omega

def isClosed (s : List Char) : Bool := closes 0 s

/-- No stop character stands outside strings, comments, escapes, parentheses and brackets. -/
def isFreeOf (stops : List Char) (s : List Char) : Bool := (readUntil stops 0 s).2.isEmpty

/-! ## Units in front of more text -/

variable {mark c : Char} {r : List Char} {depth : Nat}

theorem readString_cons_of_ne (h : c ≠ '\\') (r : List Char) :
    readString mark (c :: r) =
      if c = mark ∨ c = '\n' then ([c], r)
      else (c :: (readString mark r).1, (readString mark r).2) := by
  rw [readString]
  exact fun _ _ hc => absurd hc h

theorem ne_backslash_of_not_escape (hend : c = '\\' → r = [] → False)
    (hescape : ∀ d r', c = '\\' → r = d :: r' → False) : c ≠ '\\' := by
  intro hc
  rcases Text.eq_nil_of_not_escape hescape with hne | hnil
  · exact hne hc
  · exact hend hc hnil

theorem readString_append_of_closes (h : stringCloses mark r = true) (t : List Char) :
    readString mark (r ++ t) = ((readString mark r).1, (readString mark r).2 ++ t) := by
  fun_induction stringCloses mark r with
  | case1 => simp at h
  | case2 => simp at h
  | case3 d r ih => simp [readString, ih h]
  | case4 c r hne₁ hne₂ ih =>
    have hesc := ne_backslash_of_not_escape hne₁ hne₂
    rw [List.cons_append, readString_cons_of_ne hesc, readString_cons_of_ne hesc]
    by_cases hc : c = mark
    · simp [hc]
    · simp only [hc, decide_false, Bool.false_or, Bool.and_eq_true, decide_eq_true_eq] at h
      simp [hc, h.1, ih h.2]

theorem stringCloses_append (h : stringCloses mark r = true) (t : List Char) :
    stringCloses mark (r ++ t) = true := by
  fun_induction stringCloses mark r with
  | case1 => simp at h
  | case2 => simp at h
  | case3 d r ih => exact ih h
  | case4 c r hne₁ hne₂ ih =>
    have hesc := ne_backslash_of_not_escape hne₁ hne₂
    rw [List.cons_append, stringCloses]
    · rw [Bool.or_eq_true, Bool.and_eq_true] at h ⊢
      exact h.imp_right fun h => ⟨h.1, ih h.2⟩
    · exact fun hc _ => hesc hc
    · exact fun _ _ hc _ => hesc hc

/-- The four kinds of units, the first three complete. -/
inductive ClosedUnit : Char → List Char → Prop where
  | escape (d : Char) (r : List Char) : ClosedUnit '\\' (d :: r)
  | string {mark : Char} {r : List Char} (hmark : isQuote mark = true)
    (h : stringCloses mark r = true) : ClosedUnit mark r
  | comment {r s rest : List Char} (h : Text.comment? r = some (s, rest)) : ClosedUnit '/'
    ('*' :: r)
  | single {c : Char} {r : List Char} (hescape : c ≠ '\\') (hquote : isQuote c = false)
      (hcomment : ¬(c = '/' ∧ r.head? = some '*')) : ClosedUnit c r

theorem closedUnit_of_closes (h : unitCloses c r = true) : ClosedUnit c r := by
  unfold unitCloses at h
  split at h
  · rename_i hc
    subst hc
    cases r with
    | nil => simp at h
    | cons d r => exact .escape d r
  · rename_i hc
    split at h
    · rename_i hq
      exact .string hq h
    · rename_i hq
      split at h
      · rename_i hs
        obtain ⟨rfl, hs⟩ := hs
        cases r with
        | nil => simp at hs
        | cons d r =>
          obtain rfl : d = '*' := by simpa using hs
          obtain ⟨⟨s, rest⟩, hcomment⟩ := Option.isSome_iff_exists.1 h
          exact .comment hcomment
      · rename_i hs
        exact .single hc (by simpa using hq) hs

theorem ne_backslash_of_isQuote (h : isQuote c = true) : c ≠ '\\' := by
  rintro rfl
  exact absurd h (by decide)

theorem unit_of_isQuote (h : isQuote c = true) (r : List Char) :
    unit c r = (c :: (readString c r).1, (readString c r).2) := by
  rw [unit, if_neg (ne_backslash_of_isQuote h), if_pos h]

theorem unit_comment {s rest : List Char} (h : Text.comment? r = some (s, rest)) :
    unit '/' ('*' :: r) = ('/' :: '*' :: s ++ ['*', '/'], rest) := by
  simp [unit, isQuote, h]

theorem unit_single (hescape : c ≠ '\\') (hquote : isQuote c = false)
    (hcomment : ¬(c = '/' ∧ r.head? = some '*')) :
    unit c r = ([c], r) := by
  rw [unit, if_neg hescape, if_neg (by simp [hquote]), if_neg hcomment]

/-- A slash at the end of a text does not start a comment behind it. -/
def NoStar (t : List Char) : Prop := t.head? ≠ some '*'

instance (t : List Char) : Decidable (NoStar t) := inferInstanceAs (Decidable (t.head? ≠ some '*'))

theorem NoStar.not_comment {t : List Char} (ht : NoStar t) (h : ¬(c = '/' ∧ r.head? = some '*')) :
    ¬(c = '/' ∧ (r ++ t).head? = some '*') := by
  cases r with
  | nil => exact fun hs => ht hs.2
  | cons d r => exact h

theorem unit_append_of_closes {t : List Char} (h : unitCloses c r = true) (ht : NoStar t) :
    unit c (r ++ t) = ((unit c r).1, (unit c r).2 ++ t) := by
  cases closedUnit_of_closes h with
  | escape d r => simp [unit]
  | string hmark hs =>
    rw [unit_of_isQuote hmark, unit_of_isQuote hmark, readString_append_of_closes hs t]
  | comment hc => rw [List.cons_append, unit_comment (Text.comment?_append hc t), unit_comment hc]
  | single hescape hquote hcomment =>
    rw [unit_single hescape hquote hcomment, unit_single hescape hquote (ht.not_comment hcomment)]

theorem unitCloses_append {t : List Char} (h : unitCloses c r = true) (ht : NoStar t) :
    unitCloses c (r ++ t) = true := by
  cases closedUnit_of_closes h with
  | escape d r => rfl
  | string hmark hs =>
    rw [unitCloses, if_neg (ne_backslash_of_isQuote hmark), if_pos hmark]
    exact stringCloses_append hs t
  | comment hc => simp [unitCloses, isQuote, Text.comment?_append hc t]
  | single hescape hquote hcomment =>
    rw [unitCloses, if_neg hescape, if_neg (by simp [hquote]), if_neg (ht.not_comment hcomment)]

/-! ## Looking ahead -/

/-- A newline that no backslash takes in. -/
def hasBareNewline : List Char → Bool
  | [] => false
  | '\\' :: _ :: r => hasBareNewline r
  | c :: r => c = '\n' || hasBareNewline r

theorem hasBareNewline_cons_of_ne (h : c ≠ '\\') (r : List Char) :
    hasBareNewline (c :: r) = (c = '\n' || hasBareNewline r) := by
  rw [hasBareNewline]
  exact fun _ _ hc => absurd hc h

/-- Reading and looking ahead go to the same end of a string, closed or not, if no newline breaks
it. -/
theorem readString_snd (h : hasBareNewline (readString mark r).1 = false) :
    (readString mark r).2 = (Text.quoted? mark r).elim [] Prod.snd := by
  fun_induction Text.quoted? mark r with
  | case1 => rfl
  | case2 d r ih =>
    rw [Option.elim_map]
    exact ih h
  | case3 r hne =>
    rcases Text.eq_nil_of_not_escape hne with hesc | rfl
    · rw [readString_cons_of_ne hesc, if_pos (.inl rfl)]
      rfl
    · simp [readString]
  | case4 c r hne hc ih =>
    rw [Option.elim_map]
    rcases Text.eq_nil_of_not_escape hne with hesc | rfl
    · rw [readString_cons_of_ne hesc] at h ⊢
      by_cases hline : c = '\n'
      · simp [hline, hasBareNewline] at h
      · rw [if_neg (by simp [hc, hline])] at h ⊢
        rw [hasBareNewline_cons_of_ne hesc, Bool.or_eq_false_iff] at h
        exact ih h.2
    · simp [readString, Text.quoted?]

theorem not_hasBareNewline_of_closes (hmark : mark ≠ '\n') (h : stringCloses mark r = true) :
    hasBareNewline (readString mark r).1 = false := by
  fun_induction stringCloses mark r with
  | case1 => simp at h
  | case2 => simp at h
  | case3 d r ih => exact ih h
  | case4 c r hne₁ hne₂ ih =>
    have hesc := ne_backslash_of_not_escape hne₁ hne₂
    rw [readString_cons_of_ne hesc]
    by_cases hc : c = mark
    · simp [hc, hasBareNewline, hmark]
    · simp only [hc, decide_false, Bool.false_or, Bool.and_eq_true, decide_eq_true_eq] at h
      rw [if_neg (by simp [hc, h.1]), hasBareNewline_cons_of_ne hesc, ih h.2]
      simp [h.1]

theorem depthAfter_of_isQuote (h : isQuote c = true) : depthAfter depth c = depth := by
  have : c = '"' ∨ c = '\'' := by simpa [isQuote] using h
  rcases this with rfl | rfl <;> rfl

/-- Looking ahead goes over a unit that does not end the statement, complete or not. -/
theorem opensBlock_cons (hstop : ¬(depth = 0 ∧ c ∈ headStops))
    (hlines : isQuote c = true → hasBareNewline (unit c r).1 = false) :
    opensBlock depth (c :: r) = opensBlock (depthAfter depth c) (unit c r).2 := by
  rw [opensBlock]
  by_cases hesc : c = '\\'
  · subst hesc
    rfl
  rw [if_neg hesc]
  by_cases hquote : isQuote c = true
  · have hread := hlines hquote
    rw [unit_of_isQuote hquote, hasBareNewline_cons_of_ne hesc, Bool.or_eq_false_iff] at hread
    rw [if_pos hquote, unit_of_isQuote hquote, depthAfter_of_isQuote hquote,
      readString_snd hread.2]
    split <;> rename_i hq
    · rw [hq]
      rfl
    · rw [hq, Option.elim_none, opensBlock]
  rw [if_neg hquote]
  by_cases hcomment : c = '/' ∧ r.head? = some '*'
  · rw [if_pos hcomment, unit, if_neg hesc, if_neg hquote, if_pos hcomment, hcomment.1]
    split <;> rename_i hq
    · rw [hq]
      rfl
    · rw [hq, opensBlock]
  · rw [if_neg hcomment, unit_single hesc (by simpa using hquote) hcomment, if_neg, if_neg]
    · rintro ⟨hdepth, hc⟩
      exact hstop ⟨hdepth, by rcases hc with rfl | rfl <;> decide⟩
    · rintro ⟨hdepth, rfl⟩
      exact hstop ⟨hdepth, by decide⟩

/-! ## Closed texts in front of more text -/

variable {stops s t : List Char}

theorem readUntil_cons (stops : List Char) (depth : Nat) (c : Char) (r : List Char) :
    readUntil stops depth (c :: r) =
      if depth = 0 ∧ c ∈ stops then ([], c :: r)
      else ((unit c r).1 ++ (readUntil stops (depthAfter depth c) (unit c r).2).1,
        (readUntil stops (depthAfter depth c) (unit c r).2).2) := by
  rw [readUntil]

theorem readUntil_append_of_closes (hs : closes depth s = true)
    (hfree : (readUntil stops depth s).2 = [])
    (ht : NoStar t) :
    readUntil stops depth (s ++ t) = (s ++ (readUntil stops 0 t).1, (readUntil stops 0 t).2) := by
  fun_induction closes depth s with
  | case1 depth =>
    obtain rfl : depth = 0 := by simpa using hs
    rfl
  | case2 depth c r ih =>
    rw [Bool.and_eq_true] at hs
    rw [readUntil_cons] at hfree
    have hstop : ¬(depth = 0 ∧ c ∈ stops) := by
      intro h
      rw [if_pos h] at hfree
      simp at hfree
    rw [if_neg hstop] at hfree
    rw [List.cons_append, readUntil_cons, if_neg hstop,
      unit_append_of_closes hs.1 ht, ih hs.2 hfree]
    simp [← List.append_assoc, unit_append]

theorem closes_append (hs : closes depth s = true) (ht : NoStar t) :
    closes depth (s ++ t) = closes 0 t := by
  fun_induction closes depth s with
  | case1 depth =>
    obtain rfl : depth = 0 := by simpa using hs
    rfl
  | case2 depth c r ih =>
    rw [Bool.and_eq_true] at hs
    rw [List.cons_append, closes, unit_append_of_closes hs.1 ht, ih hs.2,
      unitCloses_append hs.1 ht, Bool.true_and]

theorem opensBlock_brace (rest : List Char) : opensBlock 0 ('{' :: rest) = true := by
  rw [opensBlock, if_neg (by decide), if_neg (by decide), if_neg fun hc => absurd hc.1 (by decide),
    if_pos ⟨rfl, rfl⟩]

theorem opensBlock_semicolon (rest : List Char) : opensBlock 0 (';' :: rest) = false := by
  rw [opensBlock, if_neg (by decide), if_neg (by decide), if_neg fun hc => absurd hc.1 (by decide),
    if_neg (by decide),
    if_pos ⟨rfl, .inl rfl⟩]

/-- Looking ahead goes over a unit that is closed and no end of a statement. -/
theorem opensBlock_unit (h : unitCloses c r = true)
    (hstop : ¬(depth = 0 ∧ c ∈ headStops)) (ht : NoStar t) :
    opensBlock depth (c :: (r ++ t)) = opensBlock (depthAfter depth c) ((unit c r).2 ++ t) := by
  have hunit := unit_append_of_closes h ht
  rw [opensBlock_cons hstop, hunit]
  intro hquote
  have hesc := ne_backslash_of_isQuote hquote
  have hline : c ≠ '\n' := by
    rintro rfl
    exact absurd hquote (by decide)
  rw [unitCloses, if_neg hesc, if_pos hquote] at h
  rw [hunit, unit_of_isQuote hquote, hasBareNewline_cons_of_ne hesc,
    not_hasBareNewline_of_closes hline h]
  simp [hline]

theorem opensBlock_append_of_closes (hs : closes depth s = true)
    (hfree : (readUntil headStops depth s).2 = [])
    (ht : NoStar t) : opensBlock depth (s ++ t) = opensBlock 0 t := by
  fun_induction closes depth s with
  | case1 depth =>
    obtain rfl : depth = 0 := by simpa using hs
    rfl
  | case2 depth c r ih =>
    rw [Bool.and_eq_true] at hs
    rw [readUntil_cons] at hfree
    have hstop : ¬(depth = 0 ∧ c ∈ headStops) := by
      intro h
      rw [if_pos h] at hfree
      simp at hfree
    rw [if_neg hstop] at hfree
    rw [List.cons_append, opensBlock_unit hs.1 hstop ht, ih hs.2 hfree]

/-! ## Texts that stand for themselves -/

/-- A closed text without stop characters, which reading goes over as a whole. -/
def Stands (stops s : List Char) : Prop := isClosed s = true ∧ isFreeOf stops s = true

instance (stops s : List Char) : Decidable (Stands stops s) :=
  inferInstanceAs (Decidable (isClosed s = true ∧ isFreeOf stops s = true))

theorem Stands.append (hs : Stands stops s) (ht : Stands stops t) (hstar : NoStar t) :
    Stands stops (s ++ t) := by
  refine ⟨?_, ?_⟩
  · rw [isClosed, closes_append hs.1 hstar]
    exact ht.1
  · rw [isFreeOf, readUntil_append_of_closes hs.1 (List.isEmpty_iff.1 hs.2) hstar]
    exact ht.2

/-- With fewer stops, reading goes on where it stopped. -/
theorem readUntil_of_subset {stops' rest : List Char} (hsub : stops ⊆ stops')
    (h : readUntil stops' depth s = (t, rest)) :
    readUntil stops depth s = (t ++ (readUntil stops 0 rest).1, (readUntil stops 0 rest).2) := by
  fun_induction readUntil stops' depth s generalizing t with
  | case1 =>
    obtain ⟨rfl, rfl⟩ := Prod.mk.inj h
    simp [readUntil]
  | case2 depth c r hstop =>
    obtain ⟨rfl, rfl⟩ := Prod.mk.inj h
    rw [hstop.1, List.nil_append]
  | case3 depth c r hstop u v hread ih =>
    obtain ⟨rfl, rfl⟩ := Prod.mk.inj h
    rw [readUntil_cons, if_neg fun hc => hstop ⟨hc.1, hsub hc.2⟩, ih hread, List.append_assoc]

theorem readUntil_nil_of_subset {stops' : List Char} (hsub : stops ⊆ stops')
    (h : (readUntil stops' depth s).2 = []) :
    (readUntil stops depth s).2 = [] := by
  have hread : readUntil stops' depth s = ((readUntil stops' depth s).1, []) := Prod.ext rfl h
  rw [readUntil_of_subset hsub hread, readUntil]

theorem Stands.of_subset {stops' : List Char} (hsub : stops ⊆ stops') (h : Stands stops' s) :
    Stands stops s :=
  ⟨h.1, List.isEmpty_iff.2 (readUntil_nil_of_subset hsub (List.isEmpty_iff.1 h.2))⟩

/-- In front of a stop character reading ends. -/
theorem Stands.readUntil_eq (h : Stands stops s) {stop : Char} (hstop : stop ∈ stops)
    (hne : stop ≠ '*') (t : List Char) :
    readUntil stops 0 (s ++ stop :: t) = (s, stop :: t) := by
  rw [readUntil_append_of_closes h.1 (List.isEmpty_iff.1 h.2) (by simpa [NoStar] using hne),
    readUntil_cons,
    if_pos ⟨rfl, hstop⟩, List.append_nil]

theorem Stands.opensBlock_eq (h : Stands headStops s) (ht : NoStar t) :
    opensBlock 0 (s ++ t) = opensBlock 0 t :=
  opensBlock_append_of_closes h.1 (List.isEmpty_iff.1 h.2) ht

end CssTheming.Sheet
