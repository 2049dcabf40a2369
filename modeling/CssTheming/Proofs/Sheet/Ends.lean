import CssTheming.Proofs.Sheet.Closed
import CssTheming.Proofs.Text.Whitespace

/-!
# Texts whose ends are found

If reading stops right behind a text, that text is closed, unless one of its strings is ended by a
newline. So a text that stands is the only kind of text that the reader finds the end of.
-/

namespace CssTheming.Sheet

/-- No string in a text is ended by a newline. -/
def keepsLines (s : List Char) : Bool :=
  match s with
  | [] => true
  | c :: r => (!isQuote c || (readString c r).1.getLast? != some '\n') && keepsLines (unit c r).2
termination_by s.length
decreasing_by have := length_unit_le c r; simp; omega

variable {mark c x : Char} {r s t u rest stops : List Char} {depth : Nat}

/-- Reading goes on to a stop character. -/
theorem readUntil_stops (h : readUntil stops depth s = (t, rest)) :
    ∀ d ∈ rest.head?, d ∈ stops := by
  fun_induction readUntil stops depth s generalizing t with
  | case1 =>
    obtain ⟨-, rfl⟩ := Prod.mk.inj h
    simp
  | case2 depth c r hstop =>
    obtain ⟨-, rfl⟩ := Prod.mk.inj h
    simpa using hstop.2
  | case3 depth c r _ u v hu ih =>
    obtain ⟨-, rfl⟩ := Prod.mk.inj h
    exact ih hu

theorem readString_ne_nil (mark c : Char) (r : List Char) : (readString mark (c :: r)).1 ≠ [] := by
  by_cases hc : c = '\\'
  · subst hc
    cases r with
    | nil => simp [readString]
    | cons d r => simp [readString]
  · rw [readString_cons_of_ne hc]
    split <;> simp

/-- A string whose end is found within a text is closed there, or a newline ends it. -/
theorem readString_within (h : readString mark (s ++ x :: t) = (u, rest ++ x :: t))
    (hs : s = u ++ rest) :
    readString mark s = (u, rest) ∧ (stringCloses mark s = true ∨ u.getLast? = some '\n') := by
  fun_induction stringCloses mark s generalizing u with
  | case1 =>
    obtain ⟨rfl, rfl⟩ := List.append_eq_nil_iff.1 hs.symm
    exact absurd (congrArg Prod.fst h) (readString_ne_nil mark x t)
  | case2 =>
    -- The backslash takes in what stands behind the text.
    have hu : '\\' :: x :: (readString mark t).1 = u := congrArg Prod.fst h
    rw [← hu] at hs
    simp at hs
  | case3 d r ih =>
    have hu : '\\' :: d :: (readString mark (r ++ x :: t)).1 = u := congrArg Prod.fst h
    have hrest : (readString mark (r ++ x :: t)).2 = rest ++ x :: t := congrArg Prod.snd h
    subst hu
    obtain ⟨hread, hend⟩ := ih (Prod.ext rfl hrest) (by simpa using hs)
    refine ⟨by simp [readString, hread], hend.imp_right fun hlast => ?_⟩
    rw [List.getLast?_cons, List.getLast?_cons, hlast]
    rfl
  | case4 c r hne₁ hne₂ ih =>
    have hesc := ne_backslash_of_not_escape hne₁ hne₂
    rw [List.cons_append, readString_cons_of_ne hesc] at h
    rw [readString_cons_of_ne hesc]
    by_cases hend : c = mark ∨ c = '\n'
    · rw [if_pos hend] at h ⊢
      obtain ⟨rfl, -⟩ := Prod.mk.inj h
      obtain rfl : r = rest := by simpa using hs
      refine ⟨rfl, ?_⟩
      rcases hend with rfl | rfl <;> simp
    · rw [if_neg hend] at h ⊢
      obtain ⟨rfl, hrest⟩ := Prod.mk.inj h
      obtain ⟨hread, hclosed⟩ := ih (Prod.ext rfl hrest) (by simpa using hs)
      rw [not_or] at hend
      refine ⟨by simp [hread], hclosed.imp (fun hr => by simp [hend.2, hr]) fun hlast => ?_⟩
      rw [List.getLast?_cons, hlast]
      rfl

theorem unit_ne_nil (c : Char) (r : List Char) : (unit c r).1 ≠ [] := by
  intro h
  have hlen := length_unit_le c r
  have happend := congrArg List.length (unit_append c r)
  rw [h, List.nil_append, List.length_cons] at happend
  omega

/-- A comment whose end is found within a text is complete there. -/
theorem comment_within (h : unit '/' (r ++ x :: t) = (u, rest ++ x :: t))
    (hr : '/' :: r = u ++ rest) (hstar : (r ++ x :: t).head? = some '*') :
    ∃ r' s, r = '*' :: r' ∧ Text.comment? r' = some (s, rest) ∧
      u = '/' :: '*' :: s ++ ['*', '/'] := by
  cases r with
  | nil =>
    -- What stands behind the text would belong to the comment.
    obtain rfl : x = '*' := by simpa using hstar
    rw [List.nil_append] at h
    cases hcomment : Text.comment? t with
    | none =>
      have hu : '/' :: '*' :: t = u := by simpa [unit, isQuote, hcomment] using congrArg Prod.fst h
      rw [← hu] at hr
      simp at hr
    | some p =>
      rw [unit_comment hcomment] at h
      rw [← (Prod.mk.inj h).1] at hr
      simp at hr
  | cons d r' =>
    obtain rfl : d = '*' := by simpa using hstar
    rw [List.cons_append] at h
    cases hcomment : Text.comment? (r' ++ x :: t) with
    | none => simpa [unit, isQuote, hcomment] using congrArg Prod.snd h
    | some p =>
      rw [unit_comment hcomment] at h
      obtain ⟨rfl, -⟩ := Prod.mk.inj h
      have hfree := Text.not_occursIn_of_comment? hcomment
      obtain rfl : r' = p.1 ++ '*' :: '/' :: rest := by simpa using hr
      exact ⟨_, p.1, rfl, Text.comment?_of_not_occursIn hfree rest, rfl⟩

/-- A unit whose end is found within a text is complete there, unless it is a string that a newline
ends. -/
theorem unit_within (h : unit c (r ++ x :: t) = (u, rest ++ x :: t)) (hr : c :: r = u ++ rest)
    (hlines : (!isQuote c || (readString c r).1.getLast? != some '\n') = true) :
    unit c r = (u, rest) ∧ unitCloses c r = true := by
  by_cases hesc : c = '\\'
  · subst hesc
    cases r with
    | nil =>
      have hu : ['\\', x] = u := congrArg Prod.fst h
      rw [← hu] at hr
      simp at hr
    | cons d r =>
      have hu : ['\\', d] = u := congrArg Prod.fst h
      subst hu
      obtain rfl : r = rest := by simpa using hr
      exact ⟨rfl, rfl⟩
  by_cases hquote : isQuote c = true
  · rw [unit_of_isQuote hquote] at h ⊢
    obtain ⟨rfl, hrest⟩ := Prod.mk.inj h
    obtain ⟨hread, hend⟩ := readString_within (Prod.ext rfl hrest) (by simpa using hr)
    rw [hread] at hlines
    have hclosed := hend.resolve_right (by simpa [hquote] using hlines)
    refine ⟨by simp [hread], ?_⟩
    rw [unitCloses, if_neg hesc, if_pos hquote, hclosed]
  by_cases hstar : c = '/' ∧ (r ++ x :: t).head? = some '*'
  · obtain ⟨rfl, hhead⟩ := hstar
    obtain ⟨r', s, rfl, hcomment, rfl⟩ := comment_within h hr hhead
    exact ⟨unit_comment hcomment, by simp [unitCloses, isQuote, hcomment]⟩
  · have hstar' : ¬(c = '/' ∧ r.head? = some '*') := by
      rintro ⟨rfl, hhead⟩
      exact hstar ⟨rfl, by simp [hhead]⟩
    rw [unit_single hesc (by simpa using hquote) hstar] at h
    obtain ⟨rfl, -⟩ := Prod.mk.inj h
    obtain rfl : r = rest := by simpa using hr
    rw [unitCloses, if_neg hesc, if_neg hquote, if_neg hstar']
    exact ⟨unit_single hesc (by simpa using hquote) hstar', rfl⟩

theorem closes_of_readUntil (h : readUntil stops depth (s ++ x :: t) = (s, x :: t))
    (hlines : keepsLines s = true) :
    closes depth s = true ∧ (readUntil stops depth s).2 = [] := by
  fun_induction closes depth s with
  | case1 depth =>
    rw [List.nil_append, readUntil_cons] at h
    split at h
    · rename_i hstop
      exact ⟨decide_eq_true hstop.1, by rw [readUntil]⟩
    · exact absurd (List.append_eq_nil_iff.1 (Prod.mk.inj h).1).1 (unit_ne_nil x t)
  | case2 depth c r ih =>
    rw [List.cons_append, readUntil_cons] at h
    split at h
    · exact absurd (Prod.mk.inj h).1 (by simp)
    rename_i hstop
    obtain ⟨hr, hrest⟩ := Prod.mk.inj h
    rw [keepsLines, Bool.and_eq_true] at hlines
    -- The rest of the text is what is read behind the first unit.
    have hread := readUntil_append stops (depthAfter depth c) (unit c (r ++ x :: t)).2
    rw [hrest] at hread
    obtain ⟨hunit, hcomplete⟩ := unit_within (Prod.ext rfl hread.symm) hr.symm hlines.1
    have hsnd := congrArg Prod.snd hunit
    rw [hcomplete, Bool.true_and, readUntil_cons, if_neg hstop]
    refine ih ?_ hlines.2
    rw [hsnd, hread]
    exact Prod.ext rfl hrest

/-- Only texts that stand are read up to the character behind them. -/
theorem stands_of_readUntil (h : readUntil stops 0 (s ++ x :: t) = (s, x :: t))
    (hlines : keepsLines s = true) : Stands stops s := by
  obtain ⟨hclosed, hfree⟩ := closes_of_readUntil h hlines
  exact ⟨hclosed, List.isEmpty_iff.2 hfree⟩

/-- What stands up to semicolons and closing braces and opens no block stands up to braces. -/
theorem readUntil_of_not_opensBlock (hs : closes depth s = true)
    (hfree : (readUntil valueStops depth s).2 = []) (ht : NoStar t)
    (hopens : opensBlock depth (s ++ t) = false) : (readUntil headStops depth s).2 = [] := by
  fun_induction closes depth s with
  | case1 => rw [readUntil]
  | case2 depth c r ih =>
    rw [Bool.and_eq_true] at hs
    rw [readUntil_cons] at hfree
    have hstop : ¬(depth = 0 ∧ c ∈ headStops) := by
      rintro ⟨rfl, hc⟩
      by_cases hvalue : c ∈ valueStops
      · simp [hvalue] at hfree
      · obtain rfl : c = '{' := by
          simp only [headStops, valueStops, List.mem_cons, List.not_mem_nil, or_false] at hc hvalue
          exact hc.resolve_right hvalue
        rw [List.cons_append, opensBlock_brace] at hopens
        cases hopens
    rw [if_neg fun h => hstop ⟨h.1, List.mem_cons_of_mem _ h.2⟩] at hfree
    rw [List.cons_append, opensBlock_unit hs.1 hstop ht] at hopens
    rw [readUntil_cons, if_neg hstop]
    exact ih hs.2 hfree hopens

theorem Stands.of_not_opensBlock (h : Stands valueStops s) (ht : NoStar t)
    (hopens : opensBlock 0 (s ++ t) = false) : Stands headStops s :=
  ⟨h.1, List.isEmpty_iff.2
    (readUntil_of_not_opensBlock h.1 (List.isEmpty_iff.1 h.2) ht hopens)⟩

/-- Reading that takes in as much as a text has, white space aside, takes in that text. -/
theorem eq_of_visible (h : readUntil stops depth (s ++ x :: t) = (u, rest))
    (hstops : (stops.any Text.isWhitespace) = false) (hx : Text.isWhitespace x = false)
    (hlen : (Text.visible u).length = (Text.visible s).length) : u = s ∧ rest = x :: t := by
  have happend : u ++ rest = s ++ x :: t := by
    rw [← readUntil_append stops depth (s ++ x :: t), h]
  rcases List.append_eq_append_iff.1 happend with ⟨a, rfl, hrest⟩ | ⟨a, rfl, hrest⟩
  · cases a with
    | nil => exact ⟨(List.append_nil u).symm, hrest⟩
    | cons d a =>
      -- Reading goes on to a stop character, and that is no white space.
      have hd : Text.isWhitespace d = false := by
        have hmem := readUntil_stops h d (by rw [hrest]; rfl)
        simpa using List.any_eq_false.1 hstops d hmem
      simp [Text.visible_cons_of_not hd] at hlen
  · cases a with
    | nil => exact ⟨List.append_nil s, hrest.symm⟩
    | cons d a =>
      obtain ⟨rfl, -⟩ := List.cons.inj hrest
      simp [Text.visible_cons_of_not hx] at hlen

/-- If as much is read as a text has, and no newline ends a string in it, the text stands. -/
theorem stands_of_visible (h : readUntil stops 0 (s ++ x :: t) = (u, rest))
    (hstops : (stops.any Text.isWhitespace) = false) (hx : Text.isWhitespace x = false)
    (hlen : (Text.visible u).length = (Text.visible s).length) (hlines : keepsLines s = true) :
    Stands stops s := by
  obtain ⟨rfl, rfl⟩ := eq_of_visible h hstops hx hlen
  exact stands_of_readUntil h hlines

end CssTheming.Sheet
