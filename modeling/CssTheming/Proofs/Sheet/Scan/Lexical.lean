import CssTheming.Proofs.Sheet.Closed
import CssTheming.Proofs.Text.Scan

/-!
# Lexical structure of stylesheets, read with a cursor

What `readUntil` reads, taken character by character, and what `opensBlock` sees ahead of the
cursor. Looking ahead counts on by itself, two characters at a time in places, and may come to stand
behind the end; it looks at no character there.
-/

namespace CssTheming.Sheet

open Text Scan

variable {ε α : Type}

/-! ## Up to a stop -/

/-- A string behind its opening quote. -/
def stringRound (quote : Char) (again : List Char → Scan ε (List Char)) (taken : List Char) :
    Scan ε (List Char) := do
  match ← peek with
  | none => return taken
  | some _ =>
    let c ← advance
    if c = '\\' then
      let d ← escaped
      again (taken ++ c :: d)
    else if c = quote ∨ c = '\n' then return taken ++ [c]
    else again (taken ++ [c])

def takeString : Scan ε (List Char) := do
  let quote ← advance
  recurse (stringRound quote) [quote]

/-- The lexical unit that starts with a character. -/
def takeUnit (c : Char) : Scan ε (List Char) := do
  if c = '\\' then
    let c ← advance
    let d ← escaped
    return c :: d
  else if isQuote c then takeString
  else if c = '/' ∧ (← peekAt 1) = some '*' then
    let c ← advance
    let d ← advance
    let (text, closed) ← takeComment []
    return c :: d :: text ++ if closed then ['*', '/'] else []
  else
    let c ← advance
    return [c]

def untilRound (stops : List Char) (again : Nat × List Char → Scan ε (List Char)) :
    Nat × List Char → Scan ε (List Char)
  | (depth, taken) => do
    match ← peek with
    | none => return taken
    | some c =>
      if depth = 0 ∧ c ∈ stops then return taken
      else
        let text ← takeUnit c
        again (depthAfter depth c, taken ++ text)

def takeUntil (stops : List Char) : Scan ε (List Char) := recurse (untilRound stops) (0, [])

variable {front r s text : List Char} {c mark : Char} {depth : Nat}

theorem takes_stringRound (hmark : mark ≠ '\\') (front s taken : List Char) :
    Takes (recurse (stringRound mark) taken : Scan ε _) front (readString mark s).1
      (readString mark s).2 (taken ++ (readString mark s).1) := by
  rw [Takes, readString_append]
  fun_induction readString mark s generalizing front taken with
  | case1 =>
    rw [runAt_recurse, stringRound]
    simp
  | case2 d r t rest h ih =>
    rw [h] at ih
    rw [runAt_recurse, stringRound]
    simp (disch := omega) [runAt_onward, ih]
  | case3 c r hescape hend =>
    have hc : c ≠ '\\' := by
      rintro rfl
      obtain rfl := (eq_nil_of_not_escape hescape).resolve_left (by simp)
      simp [hmark.symm] at hend
    rw [runAt_recurse, stringRound]
    simp [hc, hend]
  | case4 c r hescape hend t rest h ih =>
    rw [h] at ih
    rw [runAt_recurse, stringRound]
    by_cases hc : c = '\\'
    · subst hc
      obtain rfl := (eq_nil_of_not_escape hescape).resolve_left (by simp)
      rw [readString] at h
      cases h
      simp [runAt_onward, ih]
    · simp [hc, hend, runAt_onward, ih]

theorem takes_takeString (hc : isQuote c = true) (front r : List Char) :
    Takes (takeString : Scan ε _) front (unit c r).1 (unit c r).2 (unit c r).1 := by
  have hread := takes_stringRound (ε := ε) (ne_backslash_of_isQuote hc) (front ++ [c]) r [c]
  rw [Takes, readString_append] at hread
  rw [Takes, unit_append, unit_of_isQuote hc, takeString, runAt_bind_advance, hread]
  simp

theorem takes_takeUnit (c : Char) (front r : List Char) :
    Takes (takeUnit c : Scan ε _) front (unit c r).1 (unit c r).2 (unit c r).1 := by
  by_cases hescape : c = '\\'
  · subst hescape
    rw [Takes, unit_append, unit, takeUnit]
    simp [-bind_pure_comp]
  by_cases hquote : isQuote c = true
  · rw [takeUnit]
    simpa [hescape, hquote] using takes_takeString hquote front r
  rw [Takes, unit_append]
  by_cases hcomment : c = '/' ∧ r.head? = some '*'
  · obtain ⟨rfl, hstar⟩ := hcomment
    obtain ⟨r, rfl⟩ := List.head?_eq_some_iff.1 hstar
    rw [takeUnit, unit]
    cases h : comment? r with
    | none =>
      have hread := fun g : List Char × Bool → List Char => runAt_map (ε := ε)
        (takes_takeComment_unclosed h (front ++ ['/', '*']) []) (List.append_nil r).symm g
      simp [isQuote, hread, h]
    | some p =>
      obtain ⟨text, rest⟩ := p
      have hr : r = text ++ ['*', '/'] ++ rest := by simp [comment?_eq_some h]
      have hread := fun g : List Char × Bool → List Char => runAt_map (ε := ε)
        (takes_takeComment h (front ++ ['/', '*']) []) hr g
      simp [isQuote, hread, h]
  · rw [unit_single hescape (by simpa using hquote) hcomment, takeUnit]
    simp [hescape, hquote, hcomment]

theorem takes_untilRound (stops : List Char) (depth : Nat) (front s taken : List Char) :
    Takes (recurse (untilRound stops) (depth, taken) : Scan ε _) front
      (readUntil stops depth s).1 (readUntil stops depth s).2
      (taken ++ (readUntil stops depth s).1) := by
  rw [Takes, readUntil_append]
  fun_induction readUntil stops depth s generalizing front taken with
  | case1 depth =>
    rw [runAt_recurse, untilRound]
    simp
  | case2 depth c r hstop =>
    rw [runAt_recurse, untilRound]
    simp [hstop]
  | case3 depth c r hstop t rest h ih =>
    rw [h] at ih
    have hlt : (unit c r).2.length < (c :: r).length := Nat.lt_succ_of_le (length_unit_le c r)
    rw [runAt_recurse, untilRound, runAt_bind_peek, List.head?_cons]
    dsimp only
    rw [if_neg hstop, runAt_bind (takes_takeUnit c front r) (unit_append c r).symm,
      runAt_onward hlt, ih]
    simp

theorem runAt_bind_takeUntil {stops rest : List Char} {f : List Char → Scan ε α}
    (h : readUntil stops 0 s = (text, rest)) :
    runAt (takeUntil stops >>= f) front s = runAt (f text) (front ++ text) rest := by
  have hread := takes_untilRound (ε := ε) stops 0 front s []
  rw [h] at hread
  exact runAt_bind hread (by rw [← readUntil_append stops 0 s, h])

/-! ## Ahead of the cursor -/

def skipCommentRound (again : Unit → Scan ε Unit) (_ : Unit) : Scan ε Unit := do
  if ← isInside 1 then
    if (← charAt 0) = '*' ∧ (← charAt 1) = '/' then return ()
    else
      skip 1
      again ()
  else return ()

/-- Goes on to what ends the statement, with the quote of the string that is open. -/
def opensRound (again : Nat × Option Char → Scan ε Bool) : Nat × Option Char → Scan ε Bool
  | (depth, quote) => do
    if ← isInside 0 then
      let c ← charAt 0
      match quote with
      | some mark =>
        if c = '\\' then
          skip 2
          again (depth, some mark)
        else
          skip 1
          again (depth, if c = mark then none else some mark)
      | none =>
        if c = '\\' then
          skip 2
          again (depth, none)
        else if isQuote c then
          skip 1
          again (depth, some c)
        else if c = '/' ∧ (← peekAt 1) = some '*' then
          skip 2
          recurse skipCommentRound ()
          skip 2
          again (depth, none)
        else if depth = 0 ∧ c = '{' then return true
        else if depth = 0 ∧ (c = ';' ∨ c = '}') then return false
        else
          skip 1
          again (depthAfter depth c, none)
    else return false

def takeOpensBlock : Scan ε Bool := ahead (recurse opensRound (0, none))

/-- A scan answers, wherever it comes to stand. -/
def Answers (m : Scan ε α) (text : List Char) (i : Nat) (p : Position) (a : α) : Prop :=
  ∃ j, m text ⟨i, p⟩ = .ok (a, ⟨j, p⟩)

/-- Whether a block is opened, from within a string or outside of one. -/
def opensFrom : Nat × Option Char → List Char → Bool
  | (depth, none), s => opensBlock depth s
  | (depth, some mark), s => opensBlock depth (readQuoted mark s).2

variable {i : Nat} {p : Position}

theorem drop_eq_cons (h : text.drop i = c :: r) :
    text[i]? = some c ∧ text.drop (i + 1) = r ∧ text.length = i + (r.length + 1) := by
  have hlen := congrArg List.length h
  rw [List.length_drop, List.length_cons] at hlen
  refine ⟨?_, ?_, by omega⟩
  · rw [← List.head?_drop, h, List.head?_cons]
  · rw [← List.drop_drop, h, List.drop_one, List.tail_cons]

/-- A comment is skipped up to its end mark, or to the last character of the text. -/
theorem skipComment_apply (h : text.drop i = s) : ∃ j, i ≤ j ∧
    text.drop (j + 2) = (readComment s).2 ∧
    (recurse skipCommentRound () : Scan ε _) text ⟨i, p⟩ = .ok ((), ⟨j, p⟩) := by
  induction s generalizing i with
  | nil =>
    have hlen : text.length ≤ i := List.drop_eq_nil_iff.1 h
    have hout : ¬(i + 1 < text.length) := by omega
    refine ⟨i, Nat.le_refl i, List.drop_eq_nil_iff.2 (by omega), ?_⟩
    rw [recurse_apply, skipCommentRound]
    simp [bind_apply, isInside_apply, hout, ok_bind, pure_apply]
  | cons c s ih =>
    obtain ⟨hc, htail, hlen⟩ := drop_eq_cons h
    have hfirst : (charAt 0 : Scan ε _) text ⟨i, p⟩ = .ok (c, ⟨i, p⟩) := charAt_apply hc
    rw [recurse_apply, skipCommentRound]
    cases s with
    | nil =>
      rw [List.length_nil] at hlen
      have hout : ¬(i + 1 < text.length) := by omega
      have hcomment : comment? [c] = none := comment?_cons_of_not (by simp)
      refine ⟨i, Nat.le_refl i, ?_, ?_⟩
      · rw [readComment, hcomment]
        exact List.drop_eq_nil_iff.2 (by omega)
      · simp [bind_apply, isInside_apply, hout, ok_bind, pure_apply]
    | cons d r =>
      obtain ⟨hd, htail', -⟩ := drop_eq_cons htail
      have hsecond : (charAt 1 : Scan ε _) text ⟨i, p⟩ = .ok (d, ⟨i, p⟩) := charAt_apply hd
      have hin : i + 1 < text.length := by
        rw [hlen, List.length_cons]
        omega
      by_cases hend : c = '*' ∧ d = '/'
      · refine ⟨i, Nat.le_refl i, ?_, ?_⟩
        · obtain ⟨rfl, rfl⟩ := hend
          rw [htail']
          rfl
        · simp [bind_apply, isInside_apply, hfirst, hsecond, hin, hend, ok_bind, pure_apply]
      · obtain ⟨j, hj, hdrop, hrun⟩ := ih htail
        have hcomment := comment?_cons_of_not (c := c) (r := d :: r) (by simpa using hend)
        refine ⟨j, by omega, ?_, ?_⟩
        · rw [hdrop, readComment, readComment, hcomment]
          cases comment? (d :: r) <;> rfl
        · simp (disch := omega) [bind_apply, isInside_apply, hfirst, hsecond, hin, hend, ok_bind,
            skip_apply, onward_apply, hrun]

theorem opensBlock_eq (depth : Nat) (c : Char) (r : List Char) : opensBlock depth (c :: r) =
    if c = '\\' then opensBlock depth (r.drop 1)
    else if isQuote c then opensBlock depth (readQuoted c r).2
    else if c = '/' ∧ r.head? = some '*' then opensBlock depth (readComment r.tail).2
    else if depth = 0 ∧ c = '{' then true
    else if depth = 0 ∧ (c = ';' ∨ c = '}') then false
    else opensBlock (depthAfter depth c) r := by
  have hnil : opensBlock depth [] = false := by rw [opensBlock]
  rw [opensBlock, readQuoted, readComment]
  congr 2
  · split <;> simp [*]
  · congr 1
    split <;> simp [*]

theorem opensFrom_nil (depth : Nat) (quote : Option Char) :
    opensFrom (depth, quote) [] = false := by
  have hnil : opensBlock depth [] = false := by rw [opensBlock]
  cases quote <;> simp [opensFrom, hnil, readQuoted, quoted?]

section Round

variable {again : Nat × Option Char → Scan ε Bool}

theorem answers_opensRound_quoted (hmark : mark ≠ '\\') (h : text.drop i = c :: r)
    (hagain : ∀ j quote, (quote = none ∨ quote = some mark) → i < j →
      Answers (again (depth, quote)) text j p (opensFrom (depth, quote) (text.drop j))) :
    Answers (opensRound again (depth, some mark)) text i p
      (opensFrom (depth, some mark) (c :: r)) := by
  obtain ⟨hc, htail, hlen⟩ := drop_eq_cons h
  have hfirst : (charAt 0 : Scan ε _) text ⟨i, p⟩ = .ok (c, ⟨i, p⟩) := charAt_apply hc
  have hin : i < text.length := by omega
  have hdrop : text.drop (i + 2) = r.drop 1 := by rw [← htail, List.drop_drop]
  rw [Answers, opensFrom, readQuoted_cons hmark, opensRound]
  simp only [bind_apply, isInside_apply, hin, ok_bind, Nat.add_zero, decide_true, if_true, hfirst]
  by_cases hescape : c = '\\'
  · simp only [hescape, if_true, bind_apply, skip_apply, ok_bind, ← hdrop]
    exact hagain _ _ (.inr rfl) (by omega)
  simp only [hescape, if_false, bind_apply, skip_apply, ok_bind, ← htail]
  by_cases hend : c = mark
  · simp only [hend, if_true]
    exact hagain _ _ (.inl rfl) (by omega)
  · simp only [hend, if_false]
    exact hagain _ _ (.inr rfl) (by omega)

theorem answers_opensRound_plain (h : text.drop i = c :: r)
    (hagain : ∀ j depth quote, (quote = none ∨ quote = some c ∧ isQuote c = true) → i < j →
      Answers (again (depth, quote)) text j p (opensFrom (depth, quote) (text.drop j))) :
    Answers (opensRound again (depth, none)) text i p (opensBlock depth (c :: r)) := by
  obtain ⟨hc, htail, hlen⟩ := drop_eq_cons h
  have hfirst : (charAt 0 : Scan ε _) text ⟨i, p⟩ = .ok (c, ⟨i, p⟩) := charAt_apply hc
  have hnext : (peekAt 1 : Scan ε _) text ⟨i, p⟩ = .ok (r.head?, ⟨i, p⟩) := by
    rw [peekAt_apply, ← htail, List.head?_drop]
  have hin : i < text.length := by omega
  have hdrop : text.drop (i + 2) = r.drop 1 := by rw [← htail, List.drop_drop]
  rw [Answers, opensBlock_eq, opensRound]
  simp only [bind_apply, isInside_apply, hin, ok_bind, Nat.add_zero, decide_true, if_true, hfirst]
  by_cases hescape : c = '\\'
  · simp only [hescape, if_true, bind_apply, skip_apply, ok_bind, ← hdrop]
    exact hagain _ _ _ (.inl rfl) (by omega)
  by_cases hquote : isQuote c = true
  · simp only [hescape, hquote, if_true, if_false, bind_apply, skip_apply, ok_bind, ← htail]
    exact hagain _ _ _ (.inr ⟨rfl, hquote⟩) (by omega)
  simp only [hescape, hquote, if_false, Bool.false_eq_true, bind_apply, hnext, ok_bind]
  by_cases hcomment : c = '/' ∧ r.head? = some '*'
  · obtain ⟨j, hj, hrest, hrun⟩ := skipComment_apply (ε := ε) (p := p) hdrop
    rw [List.drop_one] at hrest
    simp only [hcomment, and_self, if_true, bind_apply, skip_apply, ok_bind, hrun, ← hrest]
    exact hagain _ _ _ (.inl rfl) (by omega)
  simp only [hcomment, if_false]
  by_cases hopen : depth = 0 ∧ c = '{'
  · rw [if_pos hopen, if_pos hopen]
    exact ⟨i, rfl⟩
  by_cases hend : depth = 0 ∧ (c = ';' ∨ c = '}')
  · rw [if_neg hopen, if_pos hend, if_neg hopen, if_pos hend]
    exact ⟨i, rfl⟩
  · simp only [hopen, hend, if_false, bind_apply, skip_apply, ok_bind, ← htail]
    exact hagain _ _ _ (.inl rfl) (by omega)

end Round

theorem answers_opens {quote : Option Char} (hquote : ∀ mark ∈ quote, isQuote mark = true)
    (h : text.drop i = s) :
    Answers (recurse opensRound (depth, quote) : Scan ε _) text i p
      (opensFrom (depth, quote) s) := by
  induction hn : s.length using Nat.strongRecOn generalizing i depth quote s with
  | ind n ih =>
    rw [Answers, recurse_apply]
    cases s with
    | nil =>
      have hout : ¬(i < text.length) := Nat.not_lt.2 (List.drop_eq_nil_iff.1 h)
      rw [opensFrom_nil, opensRound]
      simp [bind_apply, isInside_apply, hout, ok_bind, pure_apply]
    | cons c r =>
      obtain ⟨-, -, hlen⟩ := drop_eq_cons h
      have hagain : ∀ j depth quote, (∀ mark ∈ quote, isQuote mark = true) → i < j →
          Answers (onward (text.length - i) (recurse opensRound (depth, quote)) : Scan ε _) text j p
            (opensFrom (depth, quote) (text.drop j)) := by
        intro j depth quote hquote hj
        have hlt : (text.drop j).length < n := by
          rw [List.length_drop, ← hn, List.length_cons]
          omega
        rw [Answers, onward_apply (by omega)]
        exact ih _ hlt hquote rfl rfl
      cases quote with
      | some mark =>
        have hmark := hquote mark rfl
        refine answers_opensRound_quoted (ne_backslash_of_isQuote hmark) h fun j quote hq hj =>
          hagain j depth quote ?_ hj
        rcases hq with rfl | rfl <;> simp [hmark]
      | none =>
        refine answers_opensRound_plain h fun j depth quote hq hj => hagain j depth quote ?_ hj
        rcases hq with rfl | ⟨rfl, hc⟩
        · simp
        · simpa using hc

theorem runAt_bind_takeOpensBlock {f : Bool → Scan ε α} :
    runAt (takeOpensBlock >>= f) front s = runAt (f (opensBlock 0 s)) front s := by
  have hnone : ∀ mark ∈ (none : Option Char), isQuote mark = true := by simp
  have hopens : Answers (recurse opensRound (0, none) : Scan ε _) (front ++ s) front.length
      (Position.start.after front) (opensFrom (0, none) s) := answers_opens hnone List.drop_left
  obtain ⟨j, hrun⟩ := hopens
  refine runAt_bind_nil ?_
  rw [Takes, List.append_nil, List.nil_append, runAt, takeOpensBlock, ahead, Cursor.behind, hrun]
  rfl

end CssTheming.Sheet
