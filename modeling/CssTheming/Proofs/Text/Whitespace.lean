import CssTheming.Text.Whitespace
import Mathlib.Data.List.DropRight

/-!
# White space at the ends of a text

Trimming and collapsing do not see white space that is put in front of a text or behind it.
-/

namespace CssTheming.Text

variable {c : Char} {s w : List Char}

theorem trimStart_cons_of_not (h : isWhitespace c = false) (s : List Char) :
    trimStart (c :: s) = c :: s := by
  simp [trimStart, h]

theorem trimEnd_concat_of_not (h : isWhitespace c = false) (s : List Char) :
    trimEnd (s ++ [c]) = s ++ [c] := by
  simp [trimEnd, h]

theorem trimEnd_append_space (hc : isWhitespace c = true) (s : List Char) :
    trimEnd (s ++ [c]) = trimEnd s := by
  simp [trimEnd, hc]

theorem trim_cons_space (hc : isWhitespace c = true) (s : List Char) : trim (c :: s) = trim s := by
  simp [trim, trimStart, hc]

theorem trim_append_space (hc : isWhitespace c = true) (s : List Char) :
    trim (s ++ [c]) = trim s := by
  rw [trim, trim, trimStart, trimStart, List.dropWhile_append]
  split
  · rename_i h
    rw [List.isEmpty_iff.1 h]
    simp [hc]
  · exact trimEnd_append_space hc _

theorem trim_spaces_append (hw : ∀ c ∈ w, isWhitespace c = true) (s : List Char) :
    trim (w ++ s) = trim s := by
  induction w with
  | nil => rfl
  | cons c w ih =>
    obtain ⟨hc, hw⟩ := List.forall_mem_cons.1 hw
    rw [List.cons_append, trim_cons_space hc, ih hw]

theorem trim_concat_of_not (h : isWhitespace c = false) (s : List Char) :
    trim (s ++ [c]) = trimStart s ++ [c] := by
  rw [trim, trimStart, trimStart, List.dropWhile_append]
  split
  · rename_i hnil
    rw [List.isEmpty_iff.1 hnil]
    simp [h, trimEnd]
  · exact trimEnd_concat_of_not h _

/-- A trimmed text does not start with white space. -/
theorem not_isWhitespace_of_trim_cons (h : trim (c :: s) = c :: s) : isWhitespace c = false := by
  cases hc : isWhitespace c with
  | false => rfl
  | true =>
    have hlen := congrArg List.length h
    have hle : (trim s).length ≤ s.length := by
      rw [trim, trimEnd, List.length_reverse]
      have h₁ := (List.dropWhile_suffix isWhitespace (l := (trimStart s).reverse)).length_le
      have h₂ := length_trimStart_le s
      rw [List.length_reverse] at h₁
      omega
    rw [trim_cons_space hc, List.length_cons] at hlen
    omega

theorem trimEnd_of_trim (h : trim s = s) : trimEnd s = s := by
  have hlen : s.length ≤ (trimStart s).length := by
    have hle := (List.dropWhile_suffix isWhitespace (l := (trimStart s).reverse)).length_le
    rw [List.length_reverse] at hle
    calc
      s.length = (trim s).length := by rw [h]
      _ = ((trimStart s).reverse.dropWhile isWhitespace).length := List.length_reverse
      _ ≤ (trimStart s).length := hle
  have hstart : trimStart s = s := (List.dropWhile_suffix isWhitespace).eq_of_length_le hlen
  rwa [trim, hstart] at h

theorem words_nil : words [] = [] := rfl

theorem words_cons (c : Char) (r : List Char) : words (c :: r) =
    if isWhitespace c then words r
    else match r with
      | [] => [[c]]
      | d :: _ => if isWhitespace d then [c] :: words r else
        match words r with
        | [] => [[c]]
        | w :: ws => (c :: w) :: ws :=
  words.eq_def (c :: r)

theorem words_append_space (hc : isWhitespace c = true) (s : List Char) :
    words (s ++ [c]) = words s := by
  induction s with
  | nil => simp [words_cons, words_nil, hc]
  | cons d r ih =>
    rw [List.cons_append, words_cons, words_cons]
    split
    · exact ih
    · cases r with
      | nil => simp [words_cons, words_nil, hc]
      | cons e r => simp only [List.cons_append] at ih ⊢; rw [ih]

theorem collapse_append_space (hc : isWhitespace c = true) (s : List Char) :
    collapse (s ++ [c]) = collapse s := by
  rw [collapse, words_append_space hc, collapse]

/-- Words are not empty and hold no white space. -/
theorem word_of_mem_words {s w : List Char} (h : w ∈ words s) :
    w ≠ [] ∧ ∀ c ∈ w, isWhitespace c = false := by
  induction s generalizing w with
  | nil => simp [words_nil] at h
  | cons d r ih =>
    rw [words_cons] at h
    split at h
    · exact ih h
    · rename_i hd
      have hd : isWhitespace d = false := by simpa using hd
      cases r with
      | nil =>
        obtain rfl : w = [d] := by simpa using h
        simp [hd]
      | cons e r =>
        dsimp only at h
        split at h
        · rcases List.mem_cons.1 h with rfl | h
          · simp [hd]
          · exact ih h
        · split at h
          · obtain rfl : w = [d] := by simpa using h
            simp [hd]
          · rename_i v vs hv
            rcases List.mem_cons.1 h with rfl | h
            · have := ih (hv ▸ List.mem_cons_self : v ∈ words (e :: r))
              simp only [List.mem_cons, forall_eq_or_imp]
              exact ⟨by simp, hd, this.2⟩
            · exact ih (hv ▸ List.mem_cons_of_mem v h)

/-- A collapsed text does not start with white space. -/
theorem not_isWhitespace_of_collapse_cons (h : collapse (c :: s) = c :: s) :
    isWhitespace c = false := by
  rw [collapse] at h
  cases hw : words (c :: s) with
  | nil => simp [hw] at h
  | cons v vs =>
    obtain ⟨hne, hall⟩ := word_of_mem_words (hw ▸ List.mem_cons_self : v ∈ words (c :: s))
    obtain ⟨d, v', rfl⟩ := List.exists_cons_of_ne_nil hne
    have hd : d = c := by
      rw [hw] at h
      cases vs <;> simp_all [List.intercalate]
    exact hd ▸ hall d List.mem_cons_self

/-! ## Single spaces -/

theorem trimEnd_cons_of_not (h : isWhitespace c = false) (s : List Char) :
    trimEnd (c :: s) = c :: trimEnd s := by
  rw [trimEnd, List.reverse_cons, List.dropWhile_append]
  split
  · rename_i hnil
    rw [trimEnd, List.isEmpty_iff.1 hnil]
    simp [h]
  · rw [List.reverse_append]
    rfl

theorem trimEnd_trimEnd (s : List Char) : trimEnd (trimEnd s) = trimEnd s := by
  rw [trimEnd, trimEnd, List.reverse_reverse, List.dropWhile_idempotent]

/-- Where something is left of the end, all in front of it stays. -/
theorem trimEnd_append_of_ne_nil (h : trimEnd s ≠ []) (w : List Char) :
    trimEnd (w ++ s) = w ++ trimEnd s := by
  have hleft : (s.reverse.dropWhile isWhitespace).isEmpty = false := by
    simpa [trimEnd] using h
  rw [trimEnd, List.reverse_append, List.dropWhile_append, hleft, if_neg Bool.false_ne_true,
    List.reverse_append, List.reverse_reverse, trimEnd]

theorem trimEnd_cons_cons_of_not {d : Char} (h : isWhitespace d = false) (c : Char)
    (s : List Char) : trimEnd (c :: d :: s) = c :: trimEnd (d :: s) :=
  trimEnd_append_of_ne_nil (by simp [trimEnd_cons_of_not h]) [c]

theorem trimEnd_append_of_not (hw : ∀ c ∈ w, isWhitespace c = false) (s : List Char) :
    trimEnd (w ++ s) = w ++ trimEnd s := by
  induction w with
  | nil => rfl
  | cons d w ih =>
    rw [List.cons_append, trimEnd_cons_of_not (hw d List.mem_cons_self),
      ih fun c hc => hw c (List.mem_cons_of_mem d hc), List.cons_append]

theorem trim_cons_of_not (h : isWhitespace c = false) (s : List Char) :
    trim (c :: s) = c :: trimEnd s := by
  rw [trim, trimStart_cons_of_not h, trimEnd_cons_of_not h]

/-- All white space is single spaces. -/
def Spaced : List Char → Prop
  | [] => True
  | c :: r => (isWhitespace c = true → c = ' ' ∧ ∀ d ∈ r.head?, isWhitespace d = false) ∧ Spaced r

theorem spaced_cons_of_not (h : isWhitespace c = false) (hs : Spaced s) : Spaced (c :: s) :=
  ⟨fun hc => absurd hc (by simp [h]), hs⟩

theorem spaced_append_of_not (hw : ∀ c ∈ w, isWhitespace c = false) (hs : Spaced s) :
    Spaced (w ++ s) := by
  induction w with
  | nil => exact hs
  | cons d w ih =>
    exact spaced_cons_of_not (hw d List.mem_cons_self)
      (ih fun c hc => hw c (List.mem_cons_of_mem d hc))

theorem words_ne_nil (h : isWhitespace c = false) (s : List Char) : words (c :: s) ≠ [] := by
  rw [words_cons, h, if_neg (by decide)]
  split
  · simp
  · split
    · simp
    · split <;> simp

theorem collapse_cons_space (hc : isWhitespace c = true) (s : List Char) :
    collapse (c :: s) = collapse s := by
  rw [collapse, words_cons, if_pos hc, collapse]

/-- A word goes on. -/
theorem collapse_cons_cons {d : Char} (hc : isWhitespace c = false) (hd : isWhitespace d = false)
    (r : List Char) : collapse (c :: d :: r) = c :: collapse (d :: r) := by
  obtain ⟨v, vs, hv⟩ := List.exists_cons_of_ne_nil (words_ne_nil hd r)
  rw [collapse, words_cons, if_neg (by simp [hc])]
  dsimp only
  rw [if_neg (by simp [hd]), collapse, hv]
  cases vs <;> simp [List.intercalate_cons_cons]

/-- A word of one character ends. -/
theorem collapse_cons_space_cons {d e : Char} (hc : isWhitespace c = false)
    (hd : isWhitespace d = true) (he : isWhitespace e = false) (r : List Char) :
    collapse (c :: d :: e :: r) = c :: ' ' :: collapse (e :: r) := by
  obtain ⟨v, vs, hv⟩ := List.exists_cons_of_ne_nil (words_ne_nil he r)
  have hrest : words (d :: e :: r) = words (e :: r) := by rw [words_cons, if_pos hd]
  rw [collapse, words_cons, if_neg (by simp [hc])]
  dsimp only
  rw [if_pos hd, collapse, hrest, hv, List.intercalate_cons_cons]
  rfl

/-- Collapsing single spaces only takes them off the ends. -/
theorem Spaced.collapse_eq_trim (h : Spaced s) : collapse s = trim s := by
  induction s with
  | nil => rfl
  | cons c r ih =>
    obtain ⟨hspace, hr⟩ := h
    cases hc : isWhitespace c with
    | true => rw [collapse_cons_space hc, trim_cons_space hc, ih hr]
    | false =>
      rw [trim_cons_of_not hc]
      cases r with
      | nil => simp [collapse, words_cons, hc, trimEnd]
      | cons d r =>
        cases hd : isWhitespace d with
        | false => rw [collapse_cons_cons hc hd, ih hr, trim_cons_of_not hd, trimEnd_cons_of_not hd]
        | true =>
          obtain ⟨rfl, hnext⟩ := hr.1 hd
          cases r with
          | nil => rw [collapse, words_cons, if_neg (by simp [hc])]; rfl
          | cons e r =>
            have he : isWhitespace e = false := hnext e rfl
            have hrest := ih hr
            rw [collapse_cons_space hd, trim_cons_space hd, trim_cons_of_not he] at hrest
            rw [collapse_cons_space_cons hc hd he, hrest, trimEnd_cons_cons_of_not he,
              trimEnd_cons_of_not he]

/-- At most one space stands at the end. -/
theorem Spaced.eq_trimEnd (h : Spaced s) : s = trimEnd s ∨ s = trimEnd s ++ [' '] := by
  induction s with
  | nil => exact .inl rfl
  | cons c r ih =>
    obtain ⟨hspace, hr⟩ := h
    cases hc : isWhitespace c with
    | false =>
      rw [trimEnd_cons_of_not hc]
      exact (ih hr).imp (congrArg (c :: ·)) (congrArg (c :: ·))
    | true =>
      obtain ⟨rfl, hnext⟩ := hspace hc
      cases r with
      | nil => exact .inr rfl
      | cons e r =>
        rw [trimEnd_cons_cons_of_not (hnext e rfl)]
        exact (ih hr).imp (congrArg (' ' :: ·)) (congrArg (' ' :: ·))

/-! ## Texts that were trimmed or collapsed before -/

theorem trimStart_trimEnd (h : trimStart s = s) : trimStart (trimEnd s) = trimEnd s := by
  cases s with
  | nil => rfl
  | cons c r =>
    have hc : isWhitespace c = false := by
      by_contra hc
      have hlen := congrArg List.length h
      have hle := length_trimStart_le r
      simp only [trimStart, List.dropWhile_cons, Bool.not_eq_false] at hc hlen hle
      rw [if_pos hc, List.length_cons] at hlen
      omega
    rw [trimEnd_cons_of_not hc, trimStart_cons_of_not hc]

theorem trim_trim (s : List Char) : trim (trim s) = trim s := by
  have hstart : trimStart (trimStart s) = trimStart s :=
    List.dropWhile_idempotent isWhitespace s
  rw [trim, trim, trimStart_trimEnd hstart, trimEnd_trimEnd]

/-- A trimmed text stays trimmed if it is cut off in front of white space. -/
theorem trim_of_append {t : List Char} (h : trim (s ++ t) = s ++ t) (hs : trimEnd s = s) :
    trim s = s := by
  cases s with
  | nil => rfl
  | cons c r =>
    have hc := not_isWhitespace_of_trim_cons h
    rw [trim, trimStart_cons_of_not hc, hs]

/-- Trimming takes nothing off between the first two characters. -/
theorem exists_trim_cons (hc : isWhitespace c = false) (r : List Char) :
    ∃ t, trim (c :: r) = c :: t ∧ ∀ d ∈ t.head?, d ∈ r.head? := by
  refine ⟨trimEnd r, trim_cons_of_not hc r, fun d hd => ?_⟩
  obtain ⟨t, ht⟩ := List.head?_eq_some_iff.1 hd
  rw [← trimEnd_append_trailing r, ht]
  rfl

/-- Collapsing puts nothing but a space between the first two characters. -/
theorem exists_collapse_cons (hc : isWhitespace c = false) (r : List Char) :
    ∃ t, collapse (c :: r) = c :: t ∧ ∀ d ∈ t.head?, d = ' ' ∨ d ∈ r.head? := by
  induction r generalizing c with
  | nil => exact ⟨[], by simp [collapse, words_cons, hc], by simp⟩
  | cons d r ih =>
    by_cases hd : isWhitespace d = true
    · rw [collapse, words_cons, if_neg (by simp [hc])]
      dsimp only
      rw [if_pos hd]
      cases words (d :: r) with
      | nil => exact ⟨[], rfl, by simp⟩
      | cons w ws => exact ⟨_, by rw [List.intercalate_cons_cons]; rfl, by simp⟩
    · have hd : isWhitespace d = false := by simpa using hd
      obtain ⟨t, ht, -⟩ := ih hd
      exact ⟨d :: t, by rw [collapse_cons_cons hc hd, ht], by simp⟩

/-- A word in front of white space, or at the end of a text, is a word of that text. -/
theorem words_append_of_word (hne : w ≠ []) (hw : ∀ c ∈ w, isWhitespace c = false)
    (hs : ∀ c ∈ s.head?, isWhitespace c = true) : words (w ++ s) = w :: words s := by
  induction w with
  | nil => exact absurd rfl hne
  | cons c w ih =>
    have hc := hw c List.mem_cons_self
    rw [List.cons_append, words_cons, if_neg (by simp [hc])]
    cases w with
    | nil =>
      cases s with
      | nil => rfl
      | cons d s => simp [hs d rfl]
    | cons d w =>
      have hd := hw d (by simp)
      rw [ih (by simp) fun e he => hw e (List.mem_cons_of_mem c he)]
      simp [hd]

theorem words_intercalate {ws : List (List Char)}
    (h : ∀ w ∈ ws, w ≠ [] ∧ ∀ c ∈ w, isWhitespace c = false) :
    words ([' '].intercalate ws) = ws := by
  induction ws with
  | nil => rfl
  | cons w ws ih =>
    obtain ⟨hw, hws⟩ := List.forall_mem_cons.1 h
    cases ws with
    | nil =>
      have hword := words_append_of_word hw.1 hw.2 (s := []) (by simp)
      simpa [List.intercalate, words_nil] using hword
    | cons v ws =>
      have hspace : isWhitespace ' ' = true := by decide
      rw [List.intercalate_cons_cons, List.append_assoc, List.singleton_append,
        words_append_of_word hw.1 hw.2 (by simp [hspace]), words_cons, if_pos hspace, ih hws]

theorem collapse_collapse (s : List Char) : collapse (collapse s) = collapse s := by
  rw [collapse, collapse, words_intercalate fun w hw => word_of_mem_words hw]

/-! ## Character by character -/

/-- What white space in front of a text, and behind a word, and the text collapse to. -/
def gap (s : List Char) : List Char := if collapse s = [] then [] else ' ' :: collapse s

/-- What a text behind a character of a word collapses to. -/
def collapseOn : List Char → List Char
  | [] => []
  | c :: r => if isWhitespace c then gap r else c :: collapseOn r

theorem collapseOn_cons_space (hc : isWhitespace c = true) (s : List Char) :
    collapseOn (c :: s) = gap s := if_pos hc

theorem collapseOn_cons_of_not (hc : isWhitespace c = false) (s : List Char) :
    collapseOn (c :: s) = c :: collapseOn s := by
  rw [collapseOn, hc, if_neg (by decide)]

theorem collapse_cons_of_not (hc : isWhitespace c = false) (s : List Char) :
    collapse (c :: s) = c :: collapseOn s := by
  induction s generalizing c with
  | nil => simp [collapse, words_cons, hc, collapseOn]
  | cons d r ih =>
    cases hd : isWhitespace d with
    | false => rw [collapse_cons_cons hc hd, ih hd, collapseOn_cons_of_not hd]
    | true =>
      rw [collapseOn_cons_space hd, gap, collapse, words_cons, if_neg (by simp [hc])]
      dsimp only
      rw [if_pos hd, words_cons, if_pos hd, collapse]
      cases hw : words r with
      | nil => rfl
      | cons w ws =>
        obtain ⟨hne, -⟩ := word_of_mem_words (hw ▸ List.mem_cons_self : w ∈ words r)
        obtain ⟨e, w, rfl⟩ := List.exists_cons_of_ne_nil hne
        rw [if_neg (by cases ws <;> simp [List.intercalate_cons_cons]), List.intercalate_cons_cons]
        rfl

/-- A collapsed text that is not empty starts with a word. -/
theorem exists_collapse_eq_cons (h : collapse s ≠ []) :
    ∃ c r, collapse s = c :: collapseOn r ∧ isWhitespace c = false := by
  induction s with
  | nil => exact absurd rfl h
  | cons c r ih =>
    cases hc : isWhitespace c with
    | true =>
      rw [collapse_cons_space hc] at h ⊢
      exact ih h
    | false => exact ⟨c, r, collapse_cons_of_not hc r, hc⟩

theorem gap_cons_space (hc : isWhitespace c = true) (s : List Char) : gap (c :: s) = gap s := by
  rw [gap, collapse_cons_space hc, gap]

theorem gap_cons_of_not (hc : isWhitespace c = false) (s : List Char) :
    gap (c :: s) = ' ' :: c :: collapseOn s := by
  rw [gap, collapse_cons_of_not hc, if_neg (by simp)]

/-- Texts that collapse to the same, also behind a word, do so behind any text. -/
theorem collapse_append_congr {t : List Char} (h : collapse s = collapse t)
    (hon : collapseOn s = collapseOn t) (w : List Char) :
    collapse (w ++ s) = collapse (w ++ t) ∧ collapseOn (w ++ s) = collapseOn (w ++ t) := by
  induction w with
  | nil => exact ⟨h, hon⟩
  | cons c w ih =>
    obtain ⟨ih, ihOn⟩ := ih
    rw [List.cons_append, List.cons_append]
    cases hc : isWhitespace c with
    | true =>
      rw [collapse_cons_space hc, collapse_cons_space hc, collapseOn_cons_space hc,
        collapseOn_cons_space hc, gap, gap, ih]
      exact ⟨rfl, rfl⟩
    | false =>
      rw [collapse_cons_of_not hc, collapse_cons_of_not hc, collapseOn_cons_of_not hc,
        collapseOn_cons_of_not hc, ihOn]
      exact ⟨rfl, rfl⟩

theorem collapse_append_cons_space (hc : isWhitespace c = true) (w s : List Char) :
    collapse (w ++ c :: s) = collapse (w ++ ' ' :: s) := by
  have hspace : isWhitespace ' ' = true := by decide
  refine (collapse_append_congr ?_ ?_ w).1
  · rw [collapse_cons_space hc, collapse_cons_space hspace]
  · rw [collapseOn_cons_space hc, collapseOn_cons_space hspace]

theorem collapse_append_cons_cons_space {d : Char} (hc : isWhitespace c = true)
    (hd : isWhitespace d = true) (w s : List Char) :
    collapse (w ++ c :: d :: s) = collapse (w ++ c :: s) := by
  refine (collapse_append_congr ?_ ?_ w).1
  · rw [collapse_cons_space hc, collapse_cons_space hd, collapse_cons_space hc]
  · rw [collapseOn_cons_space hc, gap_cons_space hd, collapseOn_cons_space hc]

theorem collapse_trim (s : List Char) : collapse (trim s) = collapse s := by
  have hend : ∀ s : List Char, collapse (trimEnd s) = collapse s := by
    intro s
    induction s using List.reverseRecOn with
    | nil => rfl
    | append_singleton s c ih =>
      cases hc : isWhitespace c with
      | true => rw [trimEnd_append_space hc, collapse_append_space hc, ih]
      | false => rw [trimEnd_concat_of_not hc]
  rw [trim, hend]
  induction s with
  | nil => rfl
  | cons c s ih =>
    cases hc : isWhitespace c with
    | true =>
      rw [collapse_cons_space hc, ← ih, trimStart, List.dropWhile_cons_of_pos hc, trimStart]
    | false => rw [trimStart_cons_of_not hc]

theorem trim_eq_nil_iff : trim s = [] ↔ collapse s = [] := by
  rw [← collapse_trim s]
  constructor
  · intro h
    rw [h]
    rfl
  · intro h
    cases ht : trim s with
    | nil => rfl
    | cons c t =>
      have hc := not_isWhitespace_of_trim_cons (ht ▸ trim_trim s)
      rw [ht, collapse_cons_of_not hc] at h
      cases h

/-- All white space in a collapsed text is spaces. -/
theorem mem_collapse (s : List Char) : (∀ d ∈ collapse s, d = ' ' ∨ isWhitespace d = false) ∧
    ∀ d ∈ collapseOn s, d = ' ' ∨ isWhitespace d = false := by
  induction s with
  | nil => exact ⟨by simp [collapse, words_nil], by simp [collapseOn]⟩
  | cons c s ih =>
    obtain ⟨hall, hallOn⟩ := ih
    cases hc : isWhitespace c with
    | true =>
      rw [collapse_cons_space hc, collapseOn_cons_space hc, gap]
      refine ⟨hall, ?_⟩
      split
      · simp
      · exact List.forall_mem_cons.2 ⟨.inl rfl, hall⟩
    | false =>
      rw [collapse_cons_of_not hc, collapseOn_cons_of_not hc]
      exact ⟨List.forall_mem_cons.2 ⟨.inr hc, hallOn⟩, List.forall_mem_cons.2 ⟨.inr hc, hallOn⟩⟩

/-- A character behind single spaces, if it is none or a space behind a word. -/
theorem Spaced.concat (h : Spaced s) (hc : isWhitespace c = true → c = ' ' ∧
    ∀ d ∈ s.getLast?, isWhitespace d = false) : Spaced (s ++ [c]) := by
  induction s with
  | nil => exact ⟨fun hspace => ⟨(hc hspace).1, by simp⟩, trivial⟩
  | cons d s ih =>
    obtain ⟨hd, hs⟩ := h
    refine ⟨fun hspace => ⟨(hd hspace).1, ?_⟩, ih hs fun hspace => ⟨(hc hspace).1, ?_⟩⟩
    · cases s with
      | nil =>
        intro e he
        obtain rfl : c = e := by simpa using he
        by_contra hvisible
        have hlast := (hc (by simpa using hvisible)).2 d rfl
        rw [hspace] at hlast
        cases hlast
      | cons e s => exact (hd hspace).2
    · intro e he
      refine (hc hspace).2 e ?_
      rw [List.getLast?_cons, Option.mem_def.1 he]
      rfl

/-! ## What is left without white space -/

def visible (s : List Char) : List Char := s.filter fun c => !isWhitespace c

@[simp] theorem visible_nil : visible [] = [] := rfl

@[simp] theorem visible_append (s t : List Char) : visible (s ++ t) = visible s ++ visible t :=
  List.filter_append s t

theorem visible_cons_space (hc : isWhitespace c = true) (s : List Char) :
    visible (c :: s) = visible s := by
  simp [visible, hc]

theorem visible_cons_of_not (hc : isWhitespace c = false) (s : List Char) :
    visible (c :: s) = c :: visible s := by
  simp [visible, hc]

theorem visible_eq_nil (h : ∀ c ∈ s, isWhitespace c = true) : visible s = [] := by
  simpa [visible] using h

theorem visible_trimEnd (s : List Char) : visible (trimEnd s) = visible s := by
  have htrailing : visible (trailing s) = [] := visible_eq_nil fun _ => isWhitespace_of_mem_trailing
  calc
    _ = visible (trimEnd s) ++ visible (trailing s) := by rw [htrailing, List.append_nil]
    _ = visible s := by rw [← visible_append, trimEnd_append_trailing]

theorem visible_trim (s : List Char) : visible (trim s) = visible s := by
  rw [trim, visible_trimEnd]
  induction s with
  | nil => rfl
  | cons c s ih =>
    cases hc : isWhitespace c with
    | true => simpa [trimStart, hc, visible_cons_space hc] using ih
    | false => rw [trimStart_cons_of_not hc]

theorem flatten_words (s : List Char) : (words s).flatten = visible s := by
  induction s with
  | nil => rfl
  | cons c s ih =>
    rw [words_cons]
    cases hc : isWhitespace c with
    | true => rw [if_pos rfl, ih, visible_cons_space hc]
    | false =>
      rw [if_neg (by decide), visible_cons_of_not hc]
      cases s with
      | nil => rfl
      | cons d s =>
        dsimp only
        split
        · simp [ih]
        · rename_i hd
          obtain ⟨w, ws, hw⟩ := List.exists_cons_of_ne_nil (words_ne_nil (by simpa using hd) s)
          rw [hw] at ih ⊢
          simpa using ih

theorem visible_collapse (s : List Char) : visible (collapse s) = visible s := by
  rw [← flatten_words, collapse, words_intercalate fun w hw => word_of_mem_words hw, flatten_words]

end CssTheming.Text
