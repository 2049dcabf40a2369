import CssTheming.Proofs.Sheet.Ends
import CssTheming.Proofs.Sheet.SelectorText
import CssTheming.Sheet.Selectors

/-!
# Selector lists and what authors write

A selector list is split by rules of its own, which know no comments and no ends of lines. It is
split where the text in front of the block has commas for the reader, unless a comment holds what
splitting looks at or a newline ends a string.
-/

namespace CssTheming

namespace Selectors

open Sheet Text

variable {quote : Option Char} {mark c : Char} {depth : Nat} {s r cur cur' : List Char}
  {word : Bool}

/-! ## The two rules -/

/-- The parts of a text between the commas at which reading stops, collapsed. A blank one at the end
does not count. -/
def cut (s : List Char) : List (List Char) :=
  match _h : readUntil [','] 0 s with
  | (part, _ :: r) => collapse part :: cut r
  | (part, []) => if collapse part = [] then [] else [collapse part]
termination_by s.length
decreasing_by have := length_of_readUntil _h; simp at this; omega

/-- Characters that mean nothing to the splitting of a list. -/
def isPlain (c : Char) : Bool := c ∉ [',', '"', '\'', '(', ')', '[', ']', '\\']

/-- No comment holds what splitting looks at. -/
def plainComments (s : List Char) : Bool :=
  match s with
  | [] => true
  | c :: r => (c != '/' || (unit c r).1.all isPlain) && plainComments (unit c r).2
termination_by s.length
decreasing_by have := length_unit_le c r; simp; omega

theorem splitFrom_nil (depth : Nat) (quote : Option Char) (cur : List Char) :
    splitFrom depth quote cur [] =
      if (trim cur.reverse).isEmpty then [] else [trim cur.reverse] := rfl

theorem splitFrom_quoted (hescape : ∀ d r', c = '\\' → r = d :: r' → False) :
    splitFrom depth (some mark) cur (c :: r) =
      splitFrom depth (if c = mark then none else some mark) (c :: cur) r := by
  rw [splitFrom]
  exact hescape

theorem splitFrom_free (hescape : ∀ d r', c = '\\' → r = d :: r' → False) :
    splitFrom depth none cur (c :: r) =
      if isQuote c then splitFrom depth (some c) (c :: cur) r
      else if c = ',' ∧ depth = 0 then trim cur.reverse :: splitFrom depth none [] r
      else splitFrom (depthAfter depth c) none (c :: cur) r := by
  rw [splitFrom]
  exact hescape

/-! ## Splitting where reading stops -/

/-- A string is read to its end by both, unless a newline ends it. -/
theorem splitFrom_string (h : (readString mark r).1.getLast? ≠ some '\n') :
    splitFrom depth (some mark) cur r =
      splitFrom depth none ((readString mark r).1.reverse ++ cur) (readString mark r).2 := by
  fun_induction readString mark r generalizing cur with
  | case1 => rfl
  | case2 d r t rest ht ih =>
    rw [ht] at ih
    rw [splitFrom, ih]
    · simp
    · intro hlast
      apply h
      rw [List.getLast?_cons, List.getLast?_cons, hlast]
      rfl
  | case3 c r hescape hend =>
    rw [splitFrom_quoted hescape]
    have hmark : c = mark := hend.resolve_right fun hnewline => h (by rw [hnewline]; rfl)
    rw [if_pos hmark]
    rfl
  | case4 c r hescape hend t rest ht ih =>
    rw [ht] at ih
    rw [splitFrom_quoted hescape, if_neg fun hmark => hend (.inl hmark), ih]
    · simp
    · intro hlast
      apply h
      rw [List.getLast?_cons, hlast]
      rfl

theorem splitFrom_append_plain {w : List Char} (hw : ∀ c ∈ w, isPlain c = true) :
    splitFrom depth none cur (w ++ r) = splitFrom depth none (w.reverse ++ cur) r := by
  induction w generalizing cur with
  | nil => rfl
  | cons c w ih =>
    obtain ⟨hc, hw⟩ := List.forall_mem_cons.1 hw
    have hne : c ≠ ',' ∧ c ≠ '"' ∧ c ≠ '\'' ∧ c ≠ '(' ∧ c ≠ ')' ∧ c ≠ '[' ∧ c ≠ ']' ∧
        c ≠ '\\' := by
      simpa [isPlain] using hc
    obtain ⟨hcomma, hdouble, hsingle, hopen, hclose, hopen', hclose', hescape⟩ := hne
    rw [List.cons_append, splitFrom_free fun _ _ hc _ => hescape hc,
      if_neg (by simp [isQuote, hdouble, hsingle]), if_neg fun h => hcomma h.1,
      depthAfter, if_neg (by simp [hopen, hopen']), if_neg (by simp [hclose, hclose']), ih hw]
    simp

/-- A unit of the reader is one for the splitting. -/
theorem splitFrom_unit (hstop : ¬(depth = 0 ∧ c = ','))
    (hlines : (!isQuote c || (readString c r).1.getLast? != some '\n') = true)
    (hplain : (c != '/' || (unit c r).1.all isPlain) = true) :
    splitFrom depth none cur (c :: r) =
      splitFrom (depthAfter depth c) none ((unit c r).1.reverse ++ cur) (unit c r).2 := by
  by_cases hescape : c = '\\'
  · subst hescape
    cases r with
    | nil => rfl
    | cons d r => rfl
  have hlone : ∀ d r', c = '\\' → r = d :: r' → False := fun _ _ hc _ => hescape hc
  by_cases hquote : isQuote c = true
  · have hlast : (readString c r).1.getLast? ≠ some '\n' := by simpa [hquote] using hlines
    rw [splitFrom_free hlone, if_pos hquote, splitFrom_string hlast, unit_of_isQuote hquote,
      depthAfter_of_isQuote hquote]
    simp
  by_cases hcomment : c = '/' ∧ r.head? = some '*'
  · obtain ⟨rfl, hstar⟩ := hcomment
    have hall : ∀ d ∈ (unit '/' r).1, isPlain d = true := by simpa using hplain
    have hread : splitFrom depth none cur ((unit '/' r).1 ++ (unit '/' r).2) = _ :=
      splitFrom_append_plain hall
    rwa [unit_append] at hread
  · rw [unit_single hescape (by simpa using hquote) hcomment, splitFrom_free hlone, if_neg hquote,
      if_neg fun h => hstop h.symm]
    rfl

/-- A list is split at the first comma at which reading stops. -/
theorem splitFrom_of_readUntil (hlines : keepsLines s = true) (hplain : plainComments s = true)
    {part rest : List Char} (h : readUntil [','] depth s = (part, rest)) :
    (rest = [] → splitFrom depth none cur s = splitFrom 0 none (part.reverse ++ cur) []) ∧
      ∀ d r, rest = d :: r → keepsLines r = true ∧ plainComments r = true ∧
        splitFrom depth none cur s = trim (cur.reverse ++ part) :: splitFrom 0 none [] r := by
  fun_induction readUntil [','] depth s generalizing cur part with
  | case1 depth =>
    cases h
    exact ⟨fun _ => rfl, by simp⟩
  | case2 depth c r hstop =>
    cases h
    obtain ⟨rfl, hcomma⟩ := hstop
    obtain rfl : c = ',' := by simpa using hcomma
    refine ⟨by simp, ?_⟩
    rintro d r' ⟨⟩
    rw [keepsLines, unit_single (by decide) (by decide) (by simp), Bool.and_eq_true] at hlines
    rw [plainComments, unit_single (by decide) (by decide) (by simp), Bool.and_eq_true] at hplain
    refine ⟨hlines.2, hplain.2, ?_⟩
    rw [splitFrom_free (by simp), if_neg (by decide), if_pos ⟨rfl, rfl⟩, List.append_nil]
  | case3 depth c r hstop t rest' ht ih =>
    cases h
    rw [keepsLines, Bool.and_eq_true] at hlines
    rw [plainComments, Bool.and_eq_true] at hplain
    have hunit : splitFrom depth none cur (c :: r) = _ :=
      splitFrom_unit (by simpa using hstop) hlines.1 hplain.1
    obtain ⟨hnil, hcons⟩ := @ih ((unit c r).1.reverse ++ cur) hlines.2 hplain.2 t ht
    refine ⟨fun hrest => ?_, fun d r' hrest => ?_⟩
    · rw [hunit, hnil hrest]
      simp
    · obtain ⟨hlines', hplain', hsplit⟩ := hcons d r' hrest
      refine ⟨hlines', hplain', ?_⟩
      rw [hunit, hsplit]
      simp

/-- Where no comment holds what splitting looks at and no newline ends a string, the parts between
commas are those of the reader. -/
theorem map_collapse_splitFrom (hlines : keepsLines s = true) (hplain : plainComments s = true) :
    (splitFrom 0 none [] s).map collapse = cut s := by
  fun_induction cut s with
  | case1 s part d r h ih =>
    obtain ⟨hlines', hplain', hsplit⟩ := (splitFrom_of_readUntil hlines hplain h).2 d r rfl
    rw [hsplit, List.map_cons, ih hlines' hplain', List.reverse_nil, List.nil_append, collapse_trim]
  | case2 s part h hblank =>
    rw [(splitFrom_of_readUntil hlines hplain h).1 rfl, splitFrom_nil, List.append_nil,
      List.reverse_reverse, trim_eq_nil_iff.2 hblank]
    rfl
  | case3 s part h hblank =>
    have hne : ¬(trim part).isEmpty = true := by
      rwa [List.isEmpty_iff, trim_eq_nil_iff]
    rw [(splitFrom_of_readUntil hlines hplain h).1 rfl, splitFrom_nil, List.append_nil,
      List.reverse_reverse, if_neg hne, List.map_singleton, collapse_trim]

/-! ## Splitting what was collapsed -/

/-- What was read of a text, and of what it collapses to, both last character first, and whether a
word or white space was read last. -/
structure Alike (cur cur' : List Char) (word : Bool) : Prop where
  spaced : Spaced cur'.reverse
  same : ∀ t, collapse (cur.reverse ++ t) = collapse (cur'.reverse ++ t)
  last : ∀ c ∈ cur'.head?, isWhitespace c = !word

/-- What is left to read of the collapsed text. -/
def remaining (word : Bool) (s : List Char) : List Char :=
  if word then collapseOn s else collapse s

theorem alike_nil (word : Bool) : Alike [] [] word := ⟨trivial, fun _ => rfl, by simp⟩

theorem Alike.cons_of_not (h : Alike cur cur' word) (hc : isWhitespace c = false) :
    Alike (c :: cur) (c :: cur') true where
  spaced := by
    rw [List.reverse_cons]
    exact h.spaced.concat fun hspace => absurd hspace (by simp [hc])
  same t := by simpa using h.same (c :: t)
  last := by simpa using hc

/-- White space behind a word becomes a space. -/
theorem Alike.cons_space (h : Alike cur cur' true) (hc : isWhitespace c = true) :
    Alike (c :: cur) (' ' :: cur') false where
  spaced := by
    rw [List.reverse_cons]
    refine h.spaced.concat fun _ => ⟨rfl, ?_⟩
    rw [List.getLast?_reverse]
    exact h.last
  same t := by
    simpa using (h.same (c :: t)).trans (collapse_append_cons_space hc _ _)
  last := by
    rintro c ⟨⟩
    decide

/-- White space behind white space is dropped. -/
theorem Alike.cons_drop (h : Alike cur cur' false) (hc : isWhitespace c = true) :
    Alike (c :: cur) cur' false where
  spaced := h.spaced
  same t := by
    rw [List.reverse_cons, List.append_assoc, List.singleton_append, h.same]
    cases cur' with
    | nil => exact collapse_cons_space hc t
    | cons d cur' =>
      have hd : isWhitespace d = true := h.last d rfl
      simpa using collapse_append_cons_cons_space hd hc cur'.reverse t
  last := h.last

/-- Both have the same part. -/
theorem Alike.part (h : Alike cur cur' word) :
    collapse (trim cur.reverse) = trim cur'.reverse := by
  have hall := h.same []
  rw [List.append_nil, List.append_nil] at hall
  rw [collapse_trim, hall, h.spaced.collapse_eq_trim]

theorem remaining_cons_of_not (hc : isWhitespace c = false) (s : List Char) :
    remaining word (c :: s) = c :: collapseOn s := by
  rw [remaining, collapseOn_cons_of_not hc, collapse_cons_of_not hc, ite_self]

theorem splitFrom_space (hquote : ∀ q ∈ quote, isQuote q = true) (cur r : List Char) :
    splitFrom depth quote cur (' ' :: r) = splitFrom depth quote (' ' :: cur) r := by
  cases quote with
  | none => rfl
  | some q =>
    have hq : ' ' ≠ q := by
      rintro rfl
      exact absurd (hquote ' ' rfl) (by decide)
    rw [splitFrom_quoted (by simp), if_neg hq]

/-- White space in front of the rest is read by both. -/
theorem splitFrom_remaining_space (hquote : ∀ q ∈ quote, isQuote q = true)
    (hc : isWhitespace c = true) (h : Alike cur cur' word) {parts : List (List Char)}
    (ih : ∀ {cur' word}, Alike (c :: cur) cur' word →
      parts = splitFrom depth quote cur' (remaining word r)) :
    parts = splitFrom depth quote cur' (remaining word (c :: r)) := by
  cases word with
  | false =>
    have hrest : remaining false (c :: r) = remaining false r := collapse_cons_space hc r
    rw [hrest]
    exact ih (h.cons_drop hc)
  | true =>
    have hrest : remaining true (c :: r) = gap r := collapseOn_cons_space hc r
    rw [ih (h.cons_space hc), hrest, gap, remaining, if_neg (by decide)]
    split
    · rename_i hnil
      rw [hnil, splitFrom_nil, splitFrom_nil, List.reverse_cons, trim_append_space (by decide)]
    · rw [splitFrom_space hquote]

theorem splitFrom_backslash (depth : Nat) (quote : Option Char) (cur : List Char) :
    splitFrom depth quote cur ['\\'] = splitFrom depth quote ('\\' :: cur) [] := by
  cases quote with
  | none => rfl
  | some q =>
    rw [splitFrom_quoted (by simp)]
    rfl

/-- An escape of white space may lose it at the end. -/
theorem splitFrom_backslash_gap :
    splitFrom depth quote cur ('\\' :: gap r) =
      splitFrom depth quote (' ' :: '\\' :: cur) (collapse r) := by
  rw [gap]
  split
  · rename_i hnil
    have hback : (' ' :: '\\' :: cur).reverse = ('\\' :: cur).reverse ++ [' '] := List.reverse_cons
    rw [hnil, splitFrom_backslash, splitFrom_nil, splitFrom_nil, hback,
      trim_append_space (by decide)]
  · rw [splitFrom]

theorem not_escape_collapseOn (h : ∀ d r', c = '\\' → r = d :: r' → False) :
    ∀ d r', c = '\\' → collapseOn r = d :: r' → False := by
  intro d r' hc hr
  cases r with
  | nil => cases hr
  | cons e r => exact h e r hc rfl

/-- What is read of a text splits as what is read of what it collapses to. -/
theorem splitFrom_collapse (hquote : ∀ q ∈ quote, isQuote q = true) (h : Alike cur cur' word) :
    (splitFrom depth quote cur s).map collapse =
      splitFrom depth quote cur' (remaining word s) := by
  have hnil : ∀ word, remaining word [] = [] := fun word => by cases word <;> rfl
  fun_induction splitFrom depth quote cur s generalizing cur' word with
  | case1 depth quote cur =>
    rename_i hblank
    have hnone : trim cur.reverse = [] := List.isEmpty_iff.1 hblank
    rw [hnil, splitFrom_nil, ← h.part, hnone]
    rfl
  | case2 depth quote cur =>
    rename_i hblank
    have hsome : ¬trim cur.reverse = [] := fun hnone => hblank (List.isEmpty_iff.2 hnone)
    have hne : ¬(trim cur'.reverse).isEmpty = true := by
      rwa [← h.part, List.isEmpty_iff, collapse_trim, ← trim_eq_nil_iff]
    rw [hnil, splitFrom_nil, if_neg hne, ← h.part, List.map_singleton]
  | case3 depth quote cur d r ih =>
    rw [remaining_cons_of_not (by decide)]
    have hescape := h.cons_of_not (c := '\\') (by decide)
    cases hd : isWhitespace d with
    | false =>
      rw [collapseOn_cons_of_not hd, splitFrom]
      exact ih hquote (hescape.cons_of_not hd)
    | true =>
      rw [collapseOn_cons_space hd, splitFrom_backslash_gap]
      exact ih hquote (hescape.cons_space hd)
  | case4 depth cur c r hescape q ih =>
    cases hc : isWhitespace c with
    | false =>
      rw [remaining_cons_of_not hc, splitFrom_quoted (not_escape_collapseOn hescape)]
      refine ih (fun q' hq' => ?_) (h.cons_of_not hc)
      split at hq'
      · cases hq'
      · exact hquote q' hq'
    | true =>
      have hq : c ≠ q := by
        rintro rfl
        have hvisible := not_isWhitespace_of_isQuote (hquote c rfl)
        rw [hc] at hvisible
        cases hvisible
      rw [if_neg hq] at ih ⊢
      exact splitFrom_remaining_space hquote hc h fun halike => ih hquote halike
  | case5 depth cur c r hescape hc ih =>
    have hvisible := not_isWhitespace_of_isQuote hc
    rw [remaining_cons_of_not hvisible, splitFrom_free (not_escape_collapseOn hescape), if_pos hc]
    refine ih (fun q hq => ?_) (h.cons_of_not hvisible)
    obtain rfl := Option.some.inj hq
    exact hc
  | case6 depth cur c r hescape hc hcomma ih =>
    have hvisible : isWhitespace c = false := by
      rw [hcomma.1]
      decide
    rw [remaining_cons_of_not hvisible, splitFrom_free (not_escape_collapseOn hescape), if_neg hc,
      if_pos hcomma, List.map_cons, h.part, ih (by simp) (alike_nil true)]
    rfl
  | case7 depth cur c r hescape hc hcomma ih =>
    cases hspace : isWhitespace c with
    | false =>
      rw [remaining_cons_of_not hspace, splitFrom_free (not_escape_collapseOn hescape), if_neg hc,
        if_neg hcomma]
      exact ih (by simp) (h.cons_of_not hspace)
    | true =>
      have hdepth : depthAfter depth c = depth := by
        rw [depthAfter, if_neg, if_neg]
        · rintro (rfl | rfl) <;> exact absurd hspace (by decide)
        · rintro (rfl | rfl) <;> exact absurd hspace (by decide)
      rw [hdepth] at ih ⊢
      exact splitFrom_remaining_space (by simp) hspace h fun halike => ih (by simp) halike

/-- A collapsed list has the parts of the list. -/
theorem split_collapse (s : List Char) :
    splitFrom 0 none [] (collapse s) = (splitFrom 0 none [] s).map collapse :=
  (splitFrom_collapse (by simp) (alike_nil false)).symm

theorem keepsLines_of_not_mem (h : '\n' ∉ s) : keepsLines s = true := by
  fun_induction keepsLines s with
  | case1 => rfl
  | case2 c r ih =>
    rw [← unit_append c r, List.mem_append, not_or] at h
    rw [Bool.and_eq_true]
    refine ⟨?_, ih h.2⟩
    cases hquote : isQuote c with
    | false => rfl
    | true =>
      rw [unit_of_isQuote hquote] at h
      have hlast : (readString c r).1.getLast? ≠ some '\n' := fun hlast =>
        h.1 (List.mem_cons_of_mem _ (List.mem_of_getLast? hlast))
      simpa using hlast

/-- A collapsed list is split as the reader splits it, unless a comment holds what splitting looks
at. -/
theorem splitFrom_collapse_eq_cut (h : plainComments (collapse s) = true) :
    splitFrom 0 none [] (collapse s) = cut (collapse s) := by
  have hlines : keepsLines (collapse s) = true := by
    refine keepsLines_of_not_mem fun hmem => ?_
    rcases (mem_collapse s).1 '\n' hmem with hspace | hspace <;> exact absurd hspace (by decide)
  have hsplit := split_collapse (collapse s)
  rw [collapse_collapse] at hsplit
  rw [hsplit]
  exact map_collapse_splitFrom hlines h

end Selectors

namespace Sheet

open Text Selectors

variable {source path selector : String} {s : Sheet} {id : Nat}

/-- The selectors of a rule are what stands between the commas at which the reader of the text in
front of the block would stop, and between those of its selector, as long as no comment has commas,
quotes, backslashes, parentheses or brackets in it and no newline ends a string in the text. -/
theorem selectors_of_parse (hparse : parse source path = .ok s) (hid : id ∈ s.descendants root)
    (hk : s.kind? id = some (.rule selector)) :
    ∃ text rest, RestAt source.toList (s.location id).position (text ++ '{' :: rest) ∧
      readUntil headStops 0 (text ++ '{' :: rest) = (text, '{' :: rest) ∧
      selector = String.ofList (collapse text) ∧
      (keepsLines text = true → plainComments text = true →
        s.selectors id = (cut text).map String.ofList) ∧
      (plainComments selector.toList = true →
        s.selectors id = (cut selector.toList).map String.ofList) := by
  obtain ⟨text, rest, hrest, htext, rfl, -⟩ := exists_text_of_rule hparse hid hk
  have hselectors : s.selectors id =
      (splitFrom 0 none [] (collapse text)).map String.ofList := by
    rw [selectors, hk]
    dsimp only
    rw [Selectors.split, String.toList_ofList]
  rw [hselectors, String.toList_ofList]
  refine ⟨text, rest, hrest, htext, rfl, fun hlines hplain => ?_, fun hplain => ?_⟩
  · rw [split_collapse, map_collapse_splitFrom hlines hplain]
  · rw [splitFrom_collapse_eq_cut hplain]

/-- Commas in an escape, a string, brackets and parentheses, and a comment without one. -/
theorem selectors_of_parse_nested :
    let source := ".a\\, [b=\",\"] /* c */, :is(d, e)\n, f \x7b\x7d"
    let text := ".a\\, [b=\",\"] /* c */, :is(d, e)\n, f ".toList
    let s := (parse source "a.css").toOption.getD default
    parse source "a.css" = .ok s ∧ source.toList = text ++ ['{', '}'] ∧
      s.selectors 1 = (cut text).map String.ofList ∧
      s.selectors 1 = [".a\\, [b=\",\"] /* c */", ":is(d, e)", "f"] := by
  intro source text s
  obtain ⟨hparse, hmem, hk, hpos⟩ : parse source "a.css" = .ok s ∧ 1 ∈ s.descendants root ∧
      s.kind? 1 = some (.rule ".a\\, [b=\",\"] /* c */, :is(d, e) , f") ∧
      (s.location 1).position = Position.start := by decide +kernel
  obtain ⟨hsource, hread, hlines, hplain⟩ : source.toList = text ++ ['{', '}'] ∧
      readUntil headStops 0 source.toList = (text, ['{', '}']) ∧ keepsLines text = true ∧
      plainComments text = true := by decide +kernel
  have hcut : (cut text).map String.ofList = [".a\\, [b=\",\"] /* c */", ":is(d, e)", "f"] := by
    decide +kernel
  obtain ⟨text', rest, hrest, htext, -, hparts, -⟩ := selectors_of_parse hparse hmem hk
  have hwhole : RestAt source.toList (s.location 1).position source.toList := ⟨[], rfl, hpos⟩
  rw [hwhole.unique hrest, hread] at htext
  obtain ⟨rfl, -⟩ := Prod.mk.inj htext
  exact ⟨hparse, hsource, hparts hlines hplain, (hparts hlines hplain).trans hcut⟩

/-- A comma in a comment splits the selector and the comment. -/
theorem selectors_of_parse_comment :
    let source := ".a /* , */ .b \x7b\x7d"
    let text := ".a /* , */ .b ".toList
    let s := (parse source "test.css").toOption.getD default
    parse source "test.css" = .ok s ∧ s.kind? 1 = some (.rule ".a /* , */ .b") ∧
      readUntil headStops 0 source.toList = (text, ['{', '}']) ∧
      readUntil [','] 0 text = (text, []) ∧ s.selectors 1 = [".a /*", "*/ .b"] := by
  decide +kernel

end Sheet

end CssTheming
